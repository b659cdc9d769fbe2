import PlvmHomeworks.Runtime.Gc
import PlvmHomeworks.Tools.InstReader

/-! The interpreter: `interprete.cpp`, with what it uses of `runtime.c`.

    A `size_t *` is the word address it points to; its arithmetic is modulo `2^32` bytes, hence
    modulo `2^30` words. An access outside `__vstack` and the heap has no defined result. The C++
    stores through any pointer a program makes; the model follows a store into `__vstack` or the
    heap and stops at any other. Whatever the program cannot know in advance (input, the place
    `mremap` chooses, the uninitialised `closure_size`, the text of `printValue`, the address of a
    `malloc`ed buffer) is an `Env` that every step takes afresh. -/

namespace Lama
open Outcome

def vstackSize : ℕ := 65536
def cstackSize : ℕ := 65536

/-- Where the words of the process are: `__vstack`, the locals of `Bstring` and `Lstring` whose
    addresses become extra roots, the custom data, and the file's buffer (a byte address). -/
structure Image where
  vstack : ℕ
  bstringRoot : ℕ
  lstringRoot : ℕ
  startCustomData : ℕ
  stopCustomData : ℕ
  buffer : Word
  vstack_pos : 0 < vstack
  vstack_fits : vstack + vstackSize < 2 ^ 30
  roots_differ : bstringRoot ≠ lstringRoot
  bstringRoot_apart : bstringRoot + 1 < vstack ∨ vstack + vstackSize < bstringRoot
  lstringRoot_apart : lstringRoot + 1 < vstack ∨ vstack + vstackSize < lstringRoot
  customData_apart : stopCustomData + 1 < vstack ∨ vstack + vstackSize < startCustomData
  bstringRoot_custom : bstringRoot < startCustomData ∨ stopCustomData < bstringRoot
  lstringRoot_custom : lstringRoot < startCustomData ∨ stopCustomData < lstringRoot

/-- `__gc_stack_bottom` after `vstack_init`. -/
def Image.bottom (im : Image) : ℕ := im.vstack + vstackSize

/-- What a step takes from outside the program. -/
structure Env where
  input : Word
  mremap : Option ℕ
  closureSize : Word
  printed : List UInt8
  stringBuf : Word

/-- `p + n` for a `size_t *p`. -/
def ptrAdd (p : ℕ) (n : ℤ) : ℕ := ((p + n) % 2 ^ 30).toNat

/-- `frame`. -/
structure Frame where
  returnIp : Option ℤ
  isClosure : Bool
  base : ℕ
  argsCount : ℕ
  localsCount : ℕ
  deriving DecidableEq, Repr

/-- The state of `interprete`: the next `ip` (`none` is `NULL`), `__gc_stack_top`,
    `__vstack_globals_count`, `__cstack` with the index of `__cstack_top`, the memory, and what was
    written. -/
structure State where
  ip : Option ℤ
  top : ℕ
  globalsCount : ℕ
  cstack : ℕ → Frame
  ctop : ℕ
  mem : Memory
  out : List ℤ

/-- `*__cstack_top`. -/
def State.frame (s : State) : Frame := s.cstack s.ctop

/-! ### Memory accesses -/

/-- A word of `__vstack`. -/
def Image.inStack (im : Image) (a : ℕ) : Prop := im.vstack ≤ a ∧ a < im.vstack + vstackSize

instance (im : Image) (a : ℕ) : Decidable (im.inStack a) := by
  unfold Image.inStack; infer_instance

/-- `*a` for a word of `__vstack`. -/
def readSlot (im : Image) (s : State) (a : ℕ) : Except Stop Word := do
  ensure (im.inStack a) (.undefined "__vstack")
  return s.mem.ram a

/-- `*a = v` for a word of `__vstack`. -/
def writeSlot (im : Image) (s : State) (a : ℕ) (v : Word) : Except Stop State := do
  ensure (im.inStack a) (.undefined "__vstack")
  return { s with mem := s.mem.setRam a v }

/-- `*a` for a word of `__vstack` or of the heap. -/
def loadWord (im : Image) (s : State) (a : ℕ) : Except Stop Word :=
  if im.inStack a then .ok (s.mem.ram a) else orStop (s.mem.heap.load a) (.undefined "load")

/-- `*a = v` for a word of `__vstack` or of the heap. -/
def storeWord (im : Image) (s : State) (a : ℕ) (v : Word) : Except Stop State :=
  if im.inStack a then .ok { s with mem := s.mem.setRam a v }
  else do
    let h ← orStop (s.mem.heap.store a v) (.undefined "store")
    return { s with mem := { s.mem with heap := h } }

/-- The word address a pointer holds. -/
def derefPtr (x : Word) : Except Stop ℕ := orStop (aligned x) (.undefined "misaligned pointer")

/-- Byte `i` of a word, and the word with that byte replaced. -/
def byteOf (w : Word) (i : ℕ) : Word := (w >>> (8 * i)) &&& 0xFF
def setByteOf (w : Word) (i : ℕ) (b : Word) : Word :=
  (w &&& ~~~((0xFF : Word) <<< (8 * i))) ||| ((b &&& 0xFF) <<< (8 * i))

/-- `((char *)p)[i]` for the object at word address `p`. -/
def loadByte (im : Image) (s : State) (p : ℕ) (i : ℤ) : Except Stop Word := do
  let w ← loadWord im s (ptrAdd p (i / 4))
  return byteOf w (i % 4).toNat

/-- `((char *)p)[i] = b`. -/
def storeByte (im : Image) (s : State) (p : ℕ) (i : ℤ) (b : Word) : Except Stop State := do
  let w ← loadWord im s (ptrAdd p (i / 4))
  storeWord im s (ptrAdd p (i / 4)) (setByteOf w (i % 4).toNat b)

/-! ### The virtual stack -/

/-- `vstack_push`. -/
def vstackPush (im : Image) (s : State) (value : Word) : Except Stop State := do
  ensure (s.top > im.vstack) (.fail "Virtual stack overflow" [])
  let s ← writeSlot im s s.top value
  return { s with top := s.top - 1 }

/-- `vstack_pop`. -/
def vstackPop (im : Image) (s : State) : Except Stop (Word × State) := do
  ensure (ptrAdd s.top 1 ≠ im.bottom) (.fail "Virtual stack underflow" [])
  let v ← readSlot im s (ptrAdd s.top 1)
  return (v, { s with top := ptrAdd s.top 1 })

/-- `vstack_top`. -/
def vstackTop (im : Image) (s : State) : Except Stop Word := do
  ensure (ptrAdd s.top 1 < im.bottom) (.fail "Virtual stack underflow" [])
  readSlot im s (ptrAdd s.top 1)

/-- `vstack_kth_from_end`. -/
def vstackKthFromEnd (im : Image) (s : State) (index : ℕ) : Except Stop Word := do
  ensure (ptrAdd s.top (1 + index) < im.bottom) (.fail "Virtual stack underflow" [])
  readSlot im s (ptrAdd s.top (1 + index))

/-! ### The call stack -/

/-- `cstack_call`. The new record keeps whatever `locals_count` the slot held before. -/
def cstackCall (im : Image) (s : State) (returnIp : ℤ) (argsCount : ℕ) (isClosure : Bool) :
    Except Stop State := do
  ensure (s.ctop > 0) (.fail "Call stack overflow" [])
  ensure (ptrAdd s.top argsCount < im.bottom) (.fail "Virtual stack underflow" [])
  let frame : Frame :=
    { returnIp := some returnIp, isClosure, base := s.top, argsCount
      localsCount := (s.cstack (s.ctop - 1)).localsCount }
  return { s with
    ctop := s.ctop - 1
    cstack := fun i => if i = s.ctop - 1 then frame else s.cstack i }

/-- `cstack_alloc`. -/
def cstackAlloc (im : Image) (s : State) (localsCount : ℕ) : Except Stop State := do
  ensure (ptrAdd s.top (-localsCount) > im.vstack) (.fail "Virtual stack overflow" [])
  return { s with
    top := ptrAdd s.top (-localsCount)
    cstack := fun i =>
      if i = s.ctop then { s.cstack i with localsCount := localsCount } else s.cstack i }

/-- `cstack_end`: the state and the return ip. -/
def cstackEnd (im : Image) (s : State) : Except Stop (State × Option ℤ) := do
  let (returnValue, s) ← vstackPop im s
  ensure (s.ctop ≠ cstackSize) (.fail "Call stack underflow" [])
  ensure (ptrAdd s.frame.base s.frame.argsCount ≤ im.bottom) (.fail "Virtual stack underflow" [])
  let s := { s with
    top := ptrAdd s.frame.base (s.frame.argsCount + s.frame.isClosure.toNat) }
  let s ← vstackPush im s returnValue
  return ({ s with ctop := s.ctop + 1 }, s.frame.returnIp)

/-- `loc`: the address of a variable. Every index is compared as a `size_t`. -/
def loc (im : Image) (e : Env) (s : State) (location : LocationEntry) : Except Stop ℕ :=
  match location.location with
  | some .global => do
    ensure (toSize location.index < s.globalsCount)
      (.fail "Memory access failed: G(%d) is out of section (%d globals)"
        [location.index, s.globalsCount])
    return ptrAdd im.bottom (-1 - location.index)
  | some .local_ => do
    ensure (toSize location.index < s.frame.localsCount)
      (.fail "Memory access failed: L(%d) is out of frame (%d locals)"
        [location.index, s.frame.localsCount])
    return ptrAdd s.frame.base (-location.index)
  | some .arg => do
    ensure (toSize location.index < s.frame.argsCount)
      (.fail "Memory access failed: A(%d) is out of frame (%d args)"
        [location.index, s.frame.argsCount])
    return ptrAdd s.frame.base (s.frame.argsCount - location.index)
  | some .captured => do
    ensure (s.frame.isClosure = true)
      (.fail "Memory access failed: C(%d) is invalid out of closure" [location.index])
    let closureContent ← readSlot im s (ptrAdd s.frame.base (s.frame.argsCount + 1))
    ensure (toSize location.index < e.closureSize.toNat)
      (.fail "Memory access failed: C(%d) is out of captured (%d captured)"
        [location.index, e.closureSize.toNat])
    return ptrAdd (← derefPtr closureContent) (1 + location.index)
  | none => .error (.fail "Unexpected location type %d\n" [location.kind])

/-! ### Strings and tags -/

/-- The characters from offset `o` of the buffer up to the first NUL. -/
def cStringFrom (f : Bytefile) : ℕ → ℤ → Option (List UInt8)
  | 0, _ => none
  | fuel + 1, o => do
    let c ← f.bufferByte o
    if c = 0 then return []
    return c :: (← cStringFrom f fuel (o + 1))

/-- The C string that string operand `pos` points to. -/
def cString (f : Bytefile) (pos : ℤ) : Option (List UInt8) :=
  cStringFrom f (f.bytes.length + 1) (f.stringPtr + pos)

/-- `chars`. -/
def tagChars : List UInt8 :=
  "_abcdefghijklmnopqrstuvwxyzABCDEFGHIJKLMNOPQRSTUVWXYZ0123456789'".toUTF8.toList

/-- The loop of `LtagHash`, over at most five characters. -/
def tagHashLoop : ℕ → ℕ → List UInt8 → Except Stop ℕ
  | 0, h, _ => .ok h
  | _, h, [] => .ok h
  | limit + 1, h, c :: cs =>
    if c ∈ tagChars then tagHashLoop limit (h * 64 + tagChars.idxOf c) cs
    else .error (.fail "tagHash: character not found: %c\n" [c.toNat])

/-- `de_hash`: the digits of `n` from the most significant one that is not zero. -/
def deHash : ℕ → ℕ → List UInt8 → List UInt8
  | 0, _, acc => acc
  | fuel + 1, n, acc => if n = 0 then acc else deHash fuel (n / 64) (tagChars.getD (n % 64) 0 :: acc)

/-- `LtagHash`. -/
def tagHash (s : List UInt8) : Except Stop Word := do
  let h ← tagHashLoop 5 0 s
  ensure ((deHash 6 h []).take 5 = s.take 5) (.fail "%s <-> %s\n" [])
  return box (BitVec.ofNat 32 h)

/-- The words that hold these bytes, the last one padded with zeros. -/
def packWords : List UInt8 → List Word
  | [] => []
  | [a] => [BitVec.ofNat 32 a.toNat]
  | [a, b] => [BitVec.ofNat 32 (a.toNat + 2 ^ 8 * b.toNat)]
  | [a, b, c] => [BitVec.ofNat 32 (a.toNat + 2 ^ 8 * b.toNat + 2 ^ 16 * c.toNat)]
  | a :: b :: c :: d :: rest =>
    BitVec.ofNat 32 (a.toNat + 2 ^ 8 * b.toNat + 2 ^ 16 * c.toNat + 2 ^ 24 * d.toNat)
      :: packWords rest

/-- The characters of the string object with content address `p`, up to the first NUL. -/
def heapString (im : Image) (s : State) (p : ℕ) : ℕ → ℕ → Except Stop (List Word)
  | 0, _ => .error (.undefined "strcmp")
  | fuel + 1, i => do
    let c ← loadByte im s p i
    if c = 0 then return []
    return c :: (← heapString im s p fuel (i + 1))

/-! ### Objects -/

/-- `TAG(TO_DATA(x)->data_header)` and the header itself. -/
def dataHeader (im : Image) (s : State) (x : Word) : Except Stop Word := do
  loadWord im s (ptrAdd (← derefPtr x) (-2))

def tagWord (im : Image) (s : State) (x : Word) : Except Stop Word := do
  return tagOf (← dataHeader im s x)

/-- The C truth value `b` as an `int`. -/
def boolWord (b : Bool) : Word := if b then 1 else 0

/-- `Bstring_tag_patt`, `Barray_tag_patt`, `Bsexp_tag_patt`, `Bclosure_tag_patt`. -/
def tagPatt (im : Image) (s : State) (tag x : Word) : Except Stop Word :=
  if unboxed x then .ok (box 0)
  else do
    let t ← tagWord im s x
    return box (boolWord (t == tag))

/-- `Bboxed_patt`, `Bunboxed_patt`. -/
def boxedPatt (x : Word) : Word := box (boolWord (!unboxed x))
def unboxedPatt (x : Word) : Word := box (boolWord (unboxed x))

/-- `Bstring_patt`. -/
def stringPatt (im : Image) (s : State) (x y : Word) : Except Stop Word := do
  if !unboxed y then
    let t ← tagWord im s y
    ensure (t = stringTag) (.fail "string value expected in .string_patt:2\n" [])
  if unboxed x then return box 0
  let t ← tagWord im s x
  if t ≠ stringTag then return box 0
  let a ← heapString im s (← derefPtr x) (2 ^ 32) 0
  let b ← heapString im s (← derefPtr y) (2 ^ 32) 0
  return box (boolWord (a == b))

/-- `Btag`; `t` and `n` are boxed. -/
def btag (im : Image) (s : State) (d t n : Word) : Except Stop Word :=
  if unboxed d then .ok (box 0)
  else do
    let r ← dataHeader im s d
    if tagOf r = sexpTag then
      let tag ← loadWord im s (← derefPtr d)
      return box (boolWord (tag == unbox t && lenOf r == (unbox n).toNat))
    else return box (boolWord false)

/-- `Barray_patt`; `n` is boxed. -/
def arrayPatt (im : Image) (s : State) (d n : Word) : Except Stop Word :=
  if unboxed d then .ok (box 0)
  else do
    let r ← dataHeader im s d
    return box (boolWord (tagOf r == arrayTag && lenOf r == (unbox n).toNat))

/-- `Llength`. -/
def llength (im : Image) (s : State) (p : Word) : Except Stop Word := do
  ensure (unboxed p = false) (.fail "boxed value expected in .length\n" [])
  let r ← dataHeader im s p
  return box (BitVec.ofNat 32 (lenOf r))

/-- A byte as the `char` (signed) it is. -/
def charWord (b : Word) : Word := (b.setWidth 8).signExtend 32

/-- `Belem`. -/
def belem (im : Image) (s : State) (p i : Word) : Except Stop Word := do
  ensure (unboxed p = false) (.fail "boxed value expected in .elem:1\n" [])
  ensure (unboxed i = true) (.fail "unboxed value expected in .elem:2\n" [])
  let tag ← tagWord im s p
  let a ← derefPtr p
  let i := (unbox i).toInt
  if tag = stringTag then
    let c ← loadByte im s a i
    return box (charWord c)
  else if tag = sexpTag then loadWord im s (ptrAdd a (i + 1))
  else loadWord im s (ptrAdd a i)

/-- `Bsta`. -/
def bsta (im : Image) (s : State) (v i x : Word) : Except Stop State :=
  if unboxed i then do
    ensure (unboxed x = false) (.fail "boxed value expected in .sta:3\n" [])
    let tag ← tagWord im s x
    let a ← derefPtr x
    let i := (unbox i).toInt
    if tag = stringTag then storeByte im s a i (unbox v)
    else if tag = sexpTag then storeWord im s (ptrAdd a (i + 1)) v
    else storeWord im s (ptrAdd a i) v
  else do
    storeWord im s (← derefPtr x) v

/-! ### Allocation -/

/-- The collector's view of the state. -/
def State.roots (im : Image) (s : State) (extraRoots : List ℕ) : Roots :=
  { stackTop := s.top, stackBottom := im.bottom, extraRoots
    startCustomData := im.startCustomData, stopCustomData := im.stopCustomData }

/-- A pending call of `alloc_string`, `alloc_array`, `alloc_sexp` or `alloc_closure`: the state it is
    made in, the extra roots at that moment, the tag and `len` of the header, the size in bytes. -/
structure AllocRequest where
  state : State
  extraRoots : List ℕ
  tag : Word
  len : ℤ
  bytes : ℕ

def allocString (s : State) (extraRoots : List ℕ) (len : ℤ) : AllocRequest :=
  ⟨s, extraRoots, stringTag, len, toSize (8 + len + 1)⟩
def allocArray (s : State) (len : ℤ) : AllocRequest := ⟨s, [], arrayTag, len, toSize (8 + 4 * len)⟩
def allocSexp (s : State) (members : ℤ) : AllocRequest :=
  ⟨s, [], sexpTag, members, toSize (8 + 4 * (members + 1))⟩
def allocClosure (s : State) (captured : ℤ) : AllocRequest :=
  ⟨s, [], closureTag, captured, toSize (8 + 4 * captured)⟩

/-- A store into the object being built. -/
def storeHeap (s : State) (a : ℕ) (v : Word) : Except Stop State := do
  let h ← orStop (s.mem.heap.store a v) (.undefined "heap")
  return { s with mem := { s.mem with heap := h } }

/-- `alloc_*`: the header address of the new object, and the state. -/
def allocObject (im : Image) (e : Env) (r : AllocRequest) : Except Stop (ℕ × State) := do
  let (p, m) ← orStop (alloc (r.state.roots im r.extraRoots) e.mremap r.bytes r.state.mem)
    (.undefined "alloc")
  let p ← orStop p (.undefined "NULL")
  let s ← storeHeap { r.state with mem := m } p (r.tag ||| BitVec.ofInt 32 r.len <<< 3)
  let s ← storeHeap s (p + 1) 0
  return (p, s)

/-- Push the values of these variables, one after another (`CLOSURE`). -/
def pushLocations (im : Image) (e : Env) : State → List LocationEntry → Except Stop State
  | s, [] => .ok s
  | s, l :: ls => do
    let a ← loc im e s l
    let v ← loadWord im s a
    let s ← vstackPush im s v
    pushLocations im e s ls

/-- Pop `n` operands into `contents[lo + n - 1], ..., contents[lo]`. -/
def popInto (im : Image) (contents lo : ℕ) : ℕ → State → Except Stop State
  | 0, s => .ok s
  | n + 1, s => do
    let (v, s) ← vstackPop im s
    let s ← storeHeap s (contents + lo + n) v
    popInto im contents lo n s

/-- Store consecutive words. -/
def storeWords (a : ℕ) : List Word → State → Except Stop State
  | [], s => .ok s
  | w :: ws, s => do
    let s ← storeHeap s a w
    storeWords (a + 1) ws s

/-- `n` after `LmakeString(BOX(n))` has unboxed it. -/
def unboxedLen (n : ℕ) : ℤ := (unbox (box (BitVec.ofNat 32 n))).toInt

/-- What an allocating instruction does before its `alloc_*` call: `Bstring`, `BSexp`, `Bclosure`,
    `Barray` and `Lstring`. The others make no request. -/
def allocRequest (im : Image) (e : Env) (f : Bytefile) (s : State) :
    Inst → Except Stop (Option AllocRequest)
  | .string pos => do
    let chars ← orStop (cString f pos) (.undefined "strlen")
    let p := im.buffer + BitVec.ofInt 32 (f.stringPtr + pos)
    let s := { s with mem := s.mem.setRam im.bstringRoot p }
    return some (allocString s [im.bstringRoot] (unboxedLen chars.length))
  | .sexp pos n => do
    let chars ← orStop (cString f pos) (.undefined "LtagHash")
    let _ ← tagHash chars
    return some (allocSexp s n)
  | .closure _ locations => do
    let s ← pushLocations im e s locations
    return some (allocClosure s (locations.length + 1))
  | .barray n => .ok (some (allocArray s n))
  | .lstring => do
    let (p, s) ← vstackPop im s
    let s := { s with mem := (s.mem.setRam im.lstringRoot p).setRam im.bstringRoot e.stringBuf }
    return some (allocString s [im.lstringRoot, im.bstringRoot] (unboxedLen e.printed.length))
  | _ => .ok none

/-- What an allocating instruction does with the new object at header address `r`. -/
def afterAlloc (im : Image) (e : Env) (f : Bytefile) (r : ℕ) (s : State) : Inst → Except Stop State
  | .string pos => do
    let chars ← orStop (cString f pos) (.undefined "strncpy")
    let s ← storeWords (r + headerSize) (packWords (chars ++ [0])) s
    vstackPush im s (ptr (r + headerSize))
  | .sexp pos n => do
    let chars ← orStop (cString f pos) (.undefined "LtagHash")
    let tag ← tagHash chars
    let s ← storeHeap s (r + headerSize) 0
    let s ← popInto im (r + headerSize) 1 n.toNat s
    let s ← storeHeap s (r + headerSize) (unbox tag)
    vstackPush im s (ptr (r + headerSize))
  | .closure entry locations => do
    let s ← storeHeap s (r + headerSize) (BitVec.ofInt 32 entry)
    let s ← popInto im (r + headerSize) 1 locations.length s
    vstackPush im s (ptr (r + headerSize))
  | .barray n => do
    let s ← popInto im (r + headerSize) 0 n.toNat s
    vstackPush im s (ptr (r + headerSize))
  | .lstring => do
    let s ← storeWords (r + headerSize) (packWords (e.printed ++ [0])) s
    vstackPush im s (ptr (r + headerSize))
  | _ => .ok s

/-! ### Instructions -/

/-- `res = lhv op rhv`. A zero divisor raises SIGFPE. -/
def binop (op : Binop) (lhv rhv : ℤ) : Except Stop ℤ :=
  match op with
  | .add => .ok (toInt32 (lhv + rhv))
  | .sub => .ok (toInt32 (lhv - rhv))
  | .mul => .ok (toInt32 (lhv * rhv))
  | .div => if rhv = 0 then .error (.undefined "SIGFPE") else .ok (toInt32 (lhv.tdiv rhv))
  | .rem => if rhv = 0 then .error (.undefined "SIGFPE") else .ok (toInt32 (lhv.tmod rhv))
  | .lessThan => .ok (if lhv < rhv then 1 else 0)
  | .lessEqual => .ok (if lhv ≤ rhv then 1 else 0)
  | .greaterThan => .ok (if lhv > rhv then 1 else 0)
  | .greaterEqual => .ok (if lhv ≥ rhv then 1 else 0)
  | .equal => .ok (if lhv = rhv then 1 else 0)
  | .notEqual => .ok (if lhv ≠ rhv then 1 else 0)
  | .and => .ok (if lhv ≠ 0 ∧ rhv ≠ 0 then 1 else 0)
  | .or => .ok (if lhv ≠ 0 ∨ rhv ≠ 0 then 1 else 0)

/-- The pattern instructions: pop `x` (and `y` for a string) and push the answer. -/
def patt (im : Image) (s : State) (pattern : Pattern) : Except Stop State := do
  let (x, s) ← vstackPop im s
  match pattern with
  | .string => do
    let (y, s) ← vstackPop im s
    vstackPush im s (← stringPatt im s x y)
  | .stringTag => do vstackPush im s (← tagPatt im s stringTag x)
  | .arrayTag => do vstackPush im s (← tagPatt im s arrayTag x)
  | .sexpTag => do vstackPush im s (← tagPatt im s sexpTag x)
  | .boxed => vstackPush im s (boxedPatt x)
  | .unboxed => vstackPush im s (unboxedPatt x)
  | .closureTag => do vstackPush im s (← tagPatt im s closureTag x)

/-- The instructions that neither allocate nor jump. -/
def execPlain (im : Image) (e : Env) (f : Bytefile) (s : State) : Inst → Except Stop State
  | .const value => vstackPush im s (box (BitVec.ofInt 32 value))
  | .sti => do
    let (v, s) ← vstackPop im s
    let (p, s) ← vstackPop im s
    let s ← storeWord im s (← derefPtr p) v
    vstackPush im s v
  | .sta => do
    let (v, s) ← vstackPop im s
    let (i, s) ← vstackPop im s
    let (x, s) ← vstackPop im s
    let s ← bsta im s v i x
    vstackPush im s v
  | .drop => do
    let (_, s) ← vstackPop im s
    return s
  | .dup => do vstackPush im s (← vstackTop im s)
  | .swap => do
    let (fst, s) ← vstackPop im s
    let (snd, s) ← vstackPop im s
    let s ← vstackPush im s fst
    vstackPush im s snd
  | .elem => do
    let (i, s) ← vstackPop im s
    let (p, s) ← vstackPop im s
    vstackPush im s (← belem im s p i)
  | .begin _ localsCount | .cbegin _ localsCount => cstackAlloc im s (toSize localsCount)
  | .tag pos args => do
    let (d, s) ← vstackPop im s
    let chars ← orStop (cString f pos) (.undefined "LtagHash")
    vstackPush im s (← btag im s d (← tagHash chars) (box (BitVec.ofInt 32 args)))
  | .array n => do
    let (d, s) ← vstackPop im s
    vstackPush im s (← arrayPatt im s d (box (BitVec.ofInt 32 n)))
  | .fail line col => do
    let _ ← vstackPop im s
    .error (.fail "match failure at %s:%d:%d, value '%s'\n" [line / 2, col / 2])
  | .binop op => do
    let (r, s) ← vstackPop im s
    let (l, s) ← vstackPop im s
    let res ← binop op (unbox l).toInt (unbox r).toInt
    vstackPush im s (box (BitVec.ofInt 32 res))
  | .ld location => do
    let a ← loc im e s location
    vstackPush im s (← loadWord im s a)
  | .lda location => do
    let a ← loc im e s location
    let s ← vstackPush im s (ptr a)
    vstackPush im s (ptr a)
  | .st location => do
    let a ← loc im e s location
    storeWord im s a (← vstackTop im s)
  | .patt pattern => patt im s pattern
  | .lread => vstackPush im s (box e.input)
  | .lwrite => do
    let (n, s) ← vstackPop im s
    vstackPush im { s with out := s.out ++ [(unbox n).toInt] } 0
  | .llength => do
    let (p, s) ← vstackPop im s
    vstackPush im s (← llength im s p)
  | .stop => .error .exit
  | _ => .ok s

/-- `InterpreterFunctor`: the new state, and the jump target if it sets `interpreter.advance`. -/
def exec (im : Image) (e : Env) (f : Bytefile) (s : State) (inst : Inst) :
    Except Stop (State × Option (Option ℤ)) :=
  match inst with
  | .jmp target => .ok (s, some (some target))
  | .cjmpz target => do
    let (v, s) ← vstackPop im s
    return (s, if unbox v = 0 then some (some target) else none)
  | .cjmpnz target => do
    let (v, s) ← vstackPop im s
    return (s, if unbox v ≠ 0 then some (some target) else none)
  | .end_ | .ret => do
    let (s, returnIp) ← cstackEnd im s
    return (s, some returnIp)
  | .callc returnIp argsCount => do
    let closure ← vstackKthFromEnd im s (toSize argsCount)
    let entry ← loadWord im s (← derefPtr closure)
    let s ← cstackCall im s returnIp (toSize argsCount) true
    return (s, some (some entry.toInt))
  | .call returnIp offset argsCount => do
    let s ← cstackCall im s returnIp (toSize argsCount) false
    return (s, some (some offset))
  | inst => do
    match ← allocRequest im e f s inst with
    | some request => do
      let (r, s) ← allocObject im e request
      let s ← afterAlloc im e f r s inst
      return (s, none)
    | none => do
      let s ← execPlain im e f s inst
      return (s, none)

/-- One turn of the loop of `interprete`. -/
def step (im : Image) (f : Bytefile) (e : Env) (s : State) : Except Stop State :=
  match s.ip with
  | none => .error .exit
  | some ip => do
    let (inst, next) ← readInst f ip
    let (s, jump) ← exec im e f s inst
    return { s with ip := jump.getD (some next) }

/-- `interprete` up to its loop: `__init` maps the heap at `heapBegin`, static storage is zero. -/
def interpreteInit (im : Image) (f : Bytefile) (heapBegin : ℕ) (ip : ℤ) : Except Stop State := do
  let count := toSize f.globalAreaSize
  ensure (vstackSize ≥ count) (.fail "Cannot allocate memory for globals" [])
  let top := ptrAdd (im.bottom - 1) (-count)
  return {
    ip := some ip
    top
    globalsCount := count
    cstack := fun i =>
      if i = cstackSize - 1 then ⟨none, false, top, 0, 0⟩ else ⟨none, false, 0, 0, 0⟩
    ctop := cstackSize - 1
    mem :=
      { ram := fun _ => 0
        heap :=
          { begin := heapBegin, end_ := heapBegin + minimumHeapCapacity, current := heapBegin
            size := minimumHeapCapacity, words := fun _ => 0 } }
    out := [] }

end Lama

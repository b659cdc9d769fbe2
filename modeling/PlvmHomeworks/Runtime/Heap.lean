import Mathlib.Algebra.Group.Int.Defs
import Mathlib.Algebra.Group.Nat.Defs
import Mathlib.Data.Int.Notation
import Mathlib.Data.Nat.Notation

/-! Words, object headers and the heap of the runtime: `runtime_common.h`, the macros of `gc.h` and
    the object functions of `gc.c` (release build: no `id` in a header).

    Every pointer of the collector is word-aligned, so an address is counted in words; a word that
    holds the pointer `p` holds `4 * p`. A header is two words (`data_header`, `forward_address`),
    and the content address is the one after them. The heap's words are indexed from `heap.begin`,
    so that moving the heap leaves them alone. `none` is an access outside the heap, a misaligned
    header, or the `kill(getpid(), SIGSEGV)` of an unknown header tag. -/

namespace Lama

/-- `size_t`, `int` and pointers of the `-m32` build. -/
abbrev Word := BitVec 32

/-- `UNBOXED`. -/
def unboxed (x : Word) : Bool := x &&& 1 == 1

/-- `UNBOX`: an arithmetic shift. -/
def unbox (x : Word) : Word := x.sshiftRight 1

/-- `BOX`. -/
def box (x : Word) : Word := x <<< 1 ||| 1

/-- `LEN` and `TAG` of a `data_header`. -/
def lenOf (x : Word) : ℕ := ((x &&& 0xFFFFFFF8) >>> 3).toNat
def tagOf (x : Word) : Word := x &&& 7

def stringTag : Word := 1
def arrayTag : Word := 3
def sexpTag : Word := 5
def closureTag : Word := 7

/-- The word that holds a pointer to word address `p`. -/
def ptr (p : ℕ) : Word := BitVec.ofNat 32 (4 * p)

/-- The word address a pointer points to, when it is aligned. -/
def aligned (x : Word) : Option ℕ := if x.toNat % 4 = 0 then some (x.toNat / 4) else none

/-- `BYTES_TO_WORDS`, in `size_t`. -/
def bytesToWords (bytes : ℕ) : ℕ := (bytes + (2 ^ 32 - 1)) % 2 ^ 32 / 4 + 1

/-! ### The bits of a forward-address word -/

/-- `GET_MARK_BIT`, `SET_MARK_BIT`, `RESET_MARK_BIT`. -/
def getMarkBit (x : Word) : Bool := x &&& 1 == 1
def setMarkBit (x : Word) : Word := x ||| 1
def resetMarkBit (x : Word) : Word := x &&& ~~~1

/-- `IS_ENQUEUED`, `MAKE_ENQUEUED`, `MAKE_DEQUEUED`. -/
def isEnqueuedBit (x : Word) : Bool := x &&& 2 != 0
def makeEnqueuedBit (x : Word) : Word := x ||| 2
def makeDequeuedBit (x : Word) : Word := x &&& ~~~2

/-- `GET_FORWARD_ADDRESS`, `SET_FORWARD_ADDRESS`. -/
def getForwardBits (x : Word) : Word := x &&& ~~~3
def setForwardBits (x addr : Word) : Word := x &&& 3 ||| addr

/-! ### The heap -/

/-- `memory_chunk`, and the words it spans from `begin`. -/
structure MemoryChunk where
  begin : ℕ
  end_ : ℕ
  current : ℕ
  size : ℕ
  words : ℕ → Word

def MemoryChunk.load (h : MemoryChunk) (a : ℕ) : Option Word :=
  if h.begin ≤ a ∧ a < h.end_ then some (h.words (a - h.begin)) else none

def MemoryChunk.store (h : MemoryChunk) (a : ℕ) (v : Word) : Option MemoryChunk :=
  if h.begin ≤ a ∧ a < h.end_ then
    some { h with words := fun k => if k = a - h.begin then v else h.words k }
  else none

/-- `is_valid_pointer` and `is_valid_heap_pointer`; the upper bound is included. -/
def isValidPointer (p : Word) : Bool := !unboxed p

def isValidHeapPointer (h : MemoryChunk) (p : Word) : Bool :=
  !unboxed p && decide (4 * h.begin ≤ p.toNat) && decide (p.toNat ≤ 4 * h.current)

/-- `lama_type`. -/
inductive LamaType where
  | array | closure | string | sexp
  deriving DecidableEq, Repr

def LamaType.ofTag (tag : Word) : Option LamaType :=
  if tag = arrayTag then some .array
  else if tag = stringTag then some .string
  else if tag = closureTag then some .closure
  else if tag = sexpTag then some .sexp
  else none

/-- The tag of a type. -/
def LamaType.tag : LamaType → Word
  | .array => arrayTag
  | .closure => closureTag
  | .string => stringTag
  | .sexp => sexpTag

/-- `get_header_size`, in words: the same for every type. -/
def headerSize : ℕ := 2

/-- `array_size`, `string_size`, `closure_size`, `sexp_size`, in bytes. -/
def objBytes (type : LamaType) (len : ℕ) : ℕ :=
  match type with
  | .array => 8 + 4 * len
  | .string => 8 + len + 1
  | .closure => 8 + 4 * len
  | .sexp => 8 + 4 * (len + 1)

/-- The `data_header` of a new object: `X_TAG | (len << 3)`. -/
def headerWord (type : LamaType) (len : ℕ) : Word := type.tag ||| BitVec.ofNat 32 len <<< 3

/-- `get_type_header_ptr`. -/
def getTypeHeaderPtr (h : MemoryChunk) (header : ℕ) : Option LamaType := do
  LamaType.ofTag (tagOf (← h.load header))

/-- `obj_size_header_ptr`, in bytes. -/
def objSizeHeaderPtr (h : MemoryChunk) (header : ℕ) : Option ℕ := do
  let type ← getTypeHeaderPtr h header
  return objBytes type (lenOf (← h.load header))

/-- `get_object_content_ptr`. -/
def getObjectContentPtr (h : MemoryChunk) (header : ℕ) : Option ℕ := do
  let _ ← getTypeHeaderPtr h header
  return header + headerSize

/-- `get_obj_header_ptr`: `TO_DATA` of a content address, once its type is known. -/
def getObjHeaderPtr (h : MemoryChunk) (content : ℕ) : Option ℕ := do
  let _ ← getTypeHeaderPtr h (content - headerSize)
  return content - headerSize

/-- `get_end_of_obj`, rounded up to a word: only a string has a partial last word. -/
def getEndOfObj (h : MemoryChunk) (header : ℕ) : Option ℕ := do
  return header + bytesToWords (← objSizeHeaderPtr h header)

/-- The forward-address word of the object with this content address. -/
def forwardWord (h : MemoryChunk) (content : ℕ) : Option Word := h.load (content - 1)

/-- Rewrite the forward-address word of an object. -/
def mapForward (g : Word → Word) (h : MemoryChunk) (content : ℕ) : Option MemoryChunk := do
  h.store (content - 1) (g (← forwardWord h content))

/-- `is_marked`, `is_enqueued`, `get_forward_address`. -/
def isMarked (h : MemoryChunk) (content : ℕ) : Option Bool :=
  (forwardWord h content).map getMarkBit
def isEnqueued (h : MemoryChunk) (content : ℕ) : Option Bool :=
  (forwardWord h content).map isEnqueuedBit
def getForwardAddress (h : MemoryChunk) (content : ℕ) : Option Word :=
  (forwardWord h content).map getForwardBits

/-- `set_forward_address`, `mark_object`, `unmark_object`, `make_enqueued`, `make_dequeued`. -/
def setForwardAddress (h : MemoryChunk) (content : ℕ) (addr : Word) : Option MemoryChunk :=
  mapForward (setForwardBits · addr) h content
def markObject (h : MemoryChunk) (content : ℕ) : Option MemoryChunk := mapForward setMarkBit h content
def unmarkObject (h : MemoryChunk) (content : ℕ) : Option MemoryChunk :=
  mapForward resetMarkBit h content
def makeEnqueued (h : MemoryChunk) (content : ℕ) : Option MemoryChunk :=
  mapForward makeEnqueuedBit h content
def makeDequeued (h : MemoryChunk) (content : ℕ) : Option MemoryChunk :=
  mapForward makeDequeuedBit h content

/-! ### Iterators -/

/-- `heap_next_obj_iterator` and `heap_is_done_iterator`; an iterator is its `current`. -/
def heapNextObj (h : MemoryChunk) (it : ℕ) : Option ℕ := do
  return it + bytesToWords (← objSizeHeaderPtr h it)
def heapIsDone (h : MemoryChunk) (it : ℕ) : Bool := decide (it ≥ h.current)

/-- `obj_field_iterator`. -/
structure ObjFieldIterator where
  type : LamaType
  objPtr : ℕ
  curField : ℕ

/-- `field_begin_iterator`. -/
def fieldBeginIterator (h : MemoryChunk) (obj : ℕ) : Option ObjFieldIterator := do
  let type ← getTypeHeaderPtr h obj
  let content ← getObjectContentPtr h obj
  match type with
  | .string => return ⟨type, obj, ← getEndOfObj h obj⟩
  | .closure | .sexp => return ⟨type, obj, content + 1⟩
  | .array => return ⟨type, obj, content⟩

/-- `field_is_done_iterator`. -/
def fieldIsDone (h : MemoryChunk) (it : ObjFieldIterator) : Option Bool := do
  return decide (it.curField ≥ (← getEndOfObj h it.objPtr))

/-- `obj_next_field_iterator`. -/
def objNextField (it : ObjFieldIterator) : ObjFieldIterator := { it with curField := it.curField + 1 }

/-- `obj_next_ptr_field_iterator`: a `do ... while` loop. -/
def objNextPtrField (h : MemoryChunk) : ℕ → ObjFieldIterator → Option ObjFieldIterator
  | 0, _ => none
  | fuel + 1, it => do
    let it := objNextField it
    if ← fieldIsDone h it then return it
    if isValidPointer (← h.load it.curField) then return it
    objNextPtrField h fuel it

/-- More turns than any loop over the words or the objects of the heap takes. -/
def MemoryChunk.fuel (h : MemoryChunk) : ℕ := h.size + 1

/-- `ptr_field_begin_iterator`. -/
def ptrFieldBeginIterator (h : MemoryChunk) (obj : ℕ) : Option ObjFieldIterator := do
  let it ← fieldBeginIterator h obj
  if ← fieldIsDone h it then return it
  if isValidPointer (← h.load it.curField) then return it
  objNextPtrField h h.fuel it

/-- A `for` loop from `ptr_field_begin_iterator`, with the heap inside the loop's state `σ`. -/
def ptrFieldLoop {σ : Type} (heap : σ → MemoryChunk) (body : σ → ℕ → Option σ) :
    ℕ → ObjFieldIterator → σ → Option σ
  | 0, _, _ => none
  | fuel + 1, it, s => do
    if ← fieldIsDone (heap s) it then return s
    let s ← body s it.curField
    let it ← objNextPtrField (heap s) (heap s).fuel it
    ptrFieldLoop heap body fuel it s

/-- Visit the pointer fields of the object with this header. -/
def forPtrFields {σ : Type} (heap : σ → MemoryChunk) (body : σ → ℕ → Option σ) (header : ℕ) (s : σ) :
    Option σ := do
  let it ← ptrFieldBeginIterator (heap s) header
  ptrFieldLoop heap body (heap s).fuel it s

end Lama

import PlvmHomeworks.Tools.Binops
import PlvmHomeworks.Tools.Operands

/-! What a bytecode program means, without a stack of words and without a collector.

    A value is an integer of 31 bits, the `0` that `WRITE` and an unset global leave, or a reference to
    an object of a store that only grows. A routine that runs has its arguments, its locals and its
    operands. What the program must not do has no step: read a local that was not set, take an operand
    that is not there, look for a field that an object does not have. Addresses of variables (`LDA`,
    `STI`), strings and `Lstring` are left out. -/

namespace Lama
open Outcome

inductive Val where
  | int (n : ℤ)
  | null
  | ref (id : ℕ)
  deriving DecidableEq

/-- An S-expression with the hash of its tag, an array, a closure with its entry. -/
inductive Kind where
  | sexp (hash : Word)
  | array
  | closure (entry : ℤ)
  deriving DecidableEq

structure Obj where
  kind : Kind
  fields : List Val
  deriving DecidableEq

/-- A running routine. The operands start with the last one pushed; there are no locals before the
    prologue, and those that were not set are `none`. -/
structure Routine where
  returnIp : Option ℤ
  closure : Option Val
  args : List Val
  locals : Option (List (Option Val))
  operands : List Val
  deriving DecidableEq

/-- The innermost routine is the first one. -/
structure Vm where
  ip : Option ℤ
  globals : List Val
  routines : List Routine
  store : List Obj
  out : List ℤ
  deriving DecidableEq

/-! ### Values -/

def Val.ofBool (b : Bool) : Val := .int (if b then 1 else 0)

/-- What `CJMPZ` takes for zero. -/
def Val.isZero : Val → Bool
  | .int n => n == 0
  | .null => true
  | .ref _ => false

/-- The integer that a value is. -/
def Val.toInt? : Val → Option ℤ
  | .int n => some n
  | _ => none

/-- `LEN`; the entry of a closure counts. -/
def Obj.len (o : Obj) : ℕ :=
  match o.kind with
  | .closure _ => o.fields.length + 1
  | _ => o.fields.length

def Obj.type (o : Obj) : LamaType :=
  match o.kind with
  | .sexp _ => .sexp
  | .array => .array
  | .closure _ => .closure

/-- Whether `TAG` accepts the object. -/
def Obj.isSexp (o : Obj) (hash : Word) (n : ℕ) : Bool :=
  match o.kind with
  | .sexp hash' => hash' == hash && o.fields.length == n
  | _ => false

/-- Whether `ARRAY` accepts the object. -/
def Obj.isArray (o : Obj) (n : ℕ) : Bool :=
  match o.kind with
  | .array => o.fields.length == n
  | _ => false

/-- The type that a pattern asks for. -/
def Pattern.type : Pattern → Option LamaType
  | .stringTag => some .string
  | .arrayTag => some .array
  | .sexpTag => some .sexp
  | .closureTag => some .closure
  | _ => none

/-! ### Variables -/

def LocationEntry.slot (l : LocationEntry) : Option ℕ :=
  if 0 ≤ l.index then some l.index.toNat else none

/-- The object that a value refers to, in the store. -/
def Vm.object (vm : Vm) : Val → Option (ℕ × Obj)
  | .ref id => do return (id, ← vm.store[id]?)
  | _ => none

/-- The closure that the routine runs. -/
def Vm.closureOf (vm : Vm) (r : Routine) : Option (ℕ × Obj) := do
  let (id, o) ← vm.object (← r.closure)
  guard (o.type = .closure)
  return (id, o)

/-- `LD`. -/
def Vm.load (vm : Vm) (r : Routine) (l : LocationEntry) : Option Val := do
  let i ← l.slot
  match ← l.location with
  | .global => vm.globals[i]?
  | .local_ => (← (← r.locals)[i]?)
  | .arg => r.args[i]?
  | .captured => (← vm.closureOf r).2.fields[i]?

/-- The machine at `ip`, in this routine. -/
def Vm.go (vm : Vm) (ip : ℤ) (r : Routine) (rest : List Routine) : Vm :=
  { vm with ip := some ip, routines := r :: rest }

def Obj.set (o : Obj) (i : ℕ) (v : Val) : Obj := { o with fields := o.fields.set i v }

/-- The machine with another value in a field of the object `id`. -/
def Vm.setField (vm : Vm) (id : ℕ) (o : Obj) (i : ℕ) (v : Val) : Vm :=
  { vm with store := vm.store.set id (o.set i v) }

/-- `ST`. -/
def Vm.assign (vm : Vm) (ip : ℤ) (r : Routine) (rest : List Routine) (l : LocationEntry) (v : Val) :
    Option Vm := do
  let i ← l.slot
  match ← l.location with
  | .global => do
    guard (i < vm.globals.length)
    return ({ vm with globals := vm.globals.set i v } : Vm).go ip r rest
  | .local_ => do
    let locals ← r.locals
    guard (i < locals.length)
    return vm.go ip { r with locals := some (locals.set i (some v)) } rest
  | .arg => do
    guard (i < r.args.length)
    return vm.go ip { r with args := r.args.set i v } rest
  | .captured => do
    let (id, o) ← vm.closureOf r
    guard (i < o.fields.length)
    return (vm.setField id o i v).go ip r rest

/-! ### Steps -/

/-- The last `n` operands, in the order they were pushed. -/
def Routine.top (r : Routine) (n : ℕ) : Option (List Val) :=
  if n ≤ r.operands.length then some (r.operands.take n).reverse else none

/-- The last `n` operands make way for these, the last of which is on top then. -/
def Routine.replace (r : Routine) (n : ℕ) (vs : List Val) : Routine :=
  { r with operands := vs.reverse ++ r.operands.drop n }

/-- Whether a value is an object that is accepted. -/
def Vm.answer (vm : Vm) (accepts : Obj → Bool) : Val → Option Bool
  | .int _ => some false
  | v => do return accepts (← vm.object v).2

/-- The instructions that do nothing but replace operands. -/
def Vm.compute (f : Bytefile) (input : ℤ) (vm : Vm) (r : Routine) : Inst → List Val → Option (List Val)
  | .const value, [] => some [.int (wrap31 value)]
  | .drop, [_] => some []
  | .dup, [v] => some [v, v]
  | .swap, [v, w] => some [w, v]
  | .binop op, [.int x, .int y] => do
    let n ← op.exact x y
    guard (-2 ^ 31 ≤ n ∧ n < 2 ^ 31)
    return [.int (wrap31 n)]
  | .ld l, [] => do return [← vm.load r l]
  | .elem, [p, .int i] => do
    let (_, o) ← vm.object p
    guard (0 ≤ i ∧ o.type ≠ .closure)
    return [← o.fields[i.toNat]?]
  | .tag pos n, [v] => do
    guard (0 ≤ n ∧ n < 2 ^ 30)
    let hash ← (tagHash (← cString f pos)).toOption
    return [.ofBool (← vm.answer (fun o => o.isSexp hash n.toNat) v)]
  | .array n, [v] => do
    guard (0 ≤ n ∧ n < 2 ^ 30)
    return [.ofBool (← vm.answer (fun o => o.isArray n.toNat) v)]
  | .patt .boxed, [v] => some [.ofBool v.toInt?.isNone]
  | .patt .unboxed, [v] => some [.ofBool v.toInt?.isSome]
  | .patt pattern, [v] => do
    let type ← pattern.type
    return [.ofBool (← vm.answer (fun o => o.type = type) v)]
  | .llength, [v] => do return [.int (← vm.object v).2.len]
  | .lread, [] => some [.int (wrap31 input)]
  | .line _, [] => some []
  | _, _ => none

/-- A new object, in place of `n` operands. -/
def Vm.build (vm : Vm) (ip : ℤ) (r : Routine) (n : ℕ) (rest : List Routine) (o : Obj) : Vm :=
  ({ vm with store := vm.store ++ [o] } : Vm).go ip (r.replace n [.ref vm.store.length]) rest

/-- A call of the routine at `target`, which takes `n` operands. -/
def Vm.enter (vm : Vm) (target returnIp : ℤ) (closure : Option Val) (args : List Val) (r : Routine) (n : ℕ)
    (rest : List Routine) : Vm :=
  vm.go target ⟨some returnIp, closure, args, none, []⟩ (r.replace n [] :: rest)

/-- The end of a routine. -/
def Vm.leave (vm : Vm) (r : Routine) (v : Val) : List Routine → Vm
  | [] => { vm with ip := r.returnIp, routines := [] }
  | caller :: rest => { vm with ip := r.returnIp, routines := caller.replace 0 [v] :: rest }

/-- One instruction of the routine `r`, with `next` behind it. -/
def Vm.exec (f : Bytefile) (input next : ℤ) (vm : Vm) (r : Routine) (rest : List Routine) :
    Inst → Option Vm
  | .st l => do vm.assign next r rest l (← r.operands.head?)
  | .sta => do
    match ← r.top 3 with
    | [p, .int i, v] => do
      let (id, o) ← vm.object p
      guard (0 ≤ i ∧ i.toNat < o.fields.length ∧ o.type ≠ .closure)
      return (vm.setField id o i.toNat v).go next (r.replace 3 [v]) rest
    | _ => none
  | .jmp target => some (vm.go target r rest)
  | .cjmpz target => do
    let v ← r.operands.head?
    return vm.go (if v.isZero then target else next) (r.replace 1 []) rest
  | .cjmpnz target => do
    let v ← r.operands.head?
    return vm.go (if v.isZero then next else target) (r.replace 1 []) rest
  | .begin _ locc | .cbegin _ locc => do
    guard (0 ≤ locc ∧ r.locals = none ∧ r.operands = [])
    return vm.go next { r with locals := some (List.replicate locc.toNat none) } rest
  | .call returnIp offset argc => do
    guard (0 ≤ argc)
    return vm.enter offset returnIp none (← r.top argc.toNat) r argc.toNat rest
  | .callc returnIp argc => do
    guard (0 ≤ argc)
    let c ← r.operands[argc.toNat]?
    let (_, ⟨.closure entry, _⟩) ← vm.object c | none
    return vm.enter entry returnIp (some c) (← r.top argc.toNat) r (argc.toNat + 1) rest
  | .end_ | .ret => do return vm.leave r (← r.operands.head?) rest
  | .sexp pos n => do
    guard (0 ≤ n)
    let hash ← (tagHash (← cString f pos)).toOption
    return vm.build next r n.toNat rest ⟨.sexp hash, ← r.top n.toNat⟩
  | .barray n => do
    guard (0 ≤ n)
    return vm.build next r n.toNat rest ⟨.array, ← r.top n.toNat⟩
  | .closure entry ls => do return vm.build next r 0 rest ⟨.closure entry, ← ls.mapM (vm.load r)⟩
  | .lwrite => do
    let n ← (← r.operands.head?).toInt?
    return ({ vm with out := vm.out ++ [n] } : Vm).go next (r.replace 1 [.null]) rest
  | inst => do
    let vs ← vm.compute f input r inst (← r.top inst.needs)
    return vm.go next (r.replace inst.needs vs) rest

/-- One turn. -/
def Vm.step (f : Bytefile) (input : ℤ) (vm : Vm) : Option Vm := do
  let ip ← vm.ip
  let (inst, next) ← (readInst f ip).toOption
  match vm.routines with
  | [] => none
  | r :: rest => vm.exec f input next r rest inst

/-- The turns that take these inputs. -/
def Vm.run (f : Bytefile) : List ℤ → Vm → Option Vm
  | [], vm => some vm
  | input :: inputs, vm => do Vm.run f inputs (← vm.step f input)

/-- The machine in front of the main routine. -/
def Vm.init (globals : ℕ) (ip : ℤ) : Vm :=
  ⟨some ip, List.replicate globals .null, [⟨none, none, [], none, []⟩], [], []⟩

end Lama

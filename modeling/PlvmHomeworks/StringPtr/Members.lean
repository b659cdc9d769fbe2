import Mathlib.Logic.Function.Basic
import PlvmHomeworks.Lib.Events
import PlvmHomeworks.StringPtr.CString

/-! StringPtr: pointers that share a CString, and what their special members do to it.

    Every CString has a number of its own, which is not used again after it is deleted. To use a
    deleted CString or to delete it again is a fault, and so is an exception of dec_ref_count. -/

namespace StringPtr

/-- Where a StringPtr lives: a variable of the program, or the local variable of an assignment. -/
inductive Place
  | var (n : ℕ)
  | sptr
  deriving DecidableEq

/-- nullString is a global variable. -/
def nullString : ℕ := 0

/-- The CStrings that exist, the number of the next one, the CString that each live StringPtr points
    to, and the CStrings that have been deleted, in order. -/
structure State where
  strings : ℕ → Option CString
  next : ℕ
  cstr : Place → Option ℕ
  deleted : List ℕ

variable (L : ℕ)

def init : State where
  strings := Function.update (fun _ => none) nullString (some (CString.construct L none))
  next := 1
  cstr := fun _ => none
  deleted := []

namespace State
variable (s : State)

def store (this : Place) (c : Option ℕ) : State := { s with cstr := Function.update s.cstr this c }

def load (this : Place) : Except Fault ℕ := Outcome.orStop (s.cstr this) .deadObject

def put (c : ℕ) (x : CString) : State :=
  { s with strings := Function.update s.strings c (some x) }

def deref (c : ℕ) : Except Fault CString := Outcome.orStop (s.strings c) .usedAfterFree

def incRefCount (c : ℕ) : Except Fault State := do
  let x ← s.deref c
  return s.put c (x.incRefCount L)

def decRefCount (c : ℕ) : Except Fault State := do
  let x ← s.deref c
  return s.put c (← x.decRefCount L)

/-- delete -/
def delete (c : ℕ) : Except Fault State := do
  let _ ← Outcome.orStop (s.strings c) .freedTwice
  return { s with strings := Function.update s.strings c none, deleted := s.deleted ++ [c] }

/-- What the destructor and the move assignment do with the CString that they let go. -/
def release (c : ℕ) : Except Fault State := do
  let x ← s.deref c
  if x.refCount L = 0 then s.delete c else s.decRefCount L c

/-- new CString(str) -/
def newCString (str : Option Word) : State :=
  { s with
    strings := Function.update s.strings s.next (some (CString.construct L str))
    next := s.next + 1 }

section
variable {s} {c d : ℕ} {x : CString}

theorem put_self : (s.put c x).strings c = some x := Function.update_self ..

theorem put_of_ne (h : d ≠ c) : (s.put c x).strings d = s.strings d := Function.update_of_ne h ..

theorem put_eq_self (h : s.strings c = some x) : s.put c x = s := by
  rw [put, ← h, Function.update_eq_self]

theorem incRefCount_eq (h : s.strings c = some x) :
    s.incRefCount L c = .ok (s.put c (x.incRefCount L)) := by
  simp [incRefCount, deref, Outcome.orStop, h]

theorem decRefCount_eq {y : CString} (h : s.strings c = some x) (hy : x.decRefCount L = .ok y) :
    s.decRefCount L c = .ok (s.put c y) := by
  simp [decRefCount, deref, Outcome.orStop, h, hy]

theorem delete_eq (h : s.strings c = some x) : s.delete c =
    .ok { s with strings := Function.update s.strings c none, deleted := s.deleted ++ [c] } := by
  simp [delete, Outcome.orStop, h]

theorem release_eq (h : s.strings c = some x) :
    s.release L c = if x.refCount L = 0 then s.delete c else s.decRefCount L c := by
  simp [release, deref, Outcome.orStop, h]

theorem load_eq {this : Place} (h : s.cstr this = some c) : s.load this = .ok c := by
  simp [load, Outcome.orStop, h]

end

end State

section
variable (this other : Place) (str : Option Word) (s : State)

def construct : State := s.store this (some nullString)

def constructFrom : State := (s.newCString L str).store this (some s.next)

def copyConstruct : Except Fault State := do
  let cstr ← s.load other
  (s.store this (some cstr)).incRefCount L cstr

def moveConstruct : Except Fault State := do
  let cstr ← s.load other
  return (s.store this (some cstr)).store other (some nullString)

def destroy : Except Fault State := do
  let s ← s.release L (← s.load this)
  return s.store this none

/-- std::swap(this->cstr, sptr.cstr) -/
def swap : Except Fault State := do
  let cstr ← s.load this
  let cstr' ← s.load .sptr
  return (s.store this (some cstr')).store .sptr (some cstr)

def copyAssign : Except Fault State :=
  if this = other then .ok s
  else do
    let s ← copyConstruct L .sptr other s
    let s ← swap this s
    destroy L .sptr s

def moveAssign : Except Fault State :=
  if this = other then .ok s
  else do
    let s ← s.release L (← s.load this)
    let cstr ← s.load other
    return (s.store this (some cstr)).store other (some nullString)

def assign : Except Fault State := do
  let s ← swap this (constructFrom L .sptr str s)
  destroy L .sptr s

end

/-- The operations on the variables of a program. The string of a construction or an assignment comes
    with the block that aligned_alloc returns for it; none is nullptr. -/
inductive Op
  | construct (this : ℕ)
  | constructFrom (this : ℕ) (str : Option Word)
  | copyConstruct (this other : ℕ)
  | moveConstruct (this other : ℕ)
  | copyAssign (this other : ℕ)
  | moveAssign (this other : ℕ)
  | assign (this : ℕ) (str : Option Word)
  | destroy (this : ℕ)

/-- aligned_alloc returns an address with the alignment that it is asked for. -/
def Aligned (str : Option Word) : Prop := ∀ block, str = some block → block &&& REF_COUNTER_MASK L = 0

instance (str : Option Word) : Decidable (Aligned L str) :=
  match str with
  | none => .isTrue fun _ h => nomatch h
  | some block => decidable_of_iff (block &&& REF_COUNTER_MASK L = 0)
      ⟨fun h _ heq => Option.some.inj heq ▸ h, fun h => h block rfl⟩

/-- A constructor is called where no StringPtr lives, all other members on one that does. -/
def Op.Enabled (s : State) : Op → Prop
  | .construct n => s.cstr (.var n) = none
  | .constructFrom n str => s.cstr (.var n) = none ∧ Aligned L str
  | .copyConstruct n m | .moveConstruct n m => s.cstr (.var n) = none ∧ s.cstr (.var m) ≠ none
  | .copyAssign n m | .moveAssign n m => s.cstr (.var n) ≠ none ∧ s.cstr (.var m) ≠ none
  | .assign n str => s.cstr (.var n) ≠ none ∧ Aligned L str
  | .destroy n => s.cstr (.var n) ≠ none

instance (s : State) (o : Op) : Decidable (o.Enabled L s) := by
  cases o <;> unfold Op.Enabled <;> infer_instance

def Op.run (s : State) : Op → Except Fault State
  | .construct n => .ok (StringPtr.construct (.var n) s)
  | .constructFrom n str => .ok (StringPtr.constructFrom L (.var n) str s)
  | .copyConstruct n m => StringPtr.copyConstruct L (.var n) (.var m) s
  | .moveConstruct n m => StringPtr.moveConstruct (.var n) (.var m) s
  | .copyAssign n m => StringPtr.copyAssign L (.var n) (.var m) s
  | .moveAssign n m => StringPtr.moveAssign L (.var n) (.var m) s
  | .assign n str => StringPtr.assign L (.var n) str s
  | .destroy n => StringPtr.destroy L (.var n) s

/-- A run goes on until an operation ends in a fault. -/
def step : Except Fault State → Op → Option (Except Fault State)
  | .ok s, o => if o.Enabled L s then some (o.run L s) else none
  | .error _, _ => none

end StringPtr

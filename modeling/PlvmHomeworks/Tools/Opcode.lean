import Mathlib.Algebra.Group.Int.Defs
import Mathlib.Algebra.Group.Nat.Defs
import Mathlib.Data.Int.Notation
import Mathlib.Data.Nat.Notation

/-! The opcode tables of `opcode.h`, and an instruction as `read_inst` hands it to a functor.

    An `Inst` is the functor application that `InstReader::read_inst` makes for the bytes at an
    address: the template arguments (the opcode) and the call arguments (the operands). Some bytes
    are read without any functor being applied; they are `noFunctor`. -/

namespace Lama

/-- `enum Binop` (`BINOPS`). -/
inductive Binop where
  | add | sub | mul | div | rem
  | lessThan | lessEqual | greaterThan | greaterEqual | equal | notEqual | and | or
  deriving DecidableEq, Repr

/-- The cases that `BINOPS` generates over the low nibble. -/
def Binop.ofNibble : ℕ → Option Binop
  | 1 => some .add
  | 2 => some .sub
  | 3 => some .mul
  | 4 => some .div
  | 5 => some .rem
  | 6 => some .lessThan
  | 7 => some .lessEqual
  | 8 => some .greaterThan
  | 9 => some .greaterEqual
  | 10 => some .equal
  | 11 => some .notEqual
  | 12 => some .and
  | 13 => some .or
  | _ => none

/-- `enum Location` (`LOCATIONS`). -/
inductive Location where
  | global | local_ | arg | captured
  deriving DecidableEq, Repr

def Location.ofNibble : ℕ → Option Location
  | 0 => some .global
  | 1 => some .local_
  | 2 => some .arg
  | 3 => some .captured
  | _ => none

/-- `LocationEntry`. The kind is the raw byte cast to `Location`; nothing checks that it is one. -/
structure LocationEntry where
  kind : ℕ
  index : ℤ
  deriving DecidableEq, Repr

/-- The enumerator a `switch` over `location.kind` sees. -/
def LocationEntry.location (l : LocationEntry) : Option Location := Location.ofNibble l.kind

/-- `enum Pattern` (`PATTERNS`). -/
inductive Pattern where
  | string | stringTag | arrayTag | sexpTag | boxed | unboxed | closureTag
  deriving DecidableEq, Repr

def Pattern.ofNibble : ℕ → Option Pattern
  | 0 => some .string
  | 1 => some .stringTag
  | 2 => some .arrayTag
  | 3 => some .sexpTag
  | 4 => some .boxed
  | 5 => some .unboxed
  | 6 => some .closureTag
  | _ => none

/-- One application of a functor by `read_inst`. A string operand is its position in the string
    table, checked by `get_string`; `CALLC` and `CALL` also get the address after themselves. -/
inductive Inst where
  | const (value : ℤ)
  | string (pos : ℤ)
  | sexp (pos argc : ℤ)
  | sti
  | sta
  | jmp (target : ℤ)
  | end_
  | ret
  | drop
  | dup
  | swap
  | elem
  | cjmpz (target : ℤ)
  | cjmpnz (target : ℤ)
  | begin (argc locc : ℤ)
  | cbegin (argc locc : ℤ)
  | closure (entry : ℤ) (captured : List LocationEntry)
  | callc (ip argc : ℤ)
  | call (ip offset argc : ℤ)
  | tag (pos argc : ℤ)
  | array (size : ℤ)
  | fail (line col : ℤ)
  | line (line : ℤ)
  | binop (op : Binop)
  | ld (location : LocationEntry)
  | lda (location : LocationEntry)
  | st (location : LocationEntry)
  | patt (pattern : Pattern)
  | lread
  | lwrite
  | llength
  | lstring
  | barray (n : ℤ)
  | stop
  | noFunctor
  deriving DecidableEq, Repr

/-- `BEGIN` or `CBEGIN`. -/
def Inst.isPrologue : Inst → Bool
  | .begin _ _ | .cbegin _ _ => true
  | _ => false

/-- The target of a jump instruction. -/
def Inst.jumpTargets : Inst → List ℤ
  | .jmp target | .cjmpz target | .cjmpnz target => [target]
  | _ => []

/-- The opcode bytes the verifier looks at without decoding the instruction. -/
def opcodeEnd : ℕ := 22
def opcodeBegin : ℕ := 82
def opcodeCBegin : ℕ := 83
def opcodeCall : ℕ := 86

end Lama

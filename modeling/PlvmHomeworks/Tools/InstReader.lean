import PlvmHomeworks.Tools.Bytefile

/-! `InstReader::read_inst`: the decoder.

    An instruction pointer is its offset from `file->code_ptr`. `readInst` returns the functor
    application and the address after the instruction; every template functor of the tools is then a
    function of `Inst`, so that one decoder serves them all as in the source. -/

namespace Lama
open Outcome

/-- `assert_can_read`. -/
def assertCanRead (f : Bytefile) (ip bytes : ℤ) : Except Stop Unit := do
  ensure (0 ≤ ip) (.fail "ip is out of code section" [])
  ensure (sizeofBytefile + f.codePtr + ip + bytes ≤ f.size)
    (.fail "ip is out of code section" [])

/-- `read_byte`: the byte at `ip` and the address after it. -/
def readByte (f : Bytefile) (ip : ℤ) : Except Stop (ℕ × ℤ) := do
  assertCanRead f ip 1
  let b ← orStop (f.codeByte ip) (.undefined "read_byte")
  return (b.toNat, ip + 1)

/-- `read_int`. -/
def readInt (f : Bytefile) (ip : ℤ) : Except Stop (ℤ × ℤ) := do
  assertCanRead f ip 4
  let n ← orStop (f.bufferInt (f.codePtr + ip)) (.undefined "read_int")
  return (n, ip + 4)

/-- `read_string`. -/
def readString (f : Bytefile) (ip : ℤ) : Except Stop (ℤ × ℤ) := do
  let (pos, ip) ← readInt f ip
  let s ← getString f pos
  return (s, ip)

/-- `read_loc`. -/
def readLoc (f : Bytefile) (ip : ℤ) : Except Stop (LocationEntry × ℤ) := do
  let (kind, ip) ← readByte f ip
  let (index, ip) ← readInt f ip
  return (⟨kind, index⟩, ip)

/-- The loop that reads the captured locations of `CLOSURE`. -/
def readLocs (f : Bytefile) : ℕ → ℤ → Except Stop (List LocationEntry × ℤ)
  | 0, ip => .ok ([], ip)
  | n + 1, ip => do
    let (l, ip) ← readLoc f ip
    let (ls, ip) ← readLocs f n ip
    return (l :: ls, ip)

/-- One `int` operand. -/
def readInst1 (f : Bytefile) (ip : ℤ) (k : ℤ → Inst) : Except Stop (Inst × ℤ) := do
  let (a, ip) ← readInt f ip
  return (k a, ip)

/-- Two `int` operands. -/
def readInst2 (f : Bytefile) (ip : ℤ) (k : ℤ → ℤ → Inst) : Except Stop (Inst × ℤ) := do
  let (a, ip) ← readInt f ip
  let (b, ip) ← readInt f ip
  return (k a b, ip)

/-- A string operand and an `int` operand. -/
def readInstS (f : Bytefile) (ip : ℤ) (k : ℤ → ℤ → Inst) : Except Stop (Inst × ℤ) := do
  let (s, ip) ← readString f ip
  let (a, ip) ← readInt f ip
  return (k s a, ip)

/-- The inner `switch (l)` over a table without operands. A low nibble that the table does not list
    falls out of the `switch`: no functor is applied. -/
def tableInst {α : Type} (ip : ℤ) (a : Option α) (k : α → Inst) : Except Stop (Inst × ℤ) :=
  match a with
  | some a => .ok (k a, ip)
  | none => .ok (.noFunctor, ip)

/-- The inner `switch (l)` over `LOCATIONS`, with its index operand. -/
def locationInst (f : Bytefile) (ip : ℤ) (l : ℕ) (k : LocationEntry → Inst) :
    Except Stop (Inst × ℤ) :=
  match Location.ofNibble l with
  | some _ => do
    let (index, ip) ← readInt f ip
    return (k ⟨l, index⟩, ip)
  | none => .ok (.noFunctor, ip)

/-- The `default` branch: the opcodes composed of a high and a low nibble. -/
def composedInst (f : Bytefile) (ip : ℤ) (x : ℕ) : Except Stop (Inst × ℤ) :=
  match x / 16 with
  | 0 => tableInst ip (Binop.ofNibble (x % 16)) .binop
  | 2 => locationInst f ip (x % 16) .ld
  | 3 => locationInst f ip (x % 16) .lda
  | 4 => locationInst f ip (x % 16) .st
  | 6 => tableInst ip (Pattern.ofNibble (x % 16)) .patt
  | 7 =>
    match x % 16 with
    | 0 => .ok (.lread, ip)
    | 1 => .ok (.lwrite, ip)
    | 2 => .ok (.llength, ip)
    | 3 => .ok (.lstring, ip)
    | 4 => readInst1 f ip .barray
    | _ => .error (.fail "Unknown LCall" [])
  | 15 => .ok (.stop, ip)
  | _ => .error (.fail "Unknown opcode %d\n" [x])

/-- The `switch (x)` over the opcode byte `x`, with `ip` after it. -/
def opcodeInst (f : Bytefile) (ip : ℤ) (x : ℕ) : Except Stop (Inst × ℤ) :=
  match x with
  | 16 => readInst1 f ip .const
  | 17 => do
    let (s, ip) ← readString f ip
    return (.string s, ip)
  | 18 => readInstS f ip .sexp
  | 19 => .ok (.sti, ip)
  | 20 => .ok (.sta, ip)
  | 21 => readInst1 f ip .jmp
  | 22 => .ok (.end_, ip)
  | 23 => .ok (.ret, ip)
  | 24 => .ok (.drop, ip)
  | 25 => .ok (.dup, ip)
  | 26 => .ok (.swap, ip)
  | 27 => .ok (.elem, ip)
  | 80 => readInst1 f ip .cjmpz
  | 81 => readInst1 f ip .cjmpnz
  | 82 => readInst2 f ip .begin
  | 83 => readInst2 f ip .cbegin
  | 84 => do
    let (entry, ip) ← readInt f ip
    let (n, ip) ← readInt f ip
    let (captured, ip) ← readLocs f n.toNat ip
    return (.closure entry captured, ip)
  | 85 => do
    let (argc, ip) ← readInt f ip
    return (.callc ip argc, ip)
  | 86 => do
    let (offset, ip) ← readInt f ip
    let (argc, ip) ← readInt f ip
    return (.call ip offset argc, ip)
  | 87 => readInstS f ip .tag
  | 88 => readInst1 f ip .array
  | 89 => readInst2 f ip .fail
  | 90 => readInst1 f ip .line
  | x => composedInst f ip x

/-- `read_inst`: the functor application for the bytes at `ip`, and the address after them. -/
def readInst (f : Bytefile) (ip : ℤ) : Except Stop (Inst × ℤ) := do
  let (x, ip) ← readByte f ip
  opcodeInst f ip x

end Lama

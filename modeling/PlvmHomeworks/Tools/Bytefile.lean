import PlvmHomeworks.Lib.Outcome
import PlvmHomeworks.Tools.Opcode
import Mathlib.Data.List.Basic

/-! The bytecode file: `bytefile.h` and `bytefile.cpp`.

    A pointer into the file's buffer is its offset from `file->buffer`; sizes and offsets are
    computed in 32 bits as the `-m32` build does, so a wrapped layout has negative offsets. The
    three leading ints are stored in the struct right before the buffer (the file is read to
    `&file->stringtab_size`). Reading outside the bytes of the file is `undefined`. -/

namespace Lama
open Outcome

/-- How a program stops: a failed check (`FAIL`, `ASSERT`, `failure`) with its text and arguments,
    an orderly exit, an uncaught C++ exception, or an access the C code has no defined result for.
    `outOfFuel` is not an outcome of the program: the fuel of the model ran out. -/
inductive Stop where
  | fail (text : String) (args : List ℤ)
  | exit
  | uncaught (what : String)
  | undefined (what : String)
  | outOfFuel
  deriving DecidableEq, Repr

/-- A reported failure. -/
def Reported {α : Type} (r : Except Stop α) : Prop := ∃ text args, r = .error (.fail text args)

/-- The `int` that a 32-bit computation with exact result `n` yields. -/
def toInt32 (n : ℤ) : ℤ := Int.bmod n (2 ^ 32)

/-- The `size_t` that `n` converts to. -/
def toSize (n : ℤ) : ℕ := (n % 2 ^ 32).toNat

/-- The little-endian `int` in four bytes. -/
def leInt (b₀ b₁ b₂ b₃ : UInt8) : ℤ :=
  toInt32 (b₀.toNat + 2 ^ 8 * b₁.toNat + 2 ^ 16 * b₂.toNat + 2 ^ 24 * b₃.toNat)

/-- `bytefile`, with the bytes it was read from. -/
structure Bytefile where
  bytes : List UInt8
  size : ℤ
  stringPtr : ℤ
  codePtr : ℤ
  stringtabSize : ℤ
  globalAreaSize : ℤ
  publicSymbolsNumber : ℤ
  deriving DecidableEq, Repr

/-- `sizeof(bytefile)` and the offset of `stringtab_size` in it. -/
def sizeofBytefile : ℤ := 32
def headerOffset : ℤ := 20

/-- The byte at offset `o` from `file->buffer`. -/
def Bytefile.bufferByte (f : Bytefile) (o : ℤ) : Option UInt8 :=
  if 0 ≤ o + (sizeofBytefile - headerOffset) then
    f.bytes[(o + (sizeofBytefile - headerOffset)).toNat]?
  else none

/-- The `int` at offset `o` from `file->buffer`. -/
def Bytefile.bufferInt (f : Bytefile) (o : ℤ) : Option ℤ := do
  return leInt (← f.bufferByte o) (← f.bufferByte (o + 1)) (← f.bufferByte (o + 2))
    (← f.bufferByte (o + 3))

/-- The byte at offset `o` of the code section (`file->code_ptr[o]`). -/
def Bytefile.codeByte (f : Bytefile) (o : ℤ) : Option UInt8 := f.bufferByte (f.codePtr + o)

/-- `read_file` on a file with these bytes. The 32-bit build cannot open a file of `2 ^ 31` bytes or
    more, nor allocate that much; the size is stored before the allocation is checked. -/
def readFile (bytes : List UInt8) : Except Stop Bytefile := do
  ensure (bytes.length < 2 ^ 31) (.fail "%s\n" [])
  ensure (headerOffset + bytes.length < 2 ^ 31) (.undefined "file->size")
  let size := toInt32 (headerOffset + bytes.length)
  let raw : Bytefile := ⟨bytes, size, 0, 0, 0, 0, 0⟩
  -- fewer than 12 bytes leave the three ints uninitialised
  let stringtabSize ← orStop (raw.bufferInt (-12)) (.undefined "stringtab_size")
  let globalAreaSize ← orStop (raw.bufferInt (-8)) (.undefined "global_area_size")
  let publicSymbolsNumber ← orStop (raw.bufferInt (-4)) (.undefined "public_symbols_number")
  ensure (stringtabSize ≥ 0) (.fail "Negative string section size" [])
  ensure (publicSymbolsNumber ≥ 0) (.fail "Negative public symbols number" [])
  ensure (globalAreaSize ≥ 0) (.fail "Negative global area size" [])
  let totalSectionsSize :=
    toInt32 (stringtabSize + publicSymbolsNumber * 2 * 4 + globalAreaSize * 4)
  ensure (toSize (totalSectionsSize + sizeofBytefile) ≤ toSize size)
    (.fail "Invalid sections layout" [])
  let stringPtr := toInt32 (publicSymbolsNumber * 2 * 4)
  return { bytes, size, stringPtr, codePtr := toInt32 (stringPtr + stringtabSize),
           stringtabSize, globalAreaSize, publicSymbolsNumber }

/-- `get_string`: the position in the string table of string operand `pos`. -/
def getString (f : Bytefile) (pos : ℤ) : Except Stop ℤ := do
  ensure (pos ≥ 0) (.fail "Negative string index %d" [pos])
  ensure (pos < f.stringtabSize)
    (.fail "String #%d does not exist (%d strings in file)" [pos, f.stringtabSize])
  return pos

/-- `get_public_name`. -/
def getPublicName (f : Bytefile) (i : ℤ) : Except Stop ℤ := do
  ensure (i ≥ 0) (.fail "Negative public symbol index %d" [i])
  ensure (i < f.publicSymbolsNumber)
    (.fail "Public symbol #%d does not exist (%d public symbols in file)"
      [i, f.publicSymbolsNumber])
  let pos ← orStop (f.bufferInt (8 * i)) (.undefined "public_ptr")
  getString f pos

/-- `get_public_offset`. The lower bound of the offset is not checked. -/
def getPublicOffset (f : Bytefile) (i : ℤ) : Except Stop ℤ := do
  ensure (i ≥ 0) (.fail "Negative public symbol index %d" [i])
  ensure (i < f.publicSymbolsNumber)
    (.fail "Public symbol #%d does not exist (%d public symbols in file)"
      [i, f.publicSymbolsNumber])
  let offset ← orStop (f.bufferInt (8 * i + 4)) (.undefined "public_ptr")
  ensure (offset < f.size) (.fail "Invalid public offset: %d > %d (file size)" [offset, f.size])
  return offset

/-- `get_code_size`. -/
def getCodeSize (f : Bytefile) : ℤ := toInt32 (f.size - (sizeofBytefile + f.codePtr))

/-- `get_entrypoints`, as offsets from `code_ptr`. -/
def getEntrypoints (f : Bytefile) : Except Stop (List ℤ) :=
  (List.range f.publicSymbolsNumber.toNat).mapM fun (i : ℕ) => getPublicOffset f i

/-- `strcmp(s, t) == 0` for the string at position `pos` of the string table and a literal `t`
    (its characters, without the terminating NUL). -/
def strEq (f : Bytefile) : ℤ → List UInt8 → Except Stop Bool
  | pos, [] => do
    let c ← orStop (f.bufferByte (f.stringPtr + pos)) (.undefined "strcmp")
    return c == 0
  | pos, t :: ts => do
    let c ← orStop (f.bufferByte (f.stringPtr + pos)) (.undefined "strcmp")
    if c = t then strEq f (pos + 1) ts else return false

/-- The characters of `"main"`. -/
def mainName : List UInt8 := [109, 97, 105, 110]

/-- The entry lookup of `main` in `interpreter.cpp`: the first public symbol called `main`. -/
def findMain (f : Bytefile) : List ℕ → Except Stop ℤ
  | [] => .error (.fail "main symbol not found" [])
  | i :: is => do
    let name ← getPublicName f i
    if ← strEq f name mainName then getPublicOffset f i else findMain f is

def mainEntry (f : Bytefile) : Except Stop ℤ :=
  findMain f (List.range f.publicSymbolsNumber.toNat)

/-! ### The main symbol is one of the entry points -/

theorem findMain_mem (f : Bytefile) : ∀ {is : List ℕ} {e : ℤ}, findMain f is = .ok e →
    ∃ i ∈ is, getPublicOffset f i = .ok e
  | [], _, h => by simp [findMain] at h
  | i :: is, e, h => by
    obtain ⟨name, -, h⟩ := bind_eq_ok.mp h
    obtain ⟨b, -, h⟩ := bind_eq_ok.mp h
    cases b with
    | true => exact ⟨i, List.mem_cons_self, h⟩
    | false =>
      obtain ⟨j, hj, he⟩ := findMain_mem f h
      exact ⟨j, List.mem_cons_of_mem _ hj, he⟩

theorem mainEntry_mem {f : Bytefile} {e : ℤ} {es : List ℤ} (h : mainEntry f = .ok e)
    (hes : getEntrypoints f = .ok es) : e ∈ es := by
  obtain ⟨i, hi, he⟩ := findMain_mem f h
  obtain ⟨e', he', hi'⟩ := (mapM_eq_ok hes).2 i hi
  rw [he, Except.ok.injEq] at hi'
  exact hi' ▸ he'

end Lama

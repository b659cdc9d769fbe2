import PlvmHomeworks.Tools.Decode

/-! Which files `read_file` accepts, and where it finds their sections.

    A file holds three ints, the publics table, the string table and the code. The check adds up the
    sizes in 32 bits and counts the global area, which is allocated apart from the file, against the
    file's size. -/

namespace Lama
open Outcome

/-! ### The header -/

/-- The `int` at offset `k` of the file. -/
def fileInt (bytes : List UInt8) (k : ℕ) : ℤ :=
  leInt (bytes.getD k 0) (bytes.getD (k + 1) 0) (bytes.getD (k + 2) 0) (bytes.getD (k + 3) 0)

def stringtabSize (bytes : List UInt8) : ℤ := fileInt bytes 0
def globalAreaSize (bytes : List UInt8) : ℤ := fileInt bytes 4
def publicSymbolsNumber (bytes : List UInt8) : ℤ := fileInt bytes 8

/-- The bytes in front of the code section: header, publics table and string table. -/
def codeOffset (bytes : List UInt8) : ℤ :=
  12 + 8 * publicSymbolsNumber bytes + stringtabSize bytes

/-- No size in the header is negative. -/
def NonNegative (bytes : List UInt8) : Prop :=
  0 ≤ stringtabSize bytes ∧ 0 ≤ publicSymbolsNumber bytes ∧ 0 ≤ globalAreaSize bytes

instance (bytes : List UInt8) : Decidable (NonNegative bytes) := by
  unfold NonNegative; infer_instance

/-- The sum that `read_file` compares with the size of the file, both as 32-bit words. -/
def LayoutCheck (bytes : List UInt8) : Prop :=
  toSize (codeOffset bytes + 20 + 4 * globalAreaSize bytes) ≤ toSize (20 + bytes.length)

instance (bytes : List UInt8) : Decidable (LayoutCheck bytes) := by
  unfold LayoutCheck; infer_instance

theorem toInt32_emod (n : ℤ) : toInt32 n % 2 ^ 32 = n % 2 ^ 32 := by
  have h : toInt32 n % ((2 ^ 32 : ℕ) : ℤ) = n % ((2 ^ 32 : ℕ) : ℤ) := Int.bmod_emod
  exact_mod_cast h

theorem toSize_toInt32 (n : ℤ) : toSize (toInt32 n) = toSize n := by
  unfold toSize
  rw [toInt32_emod]

theorem toInt32_congr {m n : ℤ} (h : m % 2 ^ 32 = n % 2 ^ 32) : toInt32 m = toInt32 n := by
  have h1 := toInt32_isInt m
  have h2 := toInt32_isInt n
  have e1 := toInt32_emod m
  have e2 := toInt32_emod n
  unfold IsInt at h1 h2
  omega

theorem bufferByte_header (f : Bytefile) {k : ℕ} (h : k < f.bytes.length) :
    f.bufferByte ((k : ℤ) - 12) = some (f.bytes.getD k 0) := by
  have hk : ((k : ℤ) - 12 + (sizeofBytefile - headerOffset)).toNat = k := by
    simp only [sizeofBytefile, headerOffset]; omega
  have hpos : 0 ≤ (k : ℤ) - 12 + (sizeofBytefile - headerOffset) := by
    simp only [sizeofBytefile, headerOffset]; omega
  rw [Bytefile.bufferByte, if_pos hpos, hk, List.getD_eq_getElem?_getD,
    List.getElem?_eq_getElem h, Option.getD_some]

theorem bufferInt_header (f : Bytefile) {k : ℕ} (h : k + 4 ≤ f.bytes.length) :
    f.bufferInt ((k : ℤ) - 12) = some (fileInt f.bytes k) := by
  have h0 := bufferByte_header f (k := k) (by omega)
  have h1 := bufferByte_header f (k := k + 1) (by omega)
  have h2 := bufferByte_header f (k := k + 2) (by omega)
  have h3 := bufferByte_header f (k := k + 3) (by omega)
  rw [show ((k + 1 : ℕ) : ℤ) - 12 = (k : ℤ) - 12 + 1 by omega] at h1
  rw [show ((k + 2 : ℕ) : ℤ) - 12 = (k : ℤ) - 12 + 2 by omega] at h2
  rw [show ((k + 3 : ℕ) : ℤ) - 12 = (k : ℤ) - 12 + 3 by omega] at h3
  simp only [Bytefile.bufferInt, h0, h1, h2, h3, Option.bind_eq_bind, Option.bind_some,
    Option.pure_def, fileInt]

theorem fileInt_isInt (bytes : List UInt8) (k : ℕ) : IsInt (fileInt bytes k) := by
  rw [fileInt, leInt]
  exact toInt32_isInt _

/-- The sum of the sizes and the sum of the pointers, up to the wraps on the way. -/
theorem toSize_sections (s p g : ℤ) :
    toSize (toInt32 (s + p * 2 * 4 + g * 4) + sizeofBytefile) =
      toSize (12 + 8 * p + s + 20 + 4 * g) := by
  have := toInt32_emod (s + p * 2 * 4 + g * 4)
  simp only [toSize, sizeofBytefile]
  omega

theorem toInt32_sections (s p : ℤ) :
    toInt32 (toInt32 (p * 2 * 4) + s) = toInt32 (8 * p + s) := by
  have := toInt32_emod (p * 2 * 4)
  refine toInt32_congr ?_
  omega

theorem toInt32_codeSize (n c : ℤ) :
    toInt32 (toInt32 (20 + n) - (sizeofBytefile + toInt32 c)) = toInt32 (n - (12 + c)) := by
  have h1 := toInt32_emod (20 + n)
  have h2 := toInt32_emod c
  refine toInt32_congr ?_
  simp only [sizeofBytefile]
  omega

/-- The descriptor of a file, as `read_file` computes it. -/
def describe (bytes : List UInt8) : Bytefile where
  bytes
  size := toInt32 (20 + bytes.length)
  stringPtr := toInt32 (8 * publicSymbolsNumber bytes)
  codePtr := toInt32 (8 * publicSymbolsNumber bytes + stringtabSize bytes)
  stringtabSize := stringtabSize bytes
  globalAreaSize := globalAreaSize bytes
  publicSymbolsNumber := publicSymbolsNumber bytes

/-- The file can be opened and read into memory. -/
def Loadable (bytes : List UInt8) : Prop := (20 + bytes.length : ℤ) < 2 ^ 31

instance (bytes : List UInt8) : Decidable (Loadable bytes) := by
  unfold Loadable; infer_instance

/-- `read_file` on a file that holds the three ints: the checks it makes and what it returns. -/
theorem readFile_eq_ok {bytes : List UInt8} (hlen : 12 ≤ bytes.length) {f : Bytefile} :
    readFile bytes = .ok f ↔
      Loadable bytes ∧ NonNegative bytes ∧ LayoutCheck bytes ∧ f = describe bytes := by
  have header : ∀ {k : ℕ} {o : ℤ} {e : Stop}, o = (k : ℤ) - 12 → k + 4 ≤ 12 →
      orStop (Bytefile.bufferInt ⟨bytes, toInt32 (headerOffset + bytes.length), 0, 0, 0, 0, 0⟩ o) e =
        .ok (fileInt bytes k) := by
    rintro k o e rfl hk
    exact orStop_eq_ok.mpr (bufferInt_header _ (Nat.le_trans hk hlen))
  have hptr (p : ℤ) : p * 2 * 4 = 8 * p := by omega
  simp only [readFile]
  rw [header (k := 0) (o := -12) rfl (by decide), ok_bind,
    header (k := 4) (o := -8) rfl (by decide), ok_bind,
    header (k := 8) (o := -4) rfl (by decide), ok_bind, toSize_toInt32, toSize_sections,
    toInt32_sections, hptr]
  constructor
  · intro h
    obtain ⟨u, -, h⟩ := bind_eq_ok.mp h
    obtain ⟨u, hload, h⟩ := bind_eq_ok.mp h
    obtain ⟨u, hs, h⟩ := bind_eq_ok.mp h
    obtain ⟨u, hp, h⟩ := bind_eq_ok.mp h
    obtain ⟨u, hg, h⟩ := bind_eq_ok.mp h
    obtain ⟨u, hsum, h⟩ := bind_eq_ok.mp h
    rw [ensure_eq_ok] at hload hs hp hg hsum
    cases h
    exact ⟨hload, ⟨hs, hp, hg⟩, hsum, rfl⟩
  · rintro ⟨hload, ⟨hs, hp, hg⟩, hsum, rfl⟩
    have hopen : bytes.length < 2 ^ 31 := by
      unfold Loadable at hload
      omega
    exact bind_eq_ok.mpr ⟨(), ensure_eq_ok.mpr hopen, bind_eq_ok.mpr ⟨(), ensure_eq_ok.mpr hload,
      bind_eq_ok.mpr ⟨(), ensure_eq_ok.mpr hs, bind_eq_ok.mpr ⟨(), ensure_eq_ok.mpr hp,
      bind_eq_ok.mpr ⟨(), ensure_eq_ok.mpr hg, bind_eq_ok.mpr ⟨(), ensure_eq_ok.mpr hsum,
      rfl⟩⟩⟩⟩⟩⟩

/-! ### Files whose sections fit -/

/-- The sections the header announces lie in the file. -/
def Fits (bytes : List UInt8) : Prop :=
  NonNegative bytes ∧ codeOffset bytes ≤ bytes.length

/-- The publics table, the string table and the code follow one another and end with the file. -/
structure Sections (f : Bytefile) : Prop where
  publics : f.stringPtr = 8 * f.publicSymbolsNumber
  strings : f.codePtr = f.stringPtr + f.stringtabSize
  publics_nonneg : 0 ≤ f.publicSymbolsNumber
  strings_nonneg : 0 ≤ f.stringtabSize
  code : getCodeSize f = f.bytes.length - 12 - 8 * f.publicSymbolsNumber - f.stringtabSize
  code_nonneg : 0 ≤ getCodeSize f

/-- `read_file` accepts the file exactly when its sections fit, and finds them where they are. -/
def ReadsExactly (bytes : List UInt8) : Prop :=
  ((∃ f, readFile bytes = .ok f) ↔ Fits bytes) ∧ ∀ f, readFile bytes = .ok f → Sections f

/-- The header is refused for a negative size, or the 32-bit check decides as the exact sizes do:
    where the sections fit, the file can be loaded and the wrapped sum that counts the global area in
    passes too; where they do not fit, one of the two refuses the file. -/
def ExactCheck (bytes : List UInt8) : Prop :=
  ¬ NonNegative bytes ∨ (codeOffset bytes ≤ bytes.length ↔ Loadable bytes ∧ LayoutCheck bytes)

/-- The size of the code of a described file, before it is cut to an `int`. -/
theorem getCodeSize_describe (bytes : List UInt8) :
    getCodeSize (describe bytes) = toInt32 (bytes.length - codeOffset bytes) := by
  rw [getCodeSize, describe, toInt32_codeSize, codeOffset, Int.add_assoc]

/-- The sections of a file that fit are where the descriptor says. -/
theorem sections_describe {bytes : List UInt8} (hload : Loadable bytes) (hpos : NonNegative bytes)
    (hfit : codeOffset bytes ≤ bytes.length) : Sections (describe bytes) := by
  obtain ⟨hs, hp, -⟩ := hpos
  unfold Loadable at hload
  have hcode : getCodeSize (describe bytes) = bytes.length - codeOffset bytes := by
    rw [getCodeSize_describe]
    unfold codeOffset at hfit ⊢
    exact toInt32_of_isInt ⟨by omega, by omega⟩
  unfold codeOffset at hcode hfit
  have h1 : toInt32 (8 * publicSymbolsNumber bytes) = 8 * publicSymbolsNumber bytes :=
    toInt32_of_isInt ⟨by omega, by omega⟩
  have h2 : toInt32 (8 * publicSymbolsNumber bytes + stringtabSize bytes) =
      8 * publicSymbolsNumber bytes + stringtabSize bytes :=
    toInt32_of_isInt ⟨by omega, by omega⟩
  exact {
    publics := by simpa only [describe] using h1
    strings := by simp only [describe]; rw [h1, h2]
    publics_nonneg := by simpa only [describe] using hp
    strings_nonneg := by simpa only [describe] using hs
    code := by rw [hcode]; simp only [describe]; omega
    code_nonneg := by omega }

/-- A file of 12 bytes that announces `2 ^ 29` public symbols: their table has `2 ^ 32` bytes. -/
def wrappedFile : List UInt8 := [0, 0, 0, 0, 0, 0, 0, 0, 0, 0, 0, 32]

/-- A file with one global and an empty code section. -/
def globalFile : List UInt8 := [0, 0, 0, 0, 1, 0, 0, 0, 0, 0, 0, 0]

/-- `read_file` decides by the exact sizes, and finds the sections, exactly when its check does. -/
theorem reads_exactly_iff (bytes : List UInt8) (hlen : 12 ≤ bytes.length) :
    ReadsExactly bytes ↔ ExactCheck bytes := by
  have accepted : (∃ f, readFile bytes = .ok f) ↔
      NonNegative bytes ∧ Loadable bytes ∧ LayoutCheck bytes := by
    simp only [readFile_eq_ok hlen, exists_and_left, exists_eq, and_true]
    exact and_left_comm
  unfold ReadsExactly ExactCheck Fits
  rw [accepted]
  by_cases hpos : NonNegative bytes
  · simp only [hpos, true_and, not_true_eq_false, false_or]
    constructor
    · exact fun h => h.1.symm
    · intro h
      refine ⟨h.symm, fun f hf => ?_⟩
      obtain ⟨hload, -, hsum, rfl⟩ := (readFile_eq_ok hlen).mp hf
      exact sections_describe hload hpos (h.mpr ⟨hload, hsum⟩)
  · simp only [hpos, false_and, not_false_eq_true, true_or, iff_true, true_and]
    intro f hf
    exact absurd ((readFile_eq_ok hlen).mp hf).2.1 hpos

theorem reads_exactly_iff_wrappedFile : ReadsExactly wrappedFile ↔ ExactCheck wrappedFile :=
  reads_exactly_iff wrappedFile (by decide)

/-- The wrapped file is accepted although its publics table does not fit, and the file with a global
    is refused although its sections do. -/
theorem sizes_misjudged : ¬ ReadsExactly wrappedFile ∧ ¬ ReadsExactly globalFile := by
  constructor
  · rintro ⟨h, -⟩
    have hok : readFile wrappedFile = .ok (describe wrappedFile) :=
      (readFile_eq_ok (by decide)).mpr ⟨by decide, by decide, by decide, rfl⟩
    exact absurd (h.mp ⟨_, hok⟩).2 (by decide)
  · rintro ⟨h, -⟩
    obtain ⟨f, hf⟩ := h.mpr ⟨by decide, by decide⟩
    exact absurd ((readFile_eq_ok (by decide)).mp hf).2.2.1 (by decide)

end Lama

import PlvmHomeworks.Tools.VerifierBounds

/-! What the accessors of a file promise their callers, and what its tables must be like for them to
    keep it.

    `strcmp`, `Bstring` and `LtagHash` read a string up to its NUL, and the bitmaps of the verifier are
    indexed with public offsets; neither checks again. -/

namespace Lama
open Outcome

/-- The string at `pos` ends inside the string table. -/
def EndsInTable (f : Bytefile) (pos : ℤ) : Prop :=
  ∃ k, pos ≤ k ∧ k < f.stringtabSize ∧ f.bufferByte (f.stringPtr + k) = some 0

/-- A table entry is rejected, or the accessor returns a value that satisfies `P`. -/
def RejectedOr (P : ℤ → Prop) (r : Except Stop ℤ) : Prop := Reported r ∨ ∃ v, r = .ok v ∧ P v

/-- Strings end in their table and entry points are offsets of the code section; an entry for which
    this is impossible is rejected. -/
structure AccessorsExact (f : Bytefile) : Prop where
  strings : ∀ pos p, getString f pos = .ok p → EndsInTable f p
  names : ∀ i, 0 ≤ i → i < f.publicSymbolsNumber → RejectedOr (EndsInTable f) (getPublicName f i)
  offsets : ∀ i, 0 ≤ i → i < f.publicSymbolsNumber → RejectedOr (CodeIndex f) (getPublicOffset f i)
  entrypoints : ∀ es, getEntrypoints f = .ok es → ∀ o ∈ es, CodeIndex f o

/-- The publics table is in the file, the last byte of the string table is NUL, and the offsets of the
    publics that are below the size of the file are in the code section. -/
structure TablesExact (f : Bytefile) : Prop where
  publics : 12 + 8 * f.publicSymbolsNumber ≤ f.bytes.length
  terminator : 0 < f.stringtabSize → f.bufferByte (f.stringPtr + (f.stringtabSize - 1)) = some 0
  offsets : ∀ i o, 0 ≤ i → i < f.publicSymbolsNumber → f.bufferInt (8 * i + 4) = some o →
    o < f.size → CodeIndex f o

variable {f : Bytefile} {i o pos p : ℤ}

theorem getString_eq_ok : getString f pos = .ok p ↔ (0 ≤ pos ∧ pos < f.stringtabSize) ∧ p = pos := by
  constructor
  · intro h
    obtain ⟨u, h0, h⟩ := bind_eq_ok.mp h
    obtain ⟨u, h1, h⟩ := bind_eq_ok.mp h
    cases h
    exact ⟨⟨ensure_eq_ok.mp h0, ensure_eq_ok.mp h1⟩, rfl⟩
  · rintro ⟨⟨h0, h1⟩, rfl⟩
    exact bind_eq_ok.mpr ⟨(), ensure_of h0, bind_eq_ok.mpr ⟨(), ensure_of h1, rfl⟩⟩

theorem getString_reported (h : ¬ (0 ≤ pos ∧ pos < f.stringtabSize)) : Reported (getString f pos) := by
  rw [getString]
  by_cases h0 : pos ≥ 0
  · have h1 : ¬ pos < f.stringtabSize := fun hlt => h ⟨h0, hlt⟩
    rw [ensure_of h0, ok_bind, ensure, if_neg h1]
    exact ⟨_, _, rfl⟩
  · rw [ensure, if_neg h0]
    exact ⟨_, _, rfl⟩

section
variable (hlo : 0 ≤ i) (hhi : i < f.publicSymbolsNumber)
include hlo hhi

theorem getPublicName_eq : getPublicName f i =
    orStop (f.bufferInt (8 * i)) (.undefined "public_ptr") >>= fun pos => getString f pos := by
  rw [getPublicName, ensure_of (show i ≥ 0 from hlo), ok_bind, ensure_of hhi, ok_bind]

theorem getPublicOffset_eq : getPublicOffset f i =
    orStop (f.bufferInt (8 * i + 4)) (.undefined "public_ptr") >>= fun offset =>
      ensure (offset < f.size) (.fail "Invalid public offset: %d > %d (file size)" [offset, f.size]) >>=
        fun _ => .ok offset := by
  rw [getPublicOffset, ensure_of (show i ≥ 0 from hlo), ok_bind, ensure_of hhi, ok_bind]
  rfl

/-- An offset that the file has is returned or rejected. -/
theorem getPublicOffset_exact (hint : f.bufferInt (8 * i + 4) = some o) :
    RejectedOr (CodeIndex f) (getPublicOffset f i) ↔ (o < f.size → CodeIndex f o) := by
  rw [getPublicOffset_eq hlo hhi, hint]
  by_cases hsize : o < f.size
  · rw [orStop, ok_bind, ensure_of hsize, ok_bind]
    constructor
    · rintro (⟨_, _, h⟩ | ⟨v, h, hv⟩) _
      · cases h
      · cases h
        exact hv
    · exact fun h => Or.inr ⟨o, rfl, h hsize⟩
  · rw [orStop, ok_bind, ensure, if_neg hsize]
    exact ⟨fun _ h => absurd h hsize, fun _ => Or.inl ⟨_, _, rfl⟩⟩

end

/-- A public whose entry is missing from the file is read from somewhere else. -/
theorem bufferInt_of_exact (hlo : 0 ≤ i) (hhi : i < f.publicSymbolsNumber)
    (h : RejectedOr (CodeIndex f) (getPublicOffset f i)) : ∃ o, f.bufferInt (8 * i + 4) = some o := by
  rw [getPublicOffset_eq hlo hhi] at h
  cases hint : f.bufferInt (8 * i + 4) with
  | some o => exact ⟨o, rfl⟩
  | none =>
    rw [hint, orStop, error_bind] at h
    rcases h with ⟨_, _, h⟩ | ⟨_, h, -⟩
    · cases h
    · cases h

/-- The entry points are public offsets. -/
theorem getEntrypoints_mem {es : List ℤ} (h : getEntrypoints f = .ok es) (ho : o ∈ es) :
    ∃ i, 0 ≤ i ∧ i < f.publicSymbolsNumber ∧ getPublicOffset f i = .ok o := by
  obtain ⟨i, hi, ho⟩ := mapM_mem h o ho
  have hlt := List.mem_range.mp hi
  exact ⟨i, Int.natCast_nonneg i, by omega, ho⟩

theorem TablesExact.int (h : TablesExact f) (hlo : 0 ≤ i) (hhi : i < f.publicSymbolsNumber) :
    ∃ pos o, f.bufferInt (8 * i) = some pos ∧ f.bufferInt (8 * i + 4) = some o := by
  have hin := h.publics
  have hname : f.bufferInt (8 * i) ≠ none := by
    rw [Ne, bufferInt_eq_none_iff (by omega)]
    omega
  have hoffset : f.bufferInt (8 * i + 4) ≠ none := by
    rw [Ne, bufferInt_eq_none_iff (by omega)]
    omega
  obtain ⟨pos, hpos⟩ := Option.ne_none_iff_exists'.mp hname
  obtain ⟨o, ho⟩ := Option.ne_none_iff_exists'.mp hoffset
  exact ⟨pos, o, hpos, ho⟩

/-- On a file that `read_file` accepted, the accessors return what their callers assume exactly when
    its tables are in order. -/
theorem accessors_exact_iff {bytes : List UInt8} (h : readFile bytes = .ok f) :
    AccessorsExact f ↔ TablesExact f := by
  have hlen := length_of_readFile h
  have hbytes : f.bytes = bytes := by
    obtain ⟨-, -, -, rfl⟩ := (readFile_eq_ok hlen).mp h
    rfl
  constructor
  · intro hexact
    refine ⟨?_, fun hpos => ?_, fun i o hlo hhi hint => ?_⟩
    · -- the last public is in the file
      by_cases hnum : 0 < f.publicSymbolsNumber
      · obtain ⟨o, ho⟩ := bufferInt_of_exact (by omega) (by omega)
          (hexact.offsets (f.publicSymbolsNumber - 1) (by omega) (by omega))
        have hin : ¬ ¬ 8 * (f.publicSymbolsNumber - 1) + 4 + 16 ≤ f.bytes.length := by
          rw [← bufferInt_eq_none_iff (by omega), ho]
          simp
        omega
      · rw [hbytes]
        omega
    · obtain ⟨k, hle, hlt, hk⟩ := hexact.strings (f.stringtabSize - 1) _
        (getString_eq_ok.mpr ⟨⟨by omega, by omega⟩, rfl⟩)
      rwa [show k = f.stringtabSize - 1 by omega] at hk
    · exact (getPublicOffset_exact hlo hhi hint).mp (hexact.offsets i hlo hhi)
  · intro htables
    have hstring : ∀ pos p, getString f pos = .ok p → EndsInTable f p := by
      intro pos p hp
      obtain ⟨⟨h0, h1⟩, rfl⟩ := getString_eq_ok.mp hp
      exact ⟨f.stringtabSize - 1, by omega, by omega, htables.terminator (by omega)⟩
    have hoffset : ∀ i, 0 ≤ i → i < f.publicSymbolsNumber →
        RejectedOr (CodeIndex f) (getPublicOffset f i) := by
      intro i hlo hhi
      obtain ⟨-, o, -, hint⟩ := htables.int hlo hhi
      exact (getPublicOffset_exact hlo hhi hint).mpr (htables.offsets i o hlo hhi hint)
    refine ⟨hstring, fun i hlo hhi => ?_, hoffset, fun es hes o ho => ?_⟩
    · obtain ⟨pos, -, hint, -⟩ := htables.int hlo hhi
      rw [getPublicName_eq hlo hhi, hint, orStop, ok_bind]
      by_cases hpos : 0 ≤ pos ∧ pos < f.stringtabSize
      · have hok := getString_eq_ok.mpr ⟨hpos, rfl⟩
        exact Or.inr ⟨pos, hok, hstring _ _ hok⟩
      · exact Or.inl (getString_reported hpos)
    · obtain ⟨i, hlo, hhi, ho⟩ := getEntrypoints_mem hes ho
      rcases hoffset i hlo hhi with ⟨_, _, hfail⟩ | ⟨v, hv, hcode⟩
      · rw [hfail] at ho
        cases ho
      · rw [hv] at ho
        cases ho
        exact hcode

/-- A file whose only string is `main`, without its NUL; the code section follows it. -/
def unterminatedName : List UInt8 :=
  [4, 0, 0, 0, 0, 0, 0, 0, 1, 0, 0, 0, 0, 0, 0, 0, 0, 0, 0, 0, 109, 97, 105, 110, 22]

theorem accessors_exact_iff_unterminatedName :
    AccessorsExact (describe unterminatedName) ↔ TablesExact (describe unterminatedName) :=
  accessors_exact_iff ((readFile_eq_ok (by decide)).mpr ⟨by decide, by decide, by decide, rfl⟩)

/-- Neither the missing NUL nor the public offset `-1` is rejected. -/
theorem accessors_misjudge :
    (∃ f, readFile unterminatedName = .ok f ∧ getPublicName f 0 = .ok 0 ∧ ¬ AccessorsExact f) ∧
      ∃ f, readFile strayPublic = .ok f ∧ getPublicOffset f 0 = .ok (-1) ∧ ¬ AccessorsExact f := by
  refine ⟨⟨describe unterminatedName,
    (readFile_eq_ok (by decide)).mpr ⟨by decide, by decide, by decide, rfl⟩, by decide +kernel, ?_⟩,
    describe strayPublic,
    (readFile_eq_ok (by decide)).mpr ⟨by decide, by decide, by decide, rfl⟩, by decide +kernel, ?_⟩
  · intro h
    obtain ⟨k, h0, h1, hk⟩ := h.strings 0 0 (by decide +kernel)
    have hsize : (describe unterminatedName).stringtabSize = 4 := by decide +kernel
    have hcases : k = 0 ∨ k = 1 ∨ k = 2 ∨ k = 3 := by omega
    rcases hcases with rfl | rfl | rfl | rfl <;> revert hk <;> decide +kernel
  · intro h
    have hok : getEntrypoints (describe strayPublic) = .ok [-1] := by decide +kernel
    exact absurd (h.entrypoints _ hok (-1) (by decide)).1 (by decide)

end Lama

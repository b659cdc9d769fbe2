import PlvmHomeworks.Tools.Sections
import PlvmHomeworks.Tools.Functors

/-! The file cut to its code section.

    A tool that never leaves the code section does the same on the cut file, where every other byte
    is missing and reading it has no defined result. The decoder checks before it reads, so it is
    such a tool: it fails, or stays in the code. -/

namespace Lama
open Outcome

/-- A failed check. -/
def Stop.IsFail : Stop → Prop
  | .fail _ _ => True
  | _ => False

instance (e : Stop) : Decidable e.IsFail := by
  cases e <;> unfold Stop.IsFail <;> infer_instance

/-- The file without the bytes in front of its code. -/
def Bytefile.codeOnly (f : Bytefile) : Bytefile where
  bytes := f.bytes.drop (f.codePtr + 12).toNat
  size := f.size - (f.codePtr + 12)
  stringPtr := 0
  codePtr := -12
  stringtabSize := f.stringtabSize
  globalAreaSize := f.globalAreaSize
  publicSymbolsNumber := 0

/-- `o` is the offset of a byte of the code section. -/
def CodeIndex (f : Bytefile) (o : ℤ) : Prop := 0 ≤ o ∧ o < getCodeSize f

instance (f : Bytefile) (o : ℤ) : Decidable (CodeIndex f o) := by
  unfold CodeIndex; infer_instance

/-- The code section is the end of the file. -/
structure CodePlaced (f : Bytefile) : Prop where
  start : 0 ≤ f.codePtr
  size : f.size = 20 + f.bytes.length
  code : getCodeSize f = f.bytes.length - 12 - f.codePtr
  code_nonneg : 0 ≤ getCodeSize f

theorem Sections.codePlaced {f : Bytefile} (h : Sections f) (hsize : f.size = 20 + f.bytes.length) :
    CodePlaced f := by
  obtain ⟨hpub, hstr, hp, hs, hcode, hpos⟩ := h
  exact ⟨by omega, hsize, by omega, hpos⟩

theorem getCodeSize_codeOnly (f : Bytefile) : getCodeSize f.codeOnly = getCodeSize f := by
  refine congrArg toInt32 ?_
  simp only [Bytefile.codeOnly, sizeofBytefile]
  omega

theorem CodeIndex.codeOnly_iff {f : Bytefile} {o : ℤ} : CodeIndex f.codeOnly o ↔ CodeIndex f o := by
  rw [CodeIndex, CodeIndex, getCodeSize_codeOnly]

theorem assertCanRead_codeOnly (f : Bytefile) (ip n : ℤ) :
    assertCanRead f.codeOnly ip n = assertCanRead f ip n := by
  have h : sizeofBytefile + f.codeOnly.codePtr + ip + n ≤ f.codeOnly.size ↔
      sizeofBytefile + f.codePtr + ip + n ≤ f.size := by
    simp only [Bytefile.codeOnly]
    omega
  simp only [assertCanRead, h]

theorem assertCanRead_errorsIn (f : Bytefile) (ip n : ℤ) : ErrorsIn Stop.IsFail (assertCanRead f ip n) := by
  simp [assertCanRead, errorsIn_bind, errorsIn_ensure, Stop.IsFail]

section
variable {f : Bytefile} (hf : CodePlaced f)
include hf

/-- A byte of the code section is a byte of the file, and still there in the cut file. -/
theorem codeByte_of_codeIndex {o : ℤ} (ho : CodeIndex f o) :
    ∃ b, f.codeByte o = some b ∧ f.codeOnly.codeByte o = some b := by
  obtain ⟨h0, hlt⟩ := ho
  have hstart := hf.start
  rw [hf.code] at hlt
  have hlen : (f.codePtr + o + 12).toNat < f.bytes.length := by omega
  refine ⟨f.bytes[(f.codePtr + o + 12).toNat], ?_, ?_⟩
  · rw [Bytefile.codeByte, Bytefile.bufferByte, if_pos (by simp only [sizeofBytefile, headerOffset]; omega)]
    exact List.getElem?_eq_getElem hlen
  · have hsum : (f.codePtr + 12).toNat + o.toNat = (f.codePtr + o + 12).toNat := by omega
    have hidx : (-12 + o + (sizeofBytefile - headerOffset)).toNat = o.toNat := by
      simp only [sizeofBytefile, headerOffset]; omega
    rw [Bytefile.codeByte, Bytefile.bufferByte,
      if_pos (by simp only [Bytefile.codeOnly, sizeofBytefile, headerOffset]; omega)]
    simp only [Bytefile.codeOnly]
    rw [hidx, List.getElem?_drop, hsum]
    exact List.getElem?_eq_getElem hlen

/-- The cut file has no other bytes. -/
theorem codeByte_codeOnly_eq_none {o : ℤ} (ho : ¬ CodeIndex f o) : f.codeOnly.codeByte o = none := by
  have hstart := hf.start
  rw [CodeIndex, hf.code] at ho
  rw [Bytefile.codeByte, Bytefile.bufferByte]
  split <;> rename_i h
  · simp only [Bytefile.codeOnly, sizeofBytefile, headerOffset] at h ⊢
    refine List.getElem?_eq_none ?_
    rw [List.length_drop]
    omega
  · rfl

theorem codeByte_codeOnly {o : ℤ} (ho : CodeIndex f o) : f.codeOnly.codeByte o = f.codeByte o := by
  obtain ⟨b, h1, h2⟩ := codeByte_of_codeIndex hf ho
  rw [h1, h2]

theorem rawByte_codeOnly {o : ℤ} (ho : CodeIndex f o) : rawByte f.codeOnly o = rawByte f o := by
  unfold rawByte
  rw [codeByte_codeOnly hf ho]

/-- A raw read of the cut file has a result just where there is code. -/
theorem rawByte_errorsIn_iff {o : ℤ} :
    ErrorsIn Stop.IsFail (rawByte f.codeOnly o) ↔ CodeIndex f o := by
  unfold rawByte
  rw [errorsIn_bind, errorsIn_orStop]
  constructor
  · rintro ⟨h, -⟩
    by_contra ho
    exact h (codeByte_codeOnly_eq_none hf ho)
  · intro ho
    obtain ⟨b, -, hb⟩ := codeByte_of_codeIndex hf ho
    refine ⟨fun h => ?_, fun _ _ => errorsIn_ok⟩
    rw [hb] at h
    cases h

/-! ### The decoder -/

/-- The bytes that `assert_can_read` lets the reader touch are in the code section. -/
theorem codeIndex_of_assertCanRead {ip n o : ℤ} {u : Unit} (h : assertCanRead f ip n = .ok u)
    (h1 : ip ≤ o) (h2 : o < ip + n) : CodeIndex f o := by
  obtain ⟨h0, hc⟩ := assertCanRead_eq_ok.mp h
  have hsize := hf.size
  have hcode := hf.code
  simp only [InCode, sizeofBytefile] at hc
  unfold CodeIndex
  omega

theorem readByte_codeOnly (ip : ℤ) : readByte f.codeOnly ip = readByte f ip := by
  unfold readByte
  rw [assertCanRead_codeOnly]
  cases h : assertCanRead f ip 1 with
  | error e => rfl
  | ok u =>
    rw [codeByte_codeOnly hf (codeIndex_of_assertCanRead hf h (Int.le_refl _) (by omega))]

theorem readByte_errorsIn (ip : ℤ) : ErrorsIn Stop.IsFail (readByte f ip) := by
  refine errorsIn_bind.mpr ⟨assertCanRead_errorsIn f ip 1, fun u hu => ?_⟩
  obtain ⟨b, hb, -⟩ :=
    codeByte_of_codeIndex hf (codeIndex_of_assertCanRead hf hu (Int.le_refl _) (by omega))
  simp [hb, orStop]

/-- The four bytes of an operand. -/
theorem bufferInt_of_assertCanRead {ip : ℤ} {u : Unit} (h : assertCanRead f ip 4 = .ok u) :
    ∃ n, f.bufferInt (f.codePtr + ip) = some n ∧
      f.codeOnly.bufferInt (f.codeOnly.codePtr + ip) = some n := by
  have byte : ∀ k, 0 ≤ k → k < 4 → ∃ b, f.bufferByte (f.codePtr + ip + k) = some b ∧
      f.codeOnly.bufferByte (f.codeOnly.codePtr + ip + k) = some b := by
    intro k hk hk4
    obtain ⟨b, h1, h2⟩ :=
      codeByte_of_codeIndex hf (codeIndex_of_assertCanRead hf h (o := ip + k) (by omega) (by omega))
    rw [Bytefile.codeByte, ← Int.add_assoc] at h1 h2
    exact ⟨b, h1, h2⟩
  obtain ⟨b0, h0, h0'⟩ := byte 0 (by decide) (by decide)
  obtain ⟨b1, h1, h1'⟩ := byte 1 (by decide) (by decide)
  obtain ⟨b2, h2, h2'⟩ := byte 2 (by decide) (by decide)
  obtain ⟨b3, h3, h3'⟩ := byte 3 (by decide) (by decide)
  rw [Int.add_zero] at h0 h0'
  refine ⟨leInt b0 b1 b2 b3, ?_, ?_⟩
  · simp only [Bytefile.bufferInt, h0, h1, h2, h3, Option.bind_eq_bind, Option.bind_some,
      Option.pure_def]
  · simp only [Bytefile.bufferInt, h0', h1', h2', h3', Option.bind_eq_bind, Option.bind_some,
      Option.pure_def]

theorem readInt_codeOnly (ip : ℤ) : readInt f.codeOnly ip = readInt f ip := by
  unfold readInt
  rw [assertCanRead_codeOnly]
  cases h : assertCanRead f ip 4 with
  | error e => rfl
  | ok u =>
    obtain ⟨n, h1, h2⟩ := bufferInt_of_assertCanRead hf h
    rw [h1, h2]

theorem readInt_errorsIn (ip : ℤ) : ErrorsIn Stop.IsFail (readInt f ip) := by
  refine errorsIn_bind.mpr ⟨assertCanRead_errorsIn f ip 4, fun u hu => ?_⟩
  obtain ⟨n, hn, -⟩ := bufferInt_of_assertCanRead hf hu
  simp [hn, orStop]

end

/-! ### How the decoder ends -/

/-- The index of every location the instruction names is an `int`. -/
def Inst.IntLocations (inst : Inst) : Prop := ∀ l ∈ inst.locations, IsInt l.index

section
variable {f : Bytefile} {P : Stop → Prop} (hfail : ∀ text args, P (.fail text args))
  (hbyte : ∀ ip, ErrorsIn P (readByte f ip)) (hint : ∀ ip, ErrorsIn P (readInt f ip))

theorem ends_readInt (hint : ∀ ip, ErrorsIn P (readInt f ip)) (ip : ℤ) :
    Ends P (fun r => IsInt r.1) (readInt f ip) :=
  ⟨hint ip, fun _ h => readInt_isInt h⟩

include hint

theorem ends_readInst1 (ip : ℤ) {k : ℤ → Inst} (hk : ∀ a, IsInt a → (k a).IntLocations) :
    Ends P (fun r => r.1.IntLocations) (readInst1 f ip k) :=
  (ends_readInt hint ip).bind fun _ ha => ends_ok.mpr (hk _ ha)

theorem ends_readInst2 (ip : ℤ) {k : ℤ → ℤ → Inst} (hk : ∀ a b, (k a b).IntLocations) :
    Ends P (fun r => r.1.IntLocations) (readInst2 f ip k) :=
  (hint ip).bind fun _ => (hint _).bind fun _ => ends_ok.mpr (hk _ _)

theorem ends_locationInst (ip : ℤ) (l : ℕ) {k : LocationEntry → Inst}
    (hk : ∀ a, IsInt a.index → (k a).IntLocations) :
    Ends P (fun r => r.1.IntLocations) (locationInst f ip l k) := by
  unfold locationInst
  split
  · exact (ends_readInt hint ip).bind fun _ ha => ends_ok.mpr (hk _ ha)
  · exact ends_ok.mpr fun _ h => absurd h List.not_mem_nil

theorem ends_readLocs (hbyte : ∀ ip, ErrorsIn P (readByte f ip)) : ∀ (n : ℕ) (ip : ℤ),
    Ends P (fun r => ∀ l ∈ r.1, IsInt l.index) (readLocs f n ip)
  | 0, _ => ends_ok.mpr fun _ h => absurd h List.not_mem_nil
  | n + 1, ip => by
    have loc : Ends P (fun r => IsInt r.1.index) (readLoc f ip) :=
      (hbyte ip).bind fun _ => (ends_readInt hint _).bind fun _ ha => ends_ok.mpr ha
    refine loc.bind fun r hr => (ends_readLocs hbyte n _).bind fun rs hrs => ends_ok.mpr fun l hl => ?_
    rcases List.mem_cons.mp hl with rfl | hl
    · exact hr
    · exact hrs l hl

include hfail

theorem errorsIn_readString (ip : ℤ) : ErrorsIn P (readString f ip) := by
  refine errorsIn_bind.mpr ⟨hint ip, fun a _ => errorsIn_bind.mpr ⟨?_, fun _ _ => errorsIn_ok⟩⟩
  exact errorsIn_bind.mpr ⟨errorsIn_ensure.mpr fun _ => hfail _ _, fun _ _ =>
    errorsIn_bind.mpr ⟨errorsIn_ensure.mpr fun _ => hfail _ _, fun _ _ => errorsIn_ok⟩⟩

theorem ends_readInstS (ip : ℤ) {k : ℤ → ℤ → Inst} (hk : ∀ a b, (k a b).IntLocations) :
    Ends P (fun r => r.1.IntLocations) (readInstS f ip k) :=
  (errorsIn_readString hfail hint ip).bind fun _ => (hint _).bind fun _ => ends_ok.mpr (hk _ _)

theorem ends_composedInst (ip : ℤ) (x : ℕ) :
    Ends P (fun r => r.1.IntLocations) (composedInst f ip x) := by
  have none_ok : ∀ {inst : Inst} {next : ℤ}, inst.locations = [] →
      Ends P (fun r => r.1.IntLocations) (.ok (inst, next) : Except Stop (Inst × ℤ)) := by
    intro inst next h
    refine ends_ok.mpr fun l hl => ?_
    rw [h] at hl
    exact absurd hl List.not_mem_nil
  have table : ∀ {α : Type} (a : Option α) (k : α → Inst), (∀ a, (k a).locations = []) →
      Ends P (fun r => r.1.IntLocations) (tableInst ip a k) := by
    intro α a k hk
    cases a with
    | none => exact none_ok rfl
    | some a => exact none_ok (hk a)
  have one : ∀ {k : LocationEntry → Inst}, (∀ a, (k a).locations = [a]) →
      ∀ a : LocationEntry, IsInt a.index → (k a).IntLocations := by
    intro k hk a ha l hl
    rw [hk a, List.mem_singleton] at hl
    rw [hl]
    exact ha
  unfold composedInst
  split
  case h_1 => exact table _ _ fun _ => rfl
  case h_2 => exact ends_locationInst hint ip _ (one fun _ => rfl)
  case h_3 => exact ends_locationInst hint ip _ (one fun _ => rfl)
  case h_4 => exact ends_locationInst hint ip _ (one fun _ => rfl)
  case h_5 => exact table _ _ fun _ => rfl
  case h_6 =>
    split
    case h_5 => exact ends_readInst1 hint ip fun _ _ _ hl => absurd hl List.not_mem_nil
    case h_6 => exact ends_error.mpr (hfail _ _)
    all_goals exact none_ok rfl
  case h_7 => exact none_ok rfl
  case h_8 => exact ends_error.mpr (hfail _ _)

include hbyte

theorem ends_opcodeInst (ip : ℤ) (x : ℕ) :
    Ends P (fun r => r.1.IntLocations) (opcodeInst f ip x) := by
  have none_int : ∀ {inst : Inst}, inst.locations = [] → inst.IntLocations := by
    intro inst h l hl
    rw [h] at hl
    exact absurd hl List.not_mem_nil
  unfold opcodeInst
  split
  case h_2 =>
    exact (errorsIn_readString hfail hint ip).bind fun _ => ends_ok.mpr (none_int rfl)
  case h_17 =>
    exact (hint ip).bind fun _ => (hint _).bind fun _ =>
      (ends_readLocs hint hbyte _ _).bind fun _ h => ends_ok.mpr h
  case h_18 => exact (hint ip).bind fun _ => ends_ok.mpr (none_int rfl)
  case h_19 => exact (hint ip).bind fun _ => (hint _).bind fun _ => ends_ok.mpr (none_int rfl)
  case h_24 => exact ends_composedInst hfail hint ip _
  all_goals first
    | exact ends_readInst1 hint ip fun _ _ => none_int rfl
    | exact ends_readInst2 hint ip fun _ _ => none_int rfl
    | exact ends_readInstS hfail hint ip fun _ _ => none_int rfl
    | exact ends_ok.mpr (none_int rfl)

/-- The decoder fails as its reads do, or on a check; what it decodes names locations by `int`s. -/
theorem ends_readInst (ip : ℤ) : Ends P (fun r => r.1.IntLocations) (readInst f ip) :=
  (hbyte ip).bind fun _ => ends_opcodeInst hfail hbyte hint _ _

end

/-- The decoder returns or stops on a failed check. -/
theorem readInst_errorsIn {f : Bytefile} (hf : CodePlaced f) (ip : ℤ) :
    ErrorsIn Stop.IsFail (readInst f ip) :=
  (ends_readInst (fun _ _ => trivial) (readByte_errorsIn hf) (readInt_errorsIn hf) ip).1

theorem readInst_intLocations {f : Bytefile} {ip next : ℤ} {inst : Inst}
    (h : readInst f ip = .ok (inst, next)) : inst.IntLocations :=
  (ends_readInst (P := fun _ => True) (fun _ _ => trivial) (fun _ _ _ => trivial)
    (fun _ _ _ => trivial) ip).2 _ h

/-- The decoder sees a file through `read_byte`, `read_int` and the size of the string table. -/
theorem readInst_congr {f g : Bytefile} (hb : readByte g = readByte f) (hi : readInt g = readInt f)
    (hs : g.stringtabSize = f.stringtabSize) (ip : ℤ) : readInst g ip = readInst f ip := by
  have hstring : readString g = readString f := by
    funext ip
    simp only [readString, hi, getString, hs]
  have hlocs : ∀ n, readLocs g n = readLocs f n := by
    intro n
    induction n with
    | zero => rfl
    | succ n ih =>
      funext ip
      simp only [readLocs, readLoc, hb, hi, ih]
  have hcomposed : composedInst g = composedInst f := by
    funext ip x
    simp only [composedInst, locationInst, readInst1, hi]
  have hopcode : opcodeInst g = opcodeInst f := by
    funext ip x
    simp only [opcodeInst, readInst1, readInst2, readInstS, hi, hstring, hlocs, hcomposed]
  simp only [readInst, hb, hopcode]

/-- The decoder stays in the code section. -/
theorem readInst_codeOnly {f : Bytefile} (hf : CodePlaced f) (ip : ℤ) :
    readInst f.codeOnly ip = readInst f ip :=
  readInst_congr (funext (readByte_codeOnly hf)) (funext (readInt_codeOnly hf)) rfl ip

end Lama

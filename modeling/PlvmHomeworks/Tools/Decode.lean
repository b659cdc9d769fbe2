import PlvmHomeworks.Tools.Verify

/-! What the decoder does at an address: it moves forward and stays inside the code section, and the
    bytes the verifier looks at without decoding (`END`, `BEGIN`, `CBEGIN`) are those instructions. -/

namespace Lama
open Outcome

/-- `ip` is not past the end of the code section. -/
def InCode (f : Bytefile) (ip : ℤ) : Prop := sizeofBytefile + f.codePtr + ip ≤ f.size

theorem assertCanRead_eq_ok {f : Bytefile} {ip n : ℤ} {u : Unit} :
    assertCanRead f ip n = .ok u ↔ 0 ≤ ip ∧ InCode f (ip + n) := by
  simp only [assertCanRead, bind_eq_ok, ensure_eq_ok, exists_const, InCode, Int.add_assoc]

theorem readByte_ok {f : Bytefile} {ip : ℤ} {r : ℕ × ℤ} (h : readByte f ip = .ok r) :
    0 ≤ ip ∧ InCode f (ip + 1) ∧ (∃ b, f.codeByte ip = some b ∧ r.1 = b.toNat) ∧ r.2 = ip + 1 := by
  obtain ⟨u, hr, h⟩ := bind_eq_ok.mp h
  obtain ⟨b, hb, h⟩ := bind_eq_ok.mp h
  rw [pure_eq_ok, Except.ok.injEq] at h
  obtain ⟨h0, h1⟩ := assertCanRead_eq_ok.mp hr
  rw [← h]
  exact ⟨h0, h1, ⟨b, orStop_eq_ok.mp hb, rfl⟩, rfl⟩

theorem readInt_ok {f : Bytefile} {ip : ℤ} {r : ℤ × ℤ} (h : readInt f ip = .ok r) :
    InCode f (ip + 4) ∧ r.2 = ip + 4 := by
  obtain ⟨u, hr, h⟩ := bind_eq_ok.mp h
  obtain ⟨n, -, h⟩ := bind_eq_ok.mp h
  rw [pure_eq_ok, Except.ok.injEq] at h
  rw [← h]
  exact ⟨(assertCanRead_eq_ok.mp hr).2, rfl⟩

/-- A reader at `ip` that ended at `next` moved forward and stayed in the code section. -/
def Forward (f : Bytefile) (ip next : ℤ) : Prop := ip ≤ next ∧ (InCode f ip → InCode f next)

theorem Forward.refl (f : Bytefile) (ip : ℤ) : Forward f ip ip := ⟨Int.le_refl ip, id⟩

theorem Forward.trans {f : Bytefile} {a b c : ℤ} (h : Forward f a b) (h' : Forward f b c) :
    Forward f a c := ⟨Int.le_trans h.1 h'.1, fun ha => h'.2 (h.2 ha)⟩

theorem readByte_forward {f : Bytefile} {ip : ℤ} {r : ℕ × ℤ} (h : readByte f ip = .ok r) :
    Forward f ip r.2 := by
  obtain ⟨-, hc, -, hr⟩ := readByte_ok h
  rw [hr]; exact ⟨by omega, fun _ => hc⟩

theorem readInt_forward {f : Bytefile} {ip : ℤ} {r : ℤ × ℤ} (h : readInt f ip = .ok r) :
    Forward f ip r.2 := by
  obtain ⟨hc, hr⟩ := readInt_ok h
  rw [hr]; exact ⟨by omega, fun _ => hc⟩

theorem readString_forward {f : Bytefile} {ip : ℤ} {r : ℤ × ℤ} (h : readString f ip = .ok r) :
    Forward f ip r.2 := by
  obtain ⟨⟨a, ip'⟩, ha, h⟩ := bind_eq_ok.mp h
  obtain ⟨s, -, h⟩ := bind_eq_ok.mp h
  simp only [pure_eq_ok, Except.ok.injEq] at h
  have hf := readInt_forward ha
  rw [← h]; exact hf

theorem readLocs_forward {f : Bytefile} : ∀ {n : ℕ} {ip : ℤ} {r : List LocationEntry × ℤ},
    readLocs f n ip = .ok r → Forward f ip r.2
  | 0, ip, r, h => by
    simp only [readLocs, Except.ok.injEq] at h
    rw [← h]; exact .refl f ip
  | n + 1, ip, r, h => by
    obtain ⟨⟨l, ip₁⟩, hl, h⟩ := bind_eq_ok.mp h
    obtain ⟨⟨ls, ip₂⟩, hls, h⟩ := bind_eq_ok.mp h
    obtain ⟨⟨k, ip₃⟩, hk, hl⟩ := bind_eq_ok.mp hl
    obtain ⟨⟨i, ip₄⟩, hi, hl⟩ := bind_eq_ok.mp hl
    simp only [pure_eq_ok, Except.ok.injEq, Prod.mk.injEq] at h hl
    rw [← hl.2] at hls
    have hf := readLocs_forward hls
    rw [← h]; exact ((readByte_forward hk).trans (readInt_forward hi)).trans hf

/-! ### One instruction -/

/-- What an instruction read at opcode byte `x`, with operands from `ip`, is like. -/
structure Decoded (f : Bytefile) (x : ℕ) (ip : ℤ) (inst : Inst) (next : ℤ) : Prop where
  forward : Forward f ip next
  end_iff : inst = .end_ ↔ x = opcodeEnd
  prologue_iff : inst.isPrologue = true ↔ x = opcodeBegin ∨ x = opcodeCBegin
  call_next : ∀ r o a, inst = .call r o a → r = next
  callc_next : ∀ r a, inst = .callc r a → r = next

/-- An instruction that is neither `END` nor a prologue nor a call. -/
def Inst.isOrdinary : Inst → Bool
  | .end_ | .begin _ _ | .cbegin _ _ | .call _ _ _ | .callc _ _ => false
  | _ => true

theorem Decoded.of_ordinary {f : Bytefile} {x : ℕ} {ip next : ℤ} {inst : Inst}
    (hx : x ≠ 22 ∧ x ≠ 82 ∧ x ≠ 83) (hf : Forward f ip next) (ho : inst.isOrdinary = true) :
    Decoded f x ip inst next where
  forward := hf
  end_iff := ⟨fun h => (by rw [h] at ho; cases ho), fun h => absurd h hx.1⟩
  prologue_iff := by
    constructor
    · intro h
      cases inst <;> simp [Inst.isOrdinary, Inst.isPrologue] at h ho
    · exact fun h => h.elim (absurd · hx.2.1) (absurd · hx.2.2)
  call_next := fun r o a h => by rw [h] at ho; cases ho
  callc_next := fun r a h => by rw [h] at ho; cases ho

theorem readInst1_ok {f : Bytefile} {ip : ℤ} {k : ℤ → Inst} {r : Inst × ℤ}
    (h : readInst1 f ip k = .ok r) : Forward f ip r.2 ∧ ∃ a, r.1 = k a := by
  obtain ⟨⟨a, ip₁⟩, ha, h⟩ := bind_eq_ok.mp h
  simp only [pure_eq_ok, Except.ok.injEq] at h
  rw [← h]; exact ⟨readInt_forward ha, a, rfl⟩

theorem readInst2_ok {f : Bytefile} {ip : ℤ} {k : ℤ → ℤ → Inst} {r : Inst × ℤ}
    (h : readInst2 f ip k = .ok r) : Forward f ip r.2 ∧ ∃ a b, r.1 = k a b := by
  obtain ⟨⟨a, ip₁⟩, ha, h⟩ := bind_eq_ok.mp h
  obtain ⟨⟨b, ip₂⟩, hb, h⟩ := bind_eq_ok.mp h
  simp only [pure_eq_ok, Except.ok.injEq] at h
  rw [← h]; exact ⟨(readInt_forward ha).trans (readInt_forward hb), a, b, rfl⟩

theorem readInstS_ok {f : Bytefile} {ip : ℤ} {k : ℤ → ℤ → Inst} {r : Inst × ℤ}
    (h : readInstS f ip k = .ok r) : Forward f ip r.2 ∧ ∃ a b, r.1 = k a b := by
  obtain ⟨⟨a, ip₁⟩, ha, h⟩ := bind_eq_ok.mp h
  obtain ⟨⟨b, ip₂⟩, hb, h⟩ := bind_eq_ok.mp h
  simp only [pure_eq_ok, Except.ok.injEq] at h
  rw [← h]; exact ⟨(readString_forward ha).trans (readInt_forward hb), a, b, rfl⟩

theorem tableInst_ok {α : Type} {f : Bytefile} {ip : ℤ} {a : Option α} {k : α → Inst} {r : Inst × ℤ}
    (h : tableInst ip a k = .ok r) :
    Forward f ip r.2 ∧ (r.1 = .noFunctor ∨ ∃ a, r.1 = k a) := by
  cases a with
  | none =>
    simp only [tableInst, Except.ok.injEq] at h
    rw [← h]; exact ⟨.refl f ip, Or.inl rfl⟩
  | some a =>
    simp only [tableInst, Except.ok.injEq] at h
    rw [← h]; exact ⟨.refl f ip, Or.inr ⟨a, rfl⟩⟩

theorem locationInst_ok {f : Bytefile} {ip : ℤ} {l : ℕ} {k : LocationEntry → Inst} {r : Inst × ℤ}
    (h : locationInst f ip l k = .ok r) :
    Forward f ip r.2 ∧ (r.1 = .noFunctor ∨ ∃ a, r.1 = k a) := by
  unfold locationInst at h
  split at h
  · obtain ⟨⟨a, ip₁⟩, ha, h⟩ := bind_eq_ok.mp h
    simp only [pure_eq_ok, Except.ok.injEq] at h
    rw [← h]; exact ⟨readInt_forward ha, Or.inr ⟨_, rfl⟩⟩
  · rw [Except.ok.injEq] at h
    rw [← h]; exact ⟨.refl f ip, Or.inl rfl⟩

theorem composedInst_decoded {f : Bytefile} {ip : ℤ} {x : ℕ} {inst : Inst} {next : ℤ}
    (hx : x ≠ 22 ∧ x ≠ 82 ∧ x ≠ 83) (h : composedInst f ip x = .ok (inst, next)) :
    Decoded f x ip inst next := by
  have table : ∀ {α : Type} {k : α → Inst}, (∀ a, (k a).isOrdinary = true) →
      Forward f ip next ∧ (inst = .noFunctor ∨ ∃ a, inst = k a) → Decoded f x ip inst next := by
    rintro α k hk ⟨hf, rfl | ⟨a, rfl⟩⟩
    · exact .of_ordinary hx hf rfl
    · exact .of_ordinary hx hf (hk a)
  unfold composedInst at h
  split at h
  · exact table (fun _ => rfl) (tableInst_ok h)
  · exact table (fun _ => rfl) (locationInst_ok h)
  · exact table (fun _ => rfl) (locationInst_ok h)
  · exact table (fun _ => rfl) (locationInst_ok h)
  · exact table (fun _ => rfl) (tableInst_ok h)
  · split at h
    · cases h; exact .of_ordinary hx (.refl f ip) rfl
    · cases h; exact .of_ordinary hx (.refl f ip) rfl
    · cases h; exact .of_ordinary hx (.refl f ip) rfl
    · cases h; exact .of_ordinary hx (.refl f ip) rfl
    · obtain ⟨hf, a, rfl⟩ := readInst1_ok h
      exact .of_ordinary hx hf rfl
    · cases h
  · cases h; exact .of_ordinary hx (.refl f ip) rfl
  · cases h

theorem opcodeInst_decoded {f : Bytefile} {ip : ℤ} {x : ℕ} {inst : Inst} {next : ℤ}
    (h : opcodeInst f ip x = .ok (inst, next)) : Decoded f x ip inst next := by
  unfold opcodeInst at h
  split at h
  case h_2 =>
    obtain ⟨⟨s, ip₁⟩, hs, h⟩ := bind_eq_ok.mp h
    cases h; exact .of_ordinary (by decide) (readString_forward hs) rfl
  case h_7 =>
    cases h
    exact ⟨.refl f ip, by simp [opcodeEnd], by simp [Inst.isPrologue, opcodeBegin, opcodeCBegin],
      by simp, by simp⟩
  case h_15 =>
    obtain ⟨hf, a, b, rfl⟩ := readInst2_ok h
    exact ⟨hf, by simp [opcodeEnd], by simp [Inst.isPrologue, opcodeBegin], by simp, by simp⟩
  case h_16 =>
    obtain ⟨hf, a, b, rfl⟩ := readInst2_ok h
    exact ⟨hf, by simp [opcodeEnd], by simp [Inst.isPrologue, opcodeCBegin], by simp, by simp⟩
  case h_17 =>
    obtain ⟨⟨a, ip₁⟩, ha, h⟩ := bind_eq_ok.mp h
    obtain ⟨⟨n, ip₂⟩, hn, h⟩ := bind_eq_ok.mp h
    obtain ⟨⟨ls, ip₃⟩, hls, h⟩ := bind_eq_ok.mp h
    cases h
    exact .of_ordinary (by decide)
      (((readInt_forward ha).trans (readInt_forward hn)).trans (readLocs_forward hls)) rfl
  case h_18 =>
    obtain ⟨⟨a, ip₁⟩, ha, h⟩ := bind_eq_ok.mp h
    cases h
    exact ⟨readInt_forward ha, by simp [opcodeEnd],
      by simp [Inst.isPrologue, opcodeBegin, opcodeCBegin], by simp, by simp⟩
  case h_19 =>
    obtain ⟨⟨a, ip₁⟩, ha, h⟩ := bind_eq_ok.mp h
    obtain ⟨⟨n, ip₂⟩, hn, h⟩ := bind_eq_ok.mp h
    cases h
    exact ⟨(readInt_forward ha).trans (readInt_forward hn), by simp [opcodeEnd],
      by simp [Inst.isPrologue, opcodeBegin, opcodeCBegin], by simp, by simp⟩
  case h_24 => exact composedInst_decoded ⟨‹_›, ‹_›, ‹_›⟩ h
  all_goals first
    | (obtain ⟨hf, a, rfl⟩ := readInst1_ok h; exact .of_ordinary (by decide) hf rfl)
    | (obtain ⟨hf, a, b, rfl⟩ := readInstS_ok h; exact .of_ordinary (by decide) hf rfl)
    | (obtain ⟨hf, a, b, rfl⟩ := readInst2_ok h; exact .of_ordinary (by decide) hf rfl)
    | (cases h; exact .of_ordinary (by decide) (.refl f ip) rfl)

/-- An instruction that `read_inst` decoded: where it is, and what it is like. -/
theorem readInst_decoded {f : Bytefile} {ip : ℤ} {inst : Inst} {next : ℤ}
    (h : readInst f ip = .ok (inst, next)) :
    0 ≤ ip ∧ ∃ b, rawByte f ip = .ok b ∧ Decoded f b (ip + 1) inst next ∧ InCode f (ip + 1) := by
  obtain ⟨⟨x, ip₁⟩, hx, h⟩ := bind_eq_ok.mp h
  obtain ⟨h0, hc, ⟨b, hb, rfl⟩, rfl⟩ := readByte_ok hx
  refine ⟨h0, b.toNat, ?_, opcodeInst_decoded h, hc⟩
  simp [rawByte, hb, orStop]

theorem readInst_lt {f : Bytefile} {ip : ℤ} {inst : Inst} {next : ℤ}
    (h : readInst f ip = .ok (inst, next)) : 0 ≤ ip ∧ ip < next ∧ InCode f next := by
  obtain ⟨h0, b, -, hd, hc⟩ := readInst_decoded h
  have := hd.forward.1
  exact ⟨h0, by omega, hd.forward.2 hc⟩

theorem readInst_end_iff {f : Bytefile} {ip : ℤ} {inst : Inst} {next : ℤ} {b : ℕ}
    (h : readInst f ip = .ok (inst, next)) (hb : rawByte f ip = .ok b) :
    inst = .end_ ↔ b = opcodeEnd := by
  obtain ⟨-, b', hb', hd, -⟩ := readInst_decoded h
  rw [hb, Except.ok.injEq] at hb'
  rw [hb']; exact hd.end_iff

theorem readInst_prologue_iff {f : Bytefile} {ip : ℤ} {inst : Inst} {next : ℤ} {b : ℕ}
    (h : readInst f ip = .ok (inst, next)) (hb : rawByte f ip = .ok b) :
    inst.isPrologue = true ↔ b = opcodeBegin ∨ b = opcodeCBegin := by
  obtain ⟨-, b', hb', hd, -⟩ := readInst_decoded h
  rw [hb, Except.ok.injEq] at hb'
  rw [hb']; exact hd.prologue_iff

theorem readInst_call {f : Bytefile} {ip r o a next : ℤ}
    (h : readInst f ip = .ok (.call r o a, next)) : r = next := by
  obtain ⟨-, b, -, hd, -⟩ := readInst_decoded h
  exact hd.call_next r o a rfl

theorem readInst_callc {f : Bytefile} {ip r a next : ℤ}
    (h : readInst f ip = .ok (.callc r a, next)) : r = next := by
  obtain ⟨-, b, -, hd, -⟩ := readInst_decoded h
  exact hd.callc_next r a rfl

/-! ### The range of an operand -/

/-- What an `int` can hold. -/
def IsInt (n : ℤ) : Prop := -2 ^ 31 ≤ n ∧ n < 2 ^ 31

theorem toInt32_isInt (n : ℤ) : IsInt (toInt32 n) := by
  have h1 := Int.le_bmod (x := n) (m := 2 ^ 32) (by decide)
  have h2 := Int.bmod_lt (x := n) (m := 2 ^ 32) (by decide)
  unfold IsInt toInt32
  omega

theorem toInt32_of_isInt {n : ℤ} (h : IsInt n) : toInt32 n = n := by
  unfold IsInt at h
  unfold toInt32
  rw [Int.bmod_def]
  split <;> omega

theorem bufferInt_isInt {f : Bytefile} {o n : ℤ} (h : f.bufferInt o = some n) : IsInt n := by
  simp only [Bytefile.bufferInt, Option.bind_eq_bind, Option.bind_eq_some_iff, Option.pure_def,
    Option.some.injEq] at h
  obtain ⟨_, -, _, -, _, -, _, -, rfl⟩ := h
  exact toInt32_isInt _

theorem readInt_isInt {f : Bytefile} {ip : ℤ} {r : ℤ × ℤ} (h : readInt f ip = .ok r) : IsInt r.1 := by
  obtain ⟨u, -, h⟩ := bind_eq_ok.mp h
  obtain ⟨n, hn, h⟩ := bind_eq_ok.mp h
  rw [orStop_eq_ok] at hn
  cases h
  exact bufferInt_isInt hn

/-- The operands of a prologue are `int`s. -/
theorem readInst_prologue_isInt {f : Bytefile} {ip next argc locc : ℤ} {inst : Inst}
    (h : readInst f ip = .ok (inst, next)) (hinst : inst = .begin argc locc ∨ inst = .cbegin argc locc) :
    IsInt argc ∧ IsInt locc := by
  obtain ⟨⟨x, ip₁⟩, -, h⟩ := bind_eq_ok.mp h
  have hp : inst.isPrologue = true := by rcases hinst with rfl | rfl <;> rfl
  have two : ∀ {k : ℤ → ℤ → Inst}, (∀ a b, k a b = inst → a = argc ∧ b = locc) →
      readInst2 f ip₁ k = .ok (inst, next) → IsInt argc ∧ IsInt locc := by
    intro k hk h
    obtain ⟨⟨a, ip₂⟩, ha, h⟩ := bind_eq_ok.mp h
    obtain ⟨⟨b, ip₃⟩, hb, h⟩ := bind_eq_ok.mp h
    simp only [pure_eq_ok, Except.ok.injEq, Prod.mk.injEq] at h
    obtain ⟨rfl, rfl⟩ := hk a b h.1
    exact ⟨readInt_isInt ha, readInt_isInt hb⟩
  rcases (opcodeInst_decoded h).prologue_iff.mp hp with rfl | rfl
  · refine two (k := .begin) (fun a b hab => ?_) h
    rcases hinst with rfl | rfl <;> simp_all
  · refine two (k := .cbegin) (fun a b hab => ?_) h
    rcases hinst with rfl | rfl <;> simp_all

/-- The global area of a file `read_file` accepts. -/
theorem readFile_globals {bytes : List UInt8} {f : Bytefile} (h : readFile bytes = .ok f) :
    0 ≤ f.globalAreaSize ∧ IsInt f.globalAreaSize := by
  obtain ⟨u, -, h⟩ := bind_eq_ok.mp h
  obtain ⟨u, -, h⟩ := bind_eq_ok.mp h
  obtain ⟨a, -, h⟩ := bind_eq_ok.mp h
  obtain ⟨b, hb, h⟩ := bind_eq_ok.mp h
  obtain ⟨c, -, h⟩ := bind_eq_ok.mp h
  obtain ⟨u, -, h⟩ := bind_eq_ok.mp h
  obtain ⟨u, -, h⟩ := bind_eq_ok.mp h
  obtain ⟨u, hpos, h⟩ := bind_eq_ok.mp h
  obtain ⟨u, -, h⟩ := bind_eq_ok.mp h
  rw [orStop_eq_ok] at hb
  rw [ensure_eq_ok] at hpos
  cases h
  exact ⟨hpos, bufferInt_isInt hb⟩

end Lama

import PlvmHomeworks.Tools.CodeOnly
import PlvmHomeworks.Tools.Frames

/-! The instruction grammar of the opcode tables, and what `read_inst` makes of it.

    An instruction is an opcode byte and its operands, one after another. `Encoded` says that the
    bytes at an address spell an instruction; the decoder reads exactly these, and besides them the
    strays: a low nibble that its table does not list, a negative number of captured variables, and
    a captured variable of an unknown kind. -/

namespace Lama
open Outcome

/-! ### The grammar -/

/-- An operand. -/
inductive Operand where
  | int (value : ℤ)
  | string (pos : ℤ)
  | loc (location : LocationEntry)
  deriving DecidableEq, Repr

def Operand.bytes : Operand → List UInt8
  | .int value => intBytes (toSize value)
  | .string pos => intBytes (toSize pos)
  | .loc location => UInt8.ofNat location.kind :: intBytes (toSize location.index)

/-- The values an operand can have; a string is a position inside the string table. -/
def Operand.Fits (f : Bytefile) : Operand → Prop
  | .int value => IsInt value
  | .string pos => IsInt pos ∧ 0 ≤ pos ∧ pos < f.stringtabSize
  | .loc location => location.kind < 256 ∧ IsInt location.index

/-- The code section has these bytes at `ip`. -/
def Bytefile.Holds (f : Bytefile) : ℤ → List UInt8 → Prop
  | _, [] => True
  | ip, b :: bs => f.codeByte ip = some b ∧ f.Holds (ip + 1) bs

/-- These operands stand at `ip`, inside the code section, and `next` is the address after them. -/
def Spelled (f : Bytefile) : ℤ → List Operand → ℤ → Prop
  | ip, [], next => next = ip
  | ip, o :: os, next =>
    0 ≤ ip ∧ InCode f (ip + o.bytes.length) ∧ o.Fits f ∧ f.Holds ip o.bytes ∧
      Spelled f (ip + o.bytes.length) os next

/-- The opcode bytes of an instruction. `STOP` has any low nibble. -/
def Inst.IsOpcode (x : ℕ) : Inst → Prop
  | .const _ => x = 16
  | .string _ => x = 17
  | .sexp _ _ => x = 18
  | .sti => x = 19
  | .sta => x = 20
  | .jmp _ => x = 21
  | .end_ => x = 22
  | .ret => x = 23
  | .drop => x = 24
  | .dup => x = 25
  | .swap => x = 26
  | .elem => x = 27
  | .cjmpz _ => x = 80
  | .cjmpnz _ => x = 81
  | .begin _ _ => x = 82
  | .cbegin _ _ => x = 83
  | .closure _ _ => x = 84
  | .callc _ _ => x = 85
  | .call _ _ _ => x = 86
  | .tag _ _ => x = 87
  | .array _ => x = 88
  | .fail _ _ => x = 89
  | .line _ => x = 90
  | .binop op => x / 16 = 0 ∧ Binop.ofNibble (x % 16) = some op
  | .ld location => x / 16 = 2 ∧ x % 16 = location.kind ∧ location.kind < 4
  | .lda location => x / 16 = 3 ∧ x % 16 = location.kind ∧ location.kind < 4
  | .st location => x / 16 = 4 ∧ x % 16 = location.kind ∧ location.kind < 4
  | .patt pattern => x / 16 = 6 ∧ Pattern.ofNibble (x % 16) = some pattern
  | .lread => x = 112
  | .lwrite => x = 113
  | .llength => x = 114
  | .lstring => x = 115
  | .barray _ => x = 116
  | .stop => x / 16 = 15
  | .noFunctor => False

/-- The operands of an instruction, in order. -/
def Inst.operands : Inst → List Operand
  | .const value | .jmp value | .cjmpz value | .cjmpnz value | .array value | .line value
  | .barray value => [.int value]
  | .string pos => [.string pos]
  | .sexp pos argc | .tag pos argc => [.string pos, .int argc]
  | .begin argc locc | .cbegin argc locc => [.int argc, .int locc]
  | .closure entry captured => .int entry :: .int captured.length :: captured.map .loc
  | .callc _ argc => [.int argc]
  | .call _ offset argc => [.int offset, .int argc]
  | .fail l c => [.int l, .int c]
  | .ld location | .lda location | .st location => [.int location.index]
  | _ => []

/-- The captured variables of a `CLOSURE`. -/
def Inst.captures : Inst → List LocationEntry
  | .closure _ captured => captured
  | _ => []

/-- A call is given the address after itself. -/
def Inst.Returns (next : ℤ) : Inst → Prop
  | .callc ip _ | .call ip _ _ => ip = next
  | _ => True

/-- The bytes at `ip` are the instruction `inst`, which ends before `next`. -/
def Encoded (f : Bytefile) (ip : ℤ) (inst : Inst) (next : ℤ) : Prop :=
  0 ≤ ip ∧ InCode f (ip + 1) ∧ ∃ x, f.codeByte ip = some x ∧ inst.IsOpcode x.toNat ∧
    Spelled f (ip + 1) inst.operands next ∧ (∀ l ∈ inst.captures, l.kind < 4) ∧ inst.Returns next

/-- `read_inst` applies its functor to the instruction at `ip` when there is one, and fails with a
    report when there is none. -/
def DecodesExactly (f : Bytefile) (ip : ℤ) : Prop :=
  (∀ inst next, Encoded f ip inst next → readInst f ip = .ok (inst, next)) ∧
    ((¬ ∃ inst next, Encoded f ip inst next) → Reported (readInst f ip))

/-! ### Reading operands -/

/-- The `int` in four bytes has these four bytes, and no other `int` has. -/
theorem leInt_iff (b₀ b₁ b₂ b₃ : UInt8) (n : ℤ) :
    leInt b₀ b₁ b₂ b₃ = n ↔ IsInt n ∧ intBytes (toSize n) = [b₀, b₁, b₂, b₃] := by
  have h0 := b₀.toNat_lt
  have h1 := b₁.toNat_lt
  have h2 := b₂.toNat_lt
  have h3 := b₃.toNat_lt
  have hbytes : ∀ m : ℕ, m < 2 ^ 32 → (intBytes m = [b₀, b₁, b₂, b₃] ↔
      m = b₀.toNat + 2 ^ 8 * b₁.toNat + 2 ^ 16 * b₂.toNat + 2 ^ 24 * b₃.toNat) := by
    intro m hm
    simp only [intBytes, List.cons.injEq, and_true, ← UInt8.toNat_inj, UInt8.toNat_ofNat']
    omega
  have hsize : toSize n < 2 ^ 32 := by unfold toSize; omega
  rw [hbytes _ hsize]
  constructor
  · rintro rfl
    refine ⟨toInt32_isInt _, ?_⟩
    have := toInt32_emod (b₀.toNat + 2 ^ 8 * b₁.toNat + 2 ^ 16 * b₂.toNat + 2 ^ 24 * b₃.toNat)
    rw [leInt, toSize]
    omega
  · rintro ⟨hint, hn⟩
    rw [← toInt32_of_isInt hint, leInt]
    refine toInt32_congr ?_
    unfold toSize at hn
    omega

variable {f : Bytefile} {ip next n pos : ℤ} {inst : Inst}

theorem bufferInt_iff :
    f.bufferInt (f.codePtr + ip) = some n ↔ IsInt n ∧ f.Holds ip (intBytes (toSize n)) := by
  have next : ∀ o : ℤ, f.codeByte (o + 1) = f.bufferByte (f.codePtr + o + 1) := by
    intro o
    rw [Bytefile.codeByte, Int.add_assoc]
  have e2 : f.bufferByte (f.codePtr + ip + 2) = f.codeByte (ip + 1 + 1) := by
    rw [Bytefile.codeByte]; congr 1; omega
  have e3 : f.bufferByte (f.codePtr + ip + 3) = f.codeByte (ip + 1 + 1 + 1) := by
    rw [Bytefile.codeByte]; congr 1; omega
  simp only [Bytefile.bufferInt, Option.bind_eq_bind, Option.bind_eq_some_iff, Option.pure_def,
    Option.some.injEq, e2, e3, ← next ip]
  constructor
  · rintro ⟨b₀, h0, b₁, h1, b₂, h2, b₃, h3, hn⟩
    obtain ⟨hint, hbytes⟩ := (leInt_iff b₀ b₁ b₂ b₃ n).mp hn
    rw [hbytes]
    exact ⟨hint, h0, h1, h2, h3, trivial⟩
  · rintro ⟨hint, h0, h1, h2, h3, -⟩
    exact ⟨_, h0, _, h1, _, h2, _, h3, (leInt_iff _ _ _ _ n).mpr ⟨hint, rfl⟩⟩

theorem Spelled.cons_iff {o : Operand} {os : List Operand} :
    Spelled f ip (o :: os) next ↔ ∃ mid, Spelled f ip [o] mid ∧ Spelled f mid os next := by
  constructor
  · rintro ⟨h0, hc, hf, hh, hs⟩
    exact ⟨_, ⟨h0, hc, hf, hh, rfl⟩, hs⟩
  · rintro ⟨mid, ⟨h0, hc, hf, hh, rfl⟩, hs⟩
    exact ⟨h0, hc, hf, hh, hs⟩

theorem Spelled.le_next {os : List Operand} (h : Spelled f ip os next) : next = ip ∨ ip + 4 ≤ next := by
  induction os generalizing ip with
  | nil => exact Or.inl h
  | cons o os ih =>
    obtain ⟨-, -, -, -, h⟩ := h
    have hlen : 4 ≤ o.bytes.length := by cases o <;> simp [Operand.bytes, intBytes]
    have := ih h
    omega

theorem readInt_iff : readInt f ip = .ok (n, next) ↔ Spelled f ip [.int n] next := by
  simp only [readInt, bind_eq_ok, assertCanRead_eq_ok, orStop_eq_ok, pure_eq_ok, Except.ok.injEq,
    Prod.mk.injEq, Spelled, Operand.bytes, Operand.Fits, bufferInt_iff]
  constructor
  · rintro ⟨-, ⟨h0, hc⟩, m, ⟨hint, hh⟩, rfl, rfl⟩
    exact ⟨h0, hc, hint, hh, rfl⟩
  · rintro ⟨h0, hc, hint, hh, rfl⟩
    exact ⟨(), ⟨h0, hc⟩, n, ⟨hint, hh⟩, rfl, rfl⟩

theorem readString_iff : readString f ip = .ok (pos, next) ↔ Spelled f ip [.string pos] next := by
  have hint : Spelled f ip [.string pos] next ↔
      Spelled f ip [.int pos] next ∧ 0 ≤ pos ∧ pos < f.stringtabSize := by
    simp only [Spelled, Operand.Fits, Operand.bytes]
    tauto
  rw [hint, ← readInt_iff]
  simp only [readString, getString, bind_eq_ok, ensure_eq_ok, pure_eq_ok, Except.ok.injEq,
    Prod.mk.injEq]
  constructor
  · rintro ⟨⟨a, mid⟩, ha, s, ⟨-, h0, -, hlt, rfl⟩, rfl, rfl⟩
    exact ⟨ha, h0, hlt⟩
  · rintro ⟨ha, h0, hlt⟩
    exact ⟨_, ha, pos, ⟨(), h0, (), hlt, rfl⟩, rfl, rfl⟩

theorem readByte_iff {k : ℕ} : readByte f ip = .ok (k, next) ↔
    0 ≤ ip ∧ InCode f (ip + 1) ∧ (∃ b, f.codeByte ip = some b ∧ k = b.toNat) ∧ next = ip + 1 := by
  refine ⟨readByte_ok, ?_⟩
  rintro ⟨h0, hc, ⟨b, hb, rfl⟩, rfl⟩
  rw [readByte, (assertCanRead_eq_ok (u := ())).mpr ⟨h0, hc⟩, ok_bind, hb]
  rfl

theorem readLoc_iff {l : LocationEntry} :
    readLoc f ip = .ok (l, next) ↔ Spelled f ip [.loc l] next := by
  have split : Spelled f ip [.loc l] next ↔ 0 ≤ ip ∧ InCode f (ip + 1) ∧
      (∃ b, f.codeByte ip = some b ∧ l.kind = b.toNat) ∧ Spelled f (ip + 1) [.int l.index] next := by
    simp only [Spelled, Operand.Fits, Operand.bytes, InCode, List.length_cons, Bytefile.Holds]
    constructor
    · rintro ⟨h0, hc, ⟨hk, hint⟩, ⟨hb, hh⟩, rfl⟩
      refine ⟨h0, by omega, ⟨_, hb, ?_⟩, by omega, by omega, hint, hh, by omega⟩
      rw [UInt8.toNat_ofNat', Nat.mod_eq_of_lt hk]
    · rintro ⟨h0, -, ⟨b, hb, hk⟩, -, hc, hint, hh, rfl⟩
      refine ⟨h0, by omega, ⟨hk ▸ b.toNat_lt, hint⟩, ⟨?_, hh⟩, by omega⟩
      rw [hb, hk, UInt8.ofNat_toNat]
  rw [split]
  simp only [readLoc, bind_eq_ok, pure_eq_ok, Except.ok.injEq, Prod.mk.injEq]
  constructor
  · rintro ⟨⟨k, mid⟩, hk, ⟨i, mid'⟩, hi, rfl, rfl⟩
    obtain ⟨h0, hc, hb, hmid⟩ := readByte_iff.mp hk
    subst hmid
    exact ⟨h0, hc, hb, readInt_iff.mp hi⟩
  · rintro ⟨h0, hc, hb, hs⟩
    exact ⟨(l.kind, ip + 1), readByte_iff.mpr ⟨h0, hc, hb, rfl⟩, (l.index, next), readInt_iff.mpr hs,
      rfl, rfl⟩

theorem readLocs_iff : ∀ {k : ℕ} {ip next : ℤ} {ls : List LocationEntry},
    readLocs f k ip = .ok (ls, next) ↔ ls.length = k ∧ Spelled f ip (ls.map .loc) next
  | 0, ip, next, ls => by
    simp only [readLocs, Except.ok.injEq, Prod.mk.injEq, List.length_eq_zero_iff]
    constructor
    · rintro ⟨rfl, rfl⟩
      exact ⟨rfl, rfl⟩
    · rintro ⟨rfl, hs⟩
      exact ⟨rfl, hs.symm⟩
  | k + 1, ip, next, ls => by
    simp only [readLocs, bind_eq_ok, pure_eq_ok, Except.ok.injEq, Prod.mk.injEq]
    constructor
    · rintro ⟨⟨l, mid⟩, hl, ⟨ls', mid'⟩, hls, rfl, rfl⟩
      obtain ⟨hlen, hs⟩ := readLocs_iff.mp hls
      exact ⟨by rw [List.length_cons, hlen], Spelled.cons_iff.mpr ⟨mid, readLoc_iff.mp hl, hs⟩⟩
    · rintro ⟨hlen, hs⟩
      cases ls with
      | nil => cases hlen
      | cons l ls =>
        obtain ⟨mid, hl, hs⟩ := Spelled.cons_iff.mp hs
        exact ⟨(l, mid), readLoc_iff.mpr hl, (ls, next),
          readLocs_iff.mpr ⟨Nat.succ.inj hlen, hs⟩, rfl, rfl⟩

/-! ### Reading an instruction -/

theorem readInst1_iff {k : ℤ → Inst} :
    readInst1 f ip k = .ok (inst, next) ↔ ∃ a, inst = k a ∧ Spelled f ip [.int a] next := by
  simp only [readInst1, bind_eq_ok, pure_eq_ok, Except.ok.injEq, Prod.mk.injEq]
  constructor
  · rintro ⟨⟨a, mid⟩, ha, rfl, rfl⟩
    exact ⟨a, rfl, readInt_iff.mp ha⟩
  · rintro ⟨a, rfl, ha⟩
    exact ⟨(a, next), readInt_iff.mpr ha, rfl, rfl⟩

theorem readInst2_iff {k : ℤ → ℤ → Inst} :
    readInst2 f ip k = .ok (inst, next) ↔
      ∃ a b, inst = k a b ∧ Spelled f ip [.int a, .int b] next := by
  simp only [readInst2, bind_eq_ok, pure_eq_ok, Except.ok.injEq, Prod.mk.injEq]
  constructor
  · rintro ⟨⟨a, mid⟩, ha, ⟨b, mid'⟩, hb, rfl, rfl⟩
    exact ⟨a, b, rfl, Spelled.cons_iff.mpr ⟨mid, readInt_iff.mp ha, readInt_iff.mp hb⟩⟩
  · rintro ⟨a, b, rfl, h⟩
    obtain ⟨mid, ha, hb⟩ := Spelled.cons_iff.mp h
    exact ⟨(a, mid), readInt_iff.mpr ha, (b, next), readInt_iff.mpr hb, rfl, rfl⟩

theorem readInstS_iff {k : ℤ → ℤ → Inst} :
    readInstS f ip k = .ok (inst, next) ↔
      ∃ a b, inst = k a b ∧ Spelled f ip [.string a, .int b] next := by
  simp only [readInstS, bind_eq_ok, pure_eq_ok, Except.ok.injEq, Prod.mk.injEq]
  constructor
  · rintro ⟨⟨a, mid⟩, ha, ⟨b, mid'⟩, hb, rfl, rfl⟩
    exact ⟨a, b, rfl, Spelled.cons_iff.mpr ⟨mid, readString_iff.mp ha, readInt_iff.mp hb⟩⟩
  · rintro ⟨a, b, rfl, h⟩
    obtain ⟨mid, ha, hb⟩ := Spelled.cons_iff.mp h
    exact ⟨(a, mid), readString_iff.mpr ha, (b, next), readInt_iff.mpr hb, rfl, rfl⟩

theorem tableInst_iff {α : Type} {a : Option α} {k : α → Inst} :
    tableInst ip a k = .ok (inst, next) ↔
      next = ip ∧ (a = none ∧ inst = .noFunctor ∨ ∃ b, a = some b ∧ inst = k b) := by
  cases a with
  | none =>
    constructor
    · intro h
      cases h
      exact ⟨rfl, Or.inl ⟨rfl, rfl⟩⟩
    · rintro ⟨rfl, ⟨-, rfl⟩ | ⟨b, hb, -⟩⟩
      · rfl
      · cases hb
  | some a =>
    constructor
    · intro h
      cases h
      exact ⟨rfl, Or.inr ⟨a, rfl, rfl⟩⟩
    · rintro ⟨rfl, ⟨hb, -⟩ | ⟨b, hb, rfl⟩⟩
      · cases hb
      · cases hb
        rfl

theorem Location.ofNibble_eq_none_iff {l : ℕ} : Location.ofNibble l = none ↔ 4 ≤ l := by
  rcases l with _ | _ | _ | _ | l <;> simp [Location.ofNibble]

theorem locationInst_iff {l : ℕ} {k : LocationEntry → Inst} :
    locationInst f ip l k = .ok (inst, next) ↔
      (4 ≤ l ∧ inst = .noFunctor ∧ next = ip) ∨
        (l < 4 ∧ ∃ i, inst = k ⟨l, i⟩ ∧ Spelled f ip [.int i] next) := by
  cases hl : Location.ofNibble l with
  | none =>
    have hlt := Location.ofNibble_eq_none_iff.mp hl
    simp only [locationInst, hl, Except.ok.injEq, Prod.mk.injEq]
    constructor
    · rintro ⟨rfl, rfl⟩
      exact Or.inl ⟨hlt, rfl, rfl⟩
    · rintro (⟨-, rfl, rfl⟩ | ⟨h, -⟩)
      · exact ⟨rfl, rfl⟩
      · omega
  | some location =>
    have hlt : ¬ 4 ≤ l := fun h => by rw [Location.ofNibble_eq_none_iff.mpr h] at hl; cases hl
    have hone : readInst1 f ip (fun i => k ⟨l, i⟩) = .ok (inst, next) ↔
        ∃ i, inst = k ⟨l, i⟩ ∧ Spelled f ip [.int i] next := readInst1_iff
    simp only [locationInst, hl]
    refine hone.trans ⟨fun h => Or.inr ⟨by omega, h⟩, ?_⟩
    rintro (⟨h, -⟩ | ⟨-, h⟩)
    · exact absurd h hlt
    · exact h

/-- An opcode byte of a group with a table, which does not list its low nibble. -/
def Unlisted (x : ℕ) : Prop :=
  (x / 16 = 0 ∧ Binop.ofNibble (x % 16) = none) ∨
    ((x / 16 = 2 ∨ x / 16 = 3 ∨ x / 16 = 4) ∧ 4 ≤ x % 16) ∨
    (x / 16 = 6 ∧ Pattern.ofNibble (x % 16) = none)

instance (x : ℕ) : Decidable (Unlisted x) := by
  unfold Unlisted; infer_instance

/-- What the decoder takes at opcode byte `x` with operands from `ip`: an instruction of the grammar
    (the kinds of captured variables apart), an unlisted opcode, or a negative count. -/
def Taken (f : Bytefile) (x : ℕ) (ip : ℤ) (inst : Inst) (next : ℤ) : Prop :=
  (inst.IsOpcode x ∧ Spelled f ip inst.operands next ∧ inst.Returns next) ∨
    (Unlisted x ∧ inst = .noFunctor ∧ next = ip) ∨
    (x = 84 ∧ ∃ entry n, inst = .closure entry [] ∧ n < 0 ∧ Spelled f ip [.int entry, .int n] next)

theorem composedInst_taken {x : ℕ} (h : composedInst f ip x = .ok (inst, next)) :
    Taken f x ip inst next := by
  have location : ∀ {k : LocationEntry → Inst}, (x / 16 = 2 ∨ x / 16 = 3 ∨ x / 16 = 4) →
      (∀ i, x % 16 < 4 → (k ⟨x % 16, i⟩).IsOpcode x ∧ (k ⟨x % 16, i⟩).operands = [.int i] ∧
        ∀ next, (k ⟨x % 16, i⟩).Returns next) →
      locationInst f ip (x % 16) k = .ok (inst, next) → Taken f x ip inst next := by
    intro k hx hk h
    rcases locationInst_iff.mp h with ⟨hl, rfl, rfl⟩ | ⟨hl, i, rfl, hs⟩
    · exact Or.inr (Or.inl ⟨Or.inr (Or.inl ⟨hx, hl⟩), rfl, rfl⟩)
    · obtain ⟨hop, hos, hret⟩ := hk i hl
      exact Or.inl ⟨hop, hos ▸ hs, hret next⟩
  unfold composedInst at h
  split at h
  case h_1 hx =>
    obtain ⟨rfl, ⟨hn, rfl⟩ | ⟨op, hop, rfl⟩⟩ := tableInst_iff.mp h
    · exact Or.inr (Or.inl ⟨Or.inl ⟨hx, hn⟩, rfl, rfl⟩)
    · exact Or.inl ⟨⟨hx, hop⟩, rfl, trivial⟩
  case h_2 hx =>
    exact location (k := .ld) (Or.inl hx) (fun i hl => ⟨⟨hx, rfl, hl⟩, rfl, fun _ => trivial⟩) h
  case h_3 hx =>
    exact location (k := .lda) (Or.inr (Or.inl hx))
      (fun i hl => ⟨⟨hx, rfl, hl⟩, rfl, fun _ => trivial⟩) h
  case h_4 hx =>
    exact location (k := .st) (Or.inr (Or.inr hx))
      (fun i hl => ⟨⟨hx, rfl, hl⟩, rfl, fun _ => trivial⟩) h
  case h_5 hx =>
    obtain ⟨rfl, ⟨hn, rfl⟩ | ⟨op, hop, rfl⟩⟩ := tableInst_iff.mp h
    · exact Or.inr (Or.inl ⟨Or.inr (Or.inr ⟨hx, hn⟩), rfl, rfl⟩)
    · exact Or.inl ⟨⟨hx, hop⟩, rfl, trivial⟩
  case h_6 hx =>
    split at h
    case h_5 hl =>
      obtain ⟨a, rfl, hs⟩ := readInst1_iff.mp h
      exact Or.inl ⟨by simp only [Inst.IsOpcode]; omega, hs, trivial⟩
    case h_6 => cases h
    all_goals
      cases h
      exact Or.inl ⟨by simp only [Inst.IsOpcode]; omega, rfl, trivial⟩
  case h_7 hx =>
    cases h
    exact Or.inl ⟨hx, rfl, trivial⟩
  case h_8 => cases h

/-- A group of the `default` branch holds no opcode of the `switch`. -/
theorem opcodeInst_composed {x : ℕ} (h : x / 16 ≠ 1 ∧ x / 16 ≠ 5) :
    opcodeInst f ip x = composedInst f ip x := by
  unfold opcodeInst
  split
  case h_24 => rfl
  all_goals omega

theorem opcodeInst_taken {x : ℕ} (h : opcodeInst f ip x = .ok (inst, next)) :
    Taken f x ip inst next := by
  have one : ∀ {k : ℤ → Inst}, readInst1 f ip k = .ok (inst, next) → (∀ a, (k a).IsOpcode x ∧
      (k a).operands = [.int a] ∧ (k a).Returns next) → Taken f x ip inst next := by
    intro k h hk
    obtain ⟨a, rfl, hs⟩ := readInst1_iff.mp h
    obtain ⟨hop, hos, hret⟩ := hk a
    exact Or.inl ⟨hop, hos ▸ hs, hret⟩
  have two : ∀ {k : ℤ → ℤ → Inst}, readInst2 f ip k = .ok (inst, next) →
      (∀ a b, (k a b).IsOpcode x ∧ (k a b).operands = [.int a, .int b] ∧ (k a b).Returns next) →
      Taken f x ip inst next := by
    intro k h hk
    obtain ⟨a, b, rfl, hs⟩ := readInst2_iff.mp h
    obtain ⟨hop, hos, hret⟩ := hk a b
    exact Or.inl ⟨hop, hos ▸ hs, hret⟩
  have named : ∀ {k : ℤ → ℤ → Inst}, readInstS f ip k = .ok (inst, next) →
      (∀ a b, (k a b).IsOpcode x ∧ (k a b).operands = [.string a, .int b] ∧ (k a b).Returns next) →
      Taken f x ip inst next := by
    intro k h hk
    obtain ⟨a, b, rfl, hs⟩ := readInstS_iff.mp h
    obtain ⟨hop, hos, hret⟩ := hk a b
    exact Or.inl ⟨hop, hos ▸ hs, hret⟩
  unfold opcodeInst at h
  split at h
  case h_1 | h_6 | h_13 | h_14 | h_21 | h_23 => exact one h fun _ => ⟨rfl, rfl, trivial⟩
  case h_15 | h_16 | h_22 => exact two h fun _ _ => ⟨rfl, rfl, trivial⟩
  case h_3 | h_20 => exact named h fun _ _ => ⟨rfl, rfl, trivial⟩
  case h_2 =>
    obtain ⟨⟨s, mid⟩, hs, h⟩ := bind_eq_ok.mp h
    cases h
    exact Or.inl ⟨rfl, readString_iff.mp hs, trivial⟩
  case h_17 =>
    obtain ⟨⟨entry, mid⟩, he, h⟩ := bind_eq_ok.mp h
    obtain ⟨⟨n, mid'⟩, hn, h⟩ := bind_eq_ok.mp h
    obtain ⟨⟨captured, last⟩, hc, h⟩ := bind_eq_ok.mp h
    cases h
    obtain ⟨hlen, hs⟩ := readLocs_iff.mp hc
    have hhead := readInt_iff.mp he
    have hcount := readInt_iff.mp hn
    by_cases hneg : n < 0
    · -- a negative count reads no location
      obtain rfl : captured = [] := List.length_eq_zero_iff.mp (by omega)
      cases hs
      exact Or.inr (Or.inr ⟨rfl, entry, n, rfl, hneg, Spelled.cons_iff.mpr ⟨mid, hhead, hcount⟩⟩)
    · obtain rfl : n = captured.length := by omega
      exact Or.inl ⟨rfl, Spelled.cons_iff.mpr ⟨mid, hhead, Spelled.cons_iff.mpr ⟨mid', hcount, hs⟩⟩,
        trivial⟩
  case h_18 =>
    obtain ⟨⟨a, mid⟩, ha, h⟩ := bind_eq_ok.mp h
    cases h
    exact Or.inl ⟨rfl, readInt_iff.mp ha, rfl⟩
  case h_19 =>
    obtain ⟨⟨o, mid⟩, ho, h⟩ := bind_eq_ok.mp h
    obtain ⟨⟨a, mid'⟩, ha, h⟩ := bind_eq_ok.mp h
    cases h
    exact Or.inl ⟨rfl, Spelled.cons_iff.mpr ⟨mid, readInt_iff.mp ho, readInt_iff.mp ha⟩, rfl⟩
  case h_24 => exact composedInst_taken h
  all_goals
    cases h
    exact Or.inl ⟨rfl, rfl, trivial⟩

/-- An instruction of the grammar is read whatever the kinds of its captured variables. -/
theorem opcodeInst_of_spelled {x : ℕ} (hx : inst.IsOpcode x) (hs : Spelled f ip inst.operands next)
    (hret : inst.Returns next) : opcodeInst f ip x = .ok (inst, next) := by
  have location : ∀ {k : LocationEntry → Inst} {l : LocationEntry}, x % 16 = l.kind ∧ l.kind < 4 →
      Spelled f ip [.int l.index] next →
      locationInst f ip (x % 16) k = .ok (k l, next) := fun hl hs =>
    locationInst_iff.mpr (Or.inr ⟨hl.1 ▸ hl.2, _, by rw [hl.1], hs⟩)
  cases inst with
  | const a | jmp a | cjmpz a | cjmpnz a | array a | line a =>
    subst hx
    exact readInst1_iff.mpr ⟨a, rfl, hs⟩
  | begin a b | cbegin a b | fail a b =>
    subst hx
    exact readInst2_iff.mpr ⟨a, b, rfl, hs⟩
  | sexp a b | tag a b =>
    subst hx
    exact readInstS_iff.mpr ⟨a, b, rfl, hs⟩
  | sti | sta | end_ | ret | drop | dup | swap | elem =>
    subst hx
    cases hs
    rfl
  | string pos =>
    subst hx
    simp only [opcodeInst]
    rw [readString_iff.mpr hs]
    rfl
  | closure entry captured =>
    subst hx
    obtain ⟨mid, he, hs⟩ := Spelled.cons_iff.mp hs
    obtain ⟨mid', hn, hs⟩ := Spelled.cons_iff.mp hs
    simp only [opcodeInst]
    rw [readInt_iff.mpr he, ok_bind, readInt_iff.mpr hn, ok_bind, Int.toNat_natCast,
      readLocs_iff.mpr ⟨rfl, hs⟩]
    rfl
  | callc r argc =>
    subst hx
    cases hret
    simp only [opcodeInst]
    rw [readInt_iff.mpr hs]
    rfl
  | call r offset argc =>
    subst hx
    cases hret
    obtain ⟨mid, ho, ha⟩ := Spelled.cons_iff.mp hs
    simp only [opcodeInst]
    rw [readInt_iff.mpr ho, ok_bind, readInt_iff.mpr ha]
    rfl
  | binop op =>
    obtain ⟨hx, hop⟩ := hx
    cases hs
    rw [opcodeInst_composed ⟨by omega, by omega⟩, composedInst, hx, hop]
    rfl
  | patt pattern =>
    obtain ⟨hx, hop⟩ := hx
    cases hs
    rw [opcodeInst_composed ⟨by omega, by omega⟩, composedInst, hx, hop]
    rfl
  | ld l | lda l | st l =>
    obtain ⟨hx, hl⟩ := hx
    rw [opcodeInst_composed ⟨by omega, by omega⟩, composedInst, hx]
    exact location hl hs
  | lread | lwrite | llength | lstring =>
    subst hx
    cases hs
    rfl
  | barray n =>
    subst hx
    exact readInst1_iff.mpr ⟨n, rfl, hs⟩
  | stop =>
    cases hs
    have hx : x / 16 = 15 := hx
    rw [opcodeInst_composed ⟨by omega, by omega⟩, composedInst, hx]
    rfl
  | noFunctor => cases hx

/-- A low nibble outside its table is passed over: no functor is applied. -/
theorem opcodeInst_unlisted {x : ℕ} (h : Unlisted x) : opcodeInst f ip x = .ok (.noFunctor, ip) := by
  rcases h with ⟨hx, hn⟩ | ⟨hx, hl⟩ | ⟨hx, hn⟩
  · rw [opcodeInst_composed ⟨by omega, by omega⟩, composedInst, hx, hn]
    rfl
  · have skip : ∀ k, locationInst f ip (x % 16) k = .ok (.noFunctor, ip) := fun k =>
      locationInst_iff.mpr (Or.inl ⟨hl, rfl, rfl⟩)
    rw [opcodeInst_composed ⟨by omega, by omega⟩, composedInst]
    rcases hx with hx | hx | hx <;> rw [hx] <;> exact skip _
  · rw [opcodeInst_composed ⟨by omega, by omega⟩, composedInst, hx, hn]
    rfl

/-- A negative count is read as no captured variables. -/
theorem opcodeInst_negative {entry n : ℤ} (hn : n < 0)
    (hs : Spelled f ip [.int entry, .int n] next) :
    opcodeInst f ip 84 = .ok (.closure entry [], next) := by
  obtain ⟨mid, he, hcount⟩ := Spelled.cons_iff.mp hs
  simp only [opcodeInst]
  rw [readInt_iff.mpr he, ok_bind, readInt_iff.mpr hcount, ok_bind, Int.toNat_of_nonpos (by omega)]
  rfl

/-! ### The decoder and the grammar -/

theorem readInst_iff : readInst f ip = .ok (inst, next) ↔ 0 ≤ ip ∧ InCode f (ip + 1) ∧
    ∃ x, f.codeByte ip = some x ∧ opcodeInst f (ip + 1) x.toNat = .ok (inst, next) := by
  simp only [readInst, bind_eq_ok]
  constructor
  · rintro ⟨⟨k, mid⟩, hk, h⟩
    obtain ⟨h0, hc, ⟨x, hx, hkx⟩, hmid⟩ := readByte_iff.mp hk
    subst hkx hmid
    exact ⟨h0, hc, x, hx, h⟩
  · rintro ⟨h0, hc, x, hx, h⟩
    exact ⟨(x.toNat, ip + 1), readByte_iff.mpr ⟨h0, hc, ⟨x, hx, rfl⟩, rfl⟩, h⟩

/-- The byte an instruction was decoded from. -/
theorem readInst_taken (h : readInst f ip = .ok (inst, next)) :
    ∃ x, rawByte f ip = .ok x ∧ Taken f x (ip + 1) inst next := by
  obtain ⟨-, -, x, hx, h⟩ := readInst_iff.mp h
  exact ⟨x.toNat, by simp [rawByte, hx, orStop], opcodeInst_taken h⟩

/-- Decoding undoes encoding. -/
theorem readInst_of_encoded (h : Encoded f ip inst next) : readInst f ip = .ok (inst, next) := by
  obtain ⟨h0, hc, x, hx, hop, hs, -, hret⟩ := h
  exact readInst_iff.mpr ⟨h0, hc, x, hx, opcodeInst_of_spelled hop hs hret⟩

/-- The bytes at `ip` that the decoder takes although they are no instruction: an opcode that its
    table does not list, and `CLOSURE` with a negative count or with a captured variable of an
    unknown kind. -/
def Stray (f : Bytefile) (ip : ℤ) : Prop :=
  0 ≤ ip ∧ InCode f (ip + 1) ∧ ∃ x, f.codeByte ip = some x ∧
    (Unlisted x.toNat ∨ x.toNat = 84 ∧ ∃ entry n mid, Spelled f (ip + 1) [.int entry, .int n] mid ∧
      (n < 0 ∨ ∃ (captured : List LocationEntry) (next : ℤ), captured.length = n ∧
        Spelled f mid (captured.map .loc) next ∧ ∃ l ∈ captured, 4 ≤ l.kind))

theorem encoded_of_readInst (hstray : ¬ Stray f ip) (h : readInst f ip = .ok (inst, next)) :
    Encoded f ip inst next := by
  obtain ⟨h0, hc, x, hx, h⟩ := readInst_iff.mp h
  rcases opcodeInst_taken h with ⟨hop, hs, hret⟩ | ⟨hu, -, -⟩ | ⟨h84, entry, n, -, hneg, hs⟩
  · refine ⟨h0, hc, x, hx, hop, hs, fun l hl => ?_, hret⟩
    by_contra hkind
    cases inst with
    | closure entry captured =>
      obtain ⟨mid, he, hs⟩ := Spelled.cons_iff.mp hs
      obtain ⟨mid', hn, hs⟩ := Spelled.cons_iff.mp hs
      exact hstray ⟨h0, hc, x, hx, Or.inr ⟨hop, entry, _, mid', Spelled.cons_iff.mpr ⟨mid, he, hn⟩,
        Or.inr ⟨captured, next, rfl, hs, l, hl, by omega⟩⟩⟩
    | _ => cases hl
  · exact absurd ⟨h0, hc, x, hx, Or.inl hu⟩ hstray
  · exact absurd ⟨h0, hc, x, hx, Or.inr ⟨h84, entry, n, next, hs, Or.inl hneg⟩⟩ hstray

/-- The decoder takes a stray, and no instruction stands there. -/
theorem Stray.taken (h : Stray f ip) : (∃ inst next, readInst f ip = .ok (inst, next)) ∧
    ¬ ∃ inst next, Encoded f ip inst next := by
  obtain ⟨h0, hc, x, hx, hcase⟩ := h
  have refute : ∀ {inst : Inst} {next : ℤ}, opcodeInst f (ip + 1) x.toNat = .ok (inst, next) →
      ¬ Encoded f ip inst next → (∃ inst next, readInst f ip = .ok (inst, next)) ∧
        ¬ ∃ inst next, Encoded f ip inst next := by
    intro inst next ho hno
    have hread := readInst_iff.mpr ⟨h0, hc, x, hx, ho⟩
    refine ⟨⟨inst, next, hread⟩, fun ⟨inst', next', he⟩ => ?_⟩
    have heq := readInst_of_encoded he
    rw [hread] at heq
    cases heq
    exact hno he
  rcases hcase with hu | ⟨h84, entry, n, mid, hs, hneg | ⟨captured, next, hlen, hls, l, hl, hkind⟩⟩
  · refine refute (opcodeInst_unlisted hu) ?_
    rintro ⟨-, -, y, -, hop, -⟩
    exact hop
  · refine refute (h84 ▸ opcodeInst_negative hneg hs) ?_
    rintro ⟨-, -, y, -, -, hs', -⟩
    -- the count is read once: it is not both negative and 0
    obtain ⟨m, he, hn⟩ := Spelled.cons_iff.mp hs
    obtain ⟨m', he', hn'⟩ := Spelled.cons_iff.mp hs'
    have hm := (readInt_iff.mpr he).symm.trans (readInt_iff.mpr he')
    cases hm
    have hcount := (readInt_iff.mpr hn).symm.trans (readInt_iff.mpr hn')
    cases hcount
    exact absurd hneg (by decide)
  · subst hlen
    obtain ⟨m, he, hn⟩ := Spelled.cons_iff.mp hs
    have hread : opcodeInst f (ip + 1) x.toNat = .ok (.closure entry captured, next) :=
      opcodeInst_of_spelled h84 (Spelled.cons_iff.mpr ⟨m, he, Spelled.cons_iff.mpr ⟨mid, hn, hls⟩⟩)
        trivial
    refine refute hread ?_
    rintro ⟨-, -, y, -, -, -, hkinds, -⟩
    have := hkinds l hl
    omega

/-- The decoder accepts exactly the grammar at `ip` if and only if no stray stands there. -/
theorem decodes_exactly_iff (hf : CodePlaced f) (ip : ℤ) : DecodesExactly f ip ↔ ¬ Stray f ip := by
  constructor
  · rintro ⟨-, hfail⟩ hstray
    obtain ⟨⟨inst, next, hread⟩, hno⟩ := hstray.taken
    obtain ⟨text, args, herr⟩ := hfail hno
    rw [hread] at herr
    cases herr
  · refine fun hstray => ⟨fun inst next => readInst_of_encoded, fun hno => ?_⟩
    cases hread : readInst f ip with
    | ok r => exact absurd ⟨r.1, r.2, encoded_of_readInst hstray hread⟩ hno
    | error stop =>
      have hfail := readInst_errorsIn hf ip stop hread
      cases stop with
      | fail text args => exact ⟨text, args, rfl⟩
      | _ => cases hfail

/-- `CLOSURE 19` with `L(0)` and `C(1)`. -/
def captureTwo : List UInt8 :=
  84 :: intBytes 19 ++ intBytes 2 ++ 1 :: intBytes 0 ++ 3 :: intBytes 1

theorem captureTwo_encoded : Encoded (program 0 captureTwo) 0 (.closure 19 [⟨1, 0⟩, ⟨3, 1⟩]) 19 := by
  have hentry : readInt (program 0 captureTwo) 1 = .ok (19, 5) := by decide +kernel
  have hcount : readInt (program 0 captureTwo) 5 = .ok (2, 9) := by decide +kernel
  have hlocs : readLocs (program 0 captureTwo) 2 9 = .ok ([⟨1, 0⟩, ⟨3, 1⟩], 19) := by decide +kernel
  refine ⟨le_rfl, by unfold InCode; decide, 84, by decide +kernel, rfl, ?_, by decide, trivial⟩
  exact Spelled.cons_iff.mpr ⟨5, readInt_iff.mp hentry,
    Spelled.cons_iff.mpr ⟨9, readInt_iff.mp hcount, (readLocs_iff.mp hlocs).2⟩⟩

theorem decodes_exactly_iff_captureTwo : DecodesExactly (program 0 captureTwo) 0 :=
  (decodes_exactly_iff ⟨by decide, by decide, by decide, by decide⟩ 0).mpr fun h =>
    h.taken.2 ⟨_, _, captureTwo_encoded⟩
/-- `BEGIN 0 0`, the byte 0, `END`. -/
def strayByte : List UInt8 := 82 :: intBytes 0 ++ intBytes 0 ++ [0, 22]

/-- The byte 0 is no `BINOP`, and yet the file is accepted and the byte passed over. -/
theorem strayByte_taken : loadProgram 30 (fun _ _ => 0) (programBytes 0 strayByte) =
      .ok (program 0 strayByte, 0) ∧
    readInst (program 0 strayByte) 9 = .ok (.noFunctor, 10) ∧
    ¬ DecodesExactly (program 0 strayByte) 9 := by
  have hread : readInst (program 0 strayByte) 9 = .ok (.noFunctor, 10) := by decide +kernel
  refine ⟨by decide +kernel, hread, fun ⟨_, hfail⟩ => ?_⟩
  obtain ⟨text, args, herr⟩ := hfail (by
    rintro ⟨inst, next, he⟩
    have heq := readInst_of_encoded he
    rw [hread] at heq
    cases heq
    obtain ⟨-, -, x, -, hop, -⟩ := he
    exact hop)
  rw [hread] at herr
  cases herr

end Lama

import PlvmHomeworks.Tools.Interprete

/-! What one step of the interpreter does to the stacks, instruction by instruction.

    An instruction of a frame pops `pops` operands and pushes `pushes`; a prologue reserves locals, a
    call pushes a frame, `END` and `RET` pop one. `step_cases` says that there is nothing else. -/

namespace Lama
open Outcome

/-! ### The stack operations -/

def State.push (s : State) (v : Word) : State :=
  { s with mem := s.mem.setRam s.top v, top := s.top - 1 }

def State.drop (s : State) (n : ℕ) : State := { s with top := s.top + n }

def State.withHeap (s : State) (h : MemoryChunk) : State := { s with mem := { s.mem with heap := h } }

section
variable (s : State) (v : Word) (n m : ℕ) (h h' : MemoryChunk) (a : ℕ)

@[simp] theorem State.push_top : (s.push v).top = s.top - 1 := rfl
@[simp] theorem State.push_cstack : (s.push v).cstack = s.cstack := rfl
@[simp] theorem State.push_ctop : (s.push v).ctop = s.ctop := rfl
@[simp] theorem State.push_globalsCount : (s.push v).globalsCount = s.globalsCount := rfl
@[simp] theorem State.push_heap : (s.push v).mem.heap = s.mem.heap := rfl
@[simp] theorem State.push_ram :
    (s.push v).mem.ram a = if a = s.top then v else s.mem.ram a := rfl
@[simp] theorem State.drop_top : (s.drop n).top = s.top + n := rfl
@[simp] theorem State.drop_cstack : (s.drop n).cstack = s.cstack := rfl
@[simp] theorem State.drop_ctop : (s.drop n).ctop = s.ctop := rfl
@[simp] theorem State.drop_globalsCount : (s.drop n).globalsCount = s.globalsCount := rfl
@[simp] theorem State.drop_mem : (s.drop n).mem = s.mem := rfl
@[simp] theorem State.withHeap_top : (s.withHeap h).top = s.top := rfl
@[simp] theorem State.withHeap_cstack : (s.withHeap h).cstack = s.cstack := rfl
@[simp] theorem State.withHeap_ctop : (s.withHeap h).ctop = s.ctop := rfl
@[simp] theorem State.withHeap_globalsCount : (s.withHeap h).globalsCount = s.globalsCount := rfl
@[simp] theorem State.withHeap_ram : (s.withHeap h).mem.ram = s.mem.ram := rfl
@[simp] theorem State.withHeap_heap : (s.withHeap h).mem.heap = h := rfl
@[simp] theorem State.withHeap_withHeap : (s.withHeap h).withHeap h' = s.withHeap h' := rfl
theorem State.drop_drop : (s.drop n).drop m = s.drop (n + m) := by
  simp [State.drop, Nat.add_assoc]
theorem State.drop_withHeap : (s.drop n).withHeap h = (s.withHeap h).drop n := rfl
end

variable {im : Image} {e : Env} {f : Bytefile} {s s' : State} {v : Word}

theorem Image.bottom_lt (im : Image) : im.bottom < 2 ^ 30 := im.vstack_fits

theorem inStack_iff {a : ℕ} : im.inStack a ↔ im.vstack ≤ a ∧ a < im.bottom := Iff.rfl

theorem ptrAdd_lt (p : ℕ) (n : ℤ) : ptrAdd p n < 2 ^ 30 := by
  unfold ptrAdd; omega

/-- Pointer arithmetic that stays in the address space. -/
theorem ptrAdd_eq {p : ℕ} {n : ℤ} (h0 : 0 ≤ p + n) (h1 : p + n < 2 ^ 30) :
    (ptrAdd p n : ℤ) = p + n := by
  unfold ptrAdd; omega

/-- The slot above the top, when it is one of `__vstack`. -/
theorem ptrAdd_one (ht : s.top < 2 ^ 30) (h : im.inStack (ptrAdd s.top 1)) :
    ptrAdd s.top 1 = s.top + 1 ∧ im.vstack ≤ s.top + 1 ∧ s.top + 1 < im.bottom := by
  have hpos := im.vstack_pos
  have hlo : im.vstack ≤ ptrAdd s.top 1 := h.1
  have hhi : ptrAdd s.top 1 < im.bottom := h.2
  unfold ptrAdd at *
  omega

theorem readSlot_ok {a : ℕ} (h : readSlot im s a = .ok v) : im.inStack a ∧ v = s.mem.ram a := by
  obtain ⟨u, hc, h⟩ := bind_eq_ok.mp h
  rw [ensure_eq_ok] at hc
  cases h
  exact ⟨hc, rfl⟩

theorem vstackPush_ok (h : vstackPush im s v = .ok s') :
    im.vstack < s.top ∧ s.top < im.bottom ∧ s' = s.push v := by
  obtain ⟨u, hc, h⟩ := bind_eq_ok.mp h
  obtain ⟨s₁, hw, h⟩ := bind_eq_ok.mp h
  obtain ⟨u, hin, hw⟩ := bind_eq_ok.mp hw
  rw [ensure_eq_ok] at hc hin
  cases hw
  cases h
  exact ⟨hc, hin.2, rfl⟩

theorem vstackPop_ok (ht : s.top < 2 ^ 30) {p : Word × State} (h : vstackPop im s = .ok p) :
    im.vstack ≤ s.top + 1 ∧ s.top + 1 < im.bottom ∧ p = (s.mem.ram (s.top + 1), s.drop 1) := by
  obtain ⟨u, -, h⟩ := bind_eq_ok.mp h
  obtain ⟨v, hr, h⟩ := bind_eq_ok.mp h
  obtain ⟨hin, rfl⟩ := readSlot_ok hr
  obtain ⟨he, hlo, hhi⟩ := ptrAdd_one ht hin
  cases h
  exact ⟨hlo, hhi, by rw [he]; rfl⟩

theorem readSlot_of {a : ℕ} (h : im.inStack a) : readSlot im s a = .ok (s.mem.ram a) := by
  rw [readSlot, ensure_of h]
  rfl

theorem vstackPush_of (hlo : im.vstack < s.top) (hhi : s.top < im.bottom) :
    vstackPush im s v = .ok (s.push v) := by
  rw [vstackPush, ensure_of hlo, ok_bind, writeSlot, ensure_of ⟨Nat.le_of_lt hlo, hhi⟩]
  rfl

theorem vstackPop_of (hlo : im.vstack ≤ s.top + 1) (hhi : s.top + 1 < im.bottom) :
    vstackPop im s = .ok (s.mem.ram (s.top + 1), s.drop 1) := by
  have hb := im.bottom_lt
  have he : ptrAdd s.top 1 = s.top + 1 := by unfold ptrAdd; omega
  rw [vstackPop, he, ensure_of (by omega), ok_bind, readSlot_of ⟨hlo, hhi⟩]
  rfl

theorem storeHeap_ok {a : ℕ} (h : storeHeap s a v = .ok s') : ∃ g, s' = s.withHeap g := by
  obtain ⟨g, -, h⟩ := bind_eq_ok.mp h
  cases h
  exact ⟨g, rfl⟩

theorem storeWords_ok : ∀ {ws : List Word} {a : ℕ} {s s' : State}, storeWords a ws s = .ok s' →
    ∃ g, s' = s.withHeap g
  | [], _, s, s', h => by cases h; exact ⟨_, rfl⟩
  | w :: ws, a, s, s', h => by
    obtain ⟨s₁, h₁, h⟩ := bind_eq_ok.mp h
    obtain ⟨g₁, rfl⟩ := storeHeap_ok h₁
    obtain ⟨g, rfl⟩ := storeWords_ok h
    exact ⟨g, rfl⟩

theorem popInto_ok {contents lo : ℕ} : ∀ {n : ℕ} {s s' : State}, s.top < 2 ^ 30 →
    popInto im contents lo n s = .ok s' →
      (∃ g, s' = (s.drop n).withHeap g) ∧ (0 < n → s.top + n < im.bottom)
  | 0, s, s', _, h => by cases h; exact ⟨⟨_, rfl⟩, fun h => absurd h (Nat.lt_irrefl 0)⟩
  | n + 1, s, s', ht, h => by
    obtain ⟨⟨v, s₁⟩, hp, h⟩ := bind_eq_ok.mp h
    obtain ⟨-, hhi, hp⟩ := vstackPop_ok ht hp
    cases hp
    obtain ⟨s₂, hs, h⟩ := bind_eq_ok.mp h
    obtain ⟨g₁, rfl⟩ := storeHeap_ok hs
    have hb := im.bottom_lt
    obtain ⟨⟨g, rfl⟩, hroom⟩ := popInto_ok (by simp; omega) h
    refine ⟨⟨g, ?_⟩, fun _ => ?_⟩
    · rw [State.drop_withHeap, State.withHeap_withHeap, ← State.drop_withHeap, State.drop_drop,
        Nat.add_comm]
    · rcases Nat.eq_zero_or_pos n with rfl | hn
      · exact hhi
      · have := hroom hn
        simp at this
        omega

/-- A store changes one slot, or the heap. -/
theorem storeWord_ok {a : ℕ} (h : storeWord im s a v = .ok s') :
    im.inStack a ∧ s' = { s with mem := s.mem.setRam a v } ∨ ¬ im.inStack a ∧ ∃ g, s' = s.withHeap g := by
  unfold storeWord at h
  split at h
  · cases h; exact Or.inl ⟨‹_›, rfl⟩
  · obtain ⟨g, -, h⟩ := bind_eq_ok.mp h
    cases h
    exact Or.inr ⟨‹_›, g, rfl⟩

/-- `Bsta` is one store. -/
theorem bsta_ok {x i w : Word} (h : bsta im s w i x = .ok s') :
    ∃ a u, storeWord im s a u = .ok s' := by
  unfold bsta at h
  split at h
  · obtain ⟨u, -, h⟩ := bind_eq_ok.mp h
    obtain ⟨tag, -, h⟩ := bind_eq_ok.mp h
    obtain ⟨a, -, h⟩ := bind_eq_ok.mp h
    dsimp only at h
    split at h
    · obtain ⟨w, -, h⟩ := bind_eq_ok.mp h
      exact ⟨_, _, h⟩
    · split at h
      · exact ⟨_, _, h⟩
      · exact ⟨_, _, h⟩
  · obtain ⟨a, -, h⟩ := bind_eq_ok.mp h
    exact ⟨_, _, h⟩

/-! ### What an instruction pops and pushes -/

/-- The operands an instruction takes off its frame. -/
def Inst.pops : Inst → ℕ
  | .sexp _ n | .barray n => n.toNat
  | .sta => 3
  | .sti | .swap | .elem | .binop _ | .patt .string => 2
  | .drop | .cjmpz _ | .cjmpnz _ | .tag _ _ | .array _ | .fail _ _ | .patt _ | .lwrite | .llength
  | .lstring => 1
  | _ => 0

/-- The operands it leaves there. -/
def Inst.pushes : Inst → ℕ
  | .lda _ | .swap => 2
  | .const _ | .string _ | .sexp _ _ | .barray _ | .sti | .sta | .dup | .elem | .closure _ _
  | .tag _ _ | .array _ | .binop _ | .ld _ | .patt _ | .lread | .lwrite | .llength | .lstring => 1
  | _ => 0

/-- Neither a prologue nor a call nor the end of a call. -/
def Inst.isPlain : Inst → Bool
  | .end_ | .ret | .begin _ _ | .cbegin _ _ | .call _ _ _ | .callc _ _ => false
  | _ => true

theorem Inst.isPlain_not_prologue {inst : Inst} (h : inst.isPlain = true) :
    inst.isPrologue ≠ true := by
  cases inst <;> first | exact Bool.noConfusion | exact Bool.noConfusion h

/-- The instructions that store through an address. -/
def Inst.isStore : Inst → Bool
  | .st _ | .sti | .sta => true
  | _ => false

/-- The instructions that allocate. -/
def Inst.allocates : Inst → Bool
  | .string _ | .sexp _ _ | .closure _ _ | .barray _ | .lstring => true
  | _ => false

/-- Where the frame of an instruction goes on, in the end. -/
def Inst.frameSuccessors (next : ℤ) : Inst → List ℤ
  | .jmp target => [target]
  | .cjmpz target | .cjmpnz target => [target, next]
  | .end_ | .ret | .fail _ _ | .stop => []
  | _ => [next]

/-- The call stack and the number of globals stay. -/
structure SameControl (s s' : State) : Prop where
  cstack : s'.cstack = s.cstack
  ctop : s'.ctop = s.ctop
  globalsCount : s'.globalsCount = s.globalsCount

/-- The slots above `lo` stay. -/
def SameSlots (im : Image) (lo : ℕ) (s s' : State) : Prop :=
  ∀ a, lo < a → im.inStack a → s'.mem.ram a = s.mem.ram a

/-- A plain instruction: it moves the top by what it pops and pushes, and the operands it pops are
    slots of `__vstack`. -/
structure PlainEffect (im : Image) (inst : Inst) (s s' : State) : Prop where
  control : SameControl s s'
  top : s'.top + inst.pushes = s.top + inst.pops
  room : 0 < inst.pops → s.top + inst.pops < im.bottom

theorem SameControl.refl (s : State) : SameControl s s := ⟨rfl, rfl, rfl⟩

theorem sameControl_push : SameControl s (s.push v) := ⟨rfl, rfl, rfl⟩

theorem sameControl_drop {n : ℕ} : SameControl s (s.drop n) := ⟨rfl, rfl, rfl⟩

theorem SameControl.trans {a b c : State} (h : SameControl a b) (h' : SameControl b c) :
    SameControl a c :=
  ⟨h'.cstack.trans h.cstack, h'.ctop.trans h.ctop, h'.globalsCount.trans h.globalsCount⟩

theorem SameSlots.trans {lo : ℕ} {a b c : State} (h : SameSlots im lo a b) (h' : SameSlots im lo b c) :
    SameSlots im lo a c := fun x hlo hhi => (h' x hlo hhi).trans (h x hlo hhi)

theorem SameSlots.mono {lo lo' : ℕ} {a b : State} (h : SameSlots im lo a b) (hlo : lo ≤ lo') :
    SameSlots im lo' a b := fun x hx hhi => h x (by omega) hhi

theorem sameSlots_push {lo : ℕ} (h : s.top ≤ lo) : SameSlots im lo s (s.push v) := by
  intro a hlo _
  rw [State.push_ram, if_neg (by omega)]

theorem sameControl_store {a : ℕ} (h : storeWord im s a v = .ok s') :
    SameControl s s' ∧ s'.top = s.top := by
  rcases storeWord_ok h with ⟨-, rfl⟩ | ⟨-, g, rfl⟩
  · exact ⟨⟨rfl, rfl, rfl⟩, rfl⟩
  · exact ⟨⟨rfl, rfl, rfl⟩, rfl⟩

/-- The pattern instructions. -/
theorem patt_ok {pattern : Pattern} (ht : s.top < 2 ^ 30) (h : patt im s pattern = .ok s') :
    s.top + (Inst.patt pattern).pops < im.bottom ∧
      ∃ v, s' = (s.drop (Inst.patt pattern).pops).push v := by
  obtain ⟨⟨x, s₁⟩, hp, h⟩ := bind_eq_ok.mp h
  obtain ⟨-, hhi, hp⟩ := vstackPop_ok ht hp
  cases hp
  have one : ∀ {w : Word}, vstackPush im (s.drop 1) w = .ok s' →
      s.top + 1 < im.bottom ∧ ∃ v, s' = (s.drop 1).push v :=
    fun hpush => ⟨hhi, _, (vstackPush_ok hpush).2.2⟩
  cases pattern
  case string =>
    obtain ⟨⟨y, s₂⟩, hp, h⟩ := bind_eq_ok.mp h
    have hb := im.bottom_lt
    obtain ⟨-, hhi', hp⟩ := vstackPop_ok (by simp; omega) hp
    cases hp
    obtain ⟨w, -, h⟩ := bind_eq_ok.mp h
    rw [State.drop_drop] at h
    exact ⟨by simpa [Inst.pops, Nat.add_assoc] using hhi', w, (vstackPush_ok h).2.2⟩
  case boxed => exact one h
  case unboxed => exact one h
  all_goals
    obtain ⟨w, -, h⟩ := bind_eq_ok.mp h
    exact one h

/-- What a plain instruction leaves behind: its effect and, when it does not store, the slots. -/
def PlainOk (im : Image) (inst : Inst) (s s' : State) : Prop :=
  PlainEffect im inst s s' ∧ (inst.isStore = false → SameSlots im (s.top + inst.pops) s s')

/-- An instruction that pops its operands and pushes one result. -/
theorem plainOk_push {inst : Inst} (h : vstackPush im (s.drop inst.pops) v = .ok s')
    (hroom : 0 < inst.pops → s.top + inst.pops < im.bottom) (hp : inst.pushes = 1) :
    PlainOk im inst s s' := by
  obtain ⟨hlo, -, rfl⟩ := vstackPush_ok h
  have hpos := im.vstack_pos
  simp only [State.drop_top] at hlo
  refine ⟨⟨⟨rfl, rfl, rfl⟩, ?_, hroom⟩, fun _ => ?_⟩
  · simp only [State.push_top, State.drop_top, hp]; omega
  · exact sameSlots_push (s := s.drop inst.pops) (by simp)

/-- Two operands, popped one after the other. -/
theorem vstackPop_two (ht : s.top < 2 ^ 30) {p q : Word × State} (hp : vstackPop im s = .ok p)
    (hq : vstackPop im p.2 = .ok q) :
    s.top + 2 < im.bottom ∧ p.1 = s.mem.ram (s.top + 1) ∧
      q = (s.mem.ram (s.top + 2), s.drop 2) := by
  obtain ⟨-, hhi, rfl⟩ := vstackPop_ok ht hp
  have hb := im.bottom_lt
  obtain ⟨-, hhi', rfl⟩ := vstackPop_ok (by simp; omega) hq
  rw [State.drop_drop]
  exact ⟨by simpa using hhi', rfl, rfl⟩

/-- The instructions that make no allocation request and set no jump target. -/
theorem execPlain_ok {inst : Inst} (ht : s.top < 2 ^ 30) (hi : inst.isPlain = true)
    (ha : inst.allocates = false) (hj : inst.jumpTargets = [])
    (h : execPlain im e f s inst = .ok s') : PlainOk im inst s s' := by
  have hpos := im.vstack_pos
  have pop1 : ∀ {p : Word × State}, vstackPop im s = .ok p →
      s.top + 1 < im.bottom ∧ p = (s.mem.ram (s.top + 1), s.drop 1) := fun hp =>
    ⟨(vstackPop_ok ht hp).2.1, (vstackPop_ok ht hp).2.2⟩
  cases inst
  case const n => exact plainOk_push h (by simp [Inst.pops]) rfl
  case sti =>
    obtain ⟨⟨v, s₁⟩, hv, h⟩ := bind_eq_ok.mp h
    obtain ⟨⟨p, s₂⟩, hp, h⟩ := bind_eq_ok.mp h
    obtain ⟨hroom, -, hp⟩ := vstackPop_two ht hv hp
    cases hp
    obtain ⟨a, -, h⟩ := bind_eq_ok.mp h
    obtain ⟨s₃, hs, h⟩ := bind_eq_ok.mp h
    obtain ⟨hc, htop⟩ := sameControl_store hs
    obtain ⟨hlo, -, rfl⟩ := vstackPush_ok h
    refine ⟨⟨sameControl_drop.trans (hc.trans sameControl_push), ?_, fun _ => hroom⟩,
      fun h => nomatch h⟩
    simp only [State.push_top, Inst.pushes, Inst.pops, htop, State.drop_top] at hlo ⊢
    omega
  case sta =>
    obtain ⟨⟨v, s₁⟩, hv, h⟩ := bind_eq_ok.mp h
    obtain ⟨⟨i, s₂⟩, hi, h⟩ := bind_eq_ok.mp h
    obtain ⟨hroom, -, hi⟩ := vstackPop_two ht hv hi
    cases hi
    have hb := im.bottom_lt
    obtain ⟨⟨x, s₃⟩, hx, h⟩ := bind_eq_ok.mp h
    obtain ⟨-, hroom', hx⟩ := vstackPop_ok (by simp; omega) hx
    cases hx
    obtain ⟨s₄, hs, h⟩ := bind_eq_ok.mp h
    obtain ⟨a, u, hs⟩ := bsta_ok hs
    obtain ⟨hc, htop⟩ := sameControl_store hs
    obtain ⟨hlo, -, rfl⟩ := vstackPush_ok h
    refine ⟨⟨(sameControl_drop.trans sameControl_drop).trans (hc.trans sameControl_push), ?_,
      fun _ => hroom'⟩, fun h => nomatch h⟩
    simp only [State.push_top, Inst.pushes, Inst.pops, htop, State.drop_top] at hlo ⊢
    omega
  case drop =>
    obtain ⟨⟨v, s₁⟩, hv, h⟩ := bind_eq_ok.mp h
    obtain ⟨hroom, hv⟩ := pop1 hv
    cases hv
    cases h
    exact ⟨⟨sameControl_drop, rfl, fun _ => hroom⟩, fun _ a _ _ => rfl⟩
  case dup =>
    obtain ⟨v, -, h⟩ := bind_eq_ok.mp h
    exact plainOk_push h (by simp [Inst.pops]) rfl
  case swap =>
    obtain ⟨⟨v, s₁⟩, hv, h⟩ := bind_eq_ok.mp h
    obtain ⟨⟨w, s₂⟩, hw, h⟩ := bind_eq_ok.mp h
    obtain ⟨hroom, -, hw⟩ := vstackPop_two ht hv hw
    cases hw
    obtain ⟨s₃, h₃, h⟩ := bind_eq_ok.mp h
    obtain ⟨-, -, rfl⟩ := vstackPush_ok h₃
    obtain ⟨hlo, -, rfl⟩ := vstackPush_ok h
    simp only [State.push_top, State.drop_top] at hlo
    refine ⟨⟨⟨rfl, rfl, rfl⟩, ?_, fun _ => hroom⟩, fun _ => ?_⟩
    · simp only [State.push_top, Inst.pushes, Inst.pops, State.drop_top]; omega
    · exact (sameSlots_push (s := s.drop 2) (by simp [Inst.pops])).trans
        (sameSlots_push (by simp [Inst.pops]))
  case elem =>
    obtain ⟨⟨i, s₁⟩, hi, h⟩ := bind_eq_ok.mp h
    obtain ⟨⟨p, s₂⟩, hp, h⟩ := bind_eq_ok.mp h
    obtain ⟨hroom, -, hp⟩ := vstackPop_two ht hi hp
    cases hp
    obtain ⟨v, -, h⟩ := bind_eq_ok.mp h
    exact plainOk_push h (fun _ => hroom) rfl
  case tag pos args =>
    obtain ⟨⟨d, s₁⟩, hd, h⟩ := bind_eq_ok.mp h
    obtain ⟨hroom, hd⟩ := pop1 hd
    cases hd
    obtain ⟨chars, -, h⟩ := bind_eq_ok.mp h
    obtain ⟨t, -, h⟩ := bind_eq_ok.mp h
    obtain ⟨v, -, h⟩ := bind_eq_ok.mp h
    exact plainOk_push h (fun _ => hroom) rfl
  case array n =>
    obtain ⟨⟨d, s₁⟩, hd, h⟩ := bind_eq_ok.mp h
    obtain ⟨hroom, hd⟩ := pop1 hd
    cases hd
    obtain ⟨v, -, h⟩ := bind_eq_ok.mp h
    exact plainOk_push h (fun _ => hroom) rfl
  case fail line col =>
    obtain ⟨p, -, h⟩ := bind_eq_ok.mp h
    cases h
  case binop op =>
    obtain ⟨⟨r, s₁⟩, hr, h⟩ := bind_eq_ok.mp h
    obtain ⟨⟨l, s₂⟩, hl, h⟩ := bind_eq_ok.mp h
    obtain ⟨hroom, -, hl⟩ := vstackPop_two ht hr hl
    cases hl
    obtain ⟨v, -, h⟩ := bind_eq_ok.mp h
    exact plainOk_push h (fun _ => hroom) rfl
  case ld l =>
    obtain ⟨a, -, h⟩ := bind_eq_ok.mp h
    obtain ⟨v, -, h⟩ := bind_eq_ok.mp h
    exact plainOk_push h (by simp [Inst.pops]) rfl
  case lda l =>
    obtain ⟨a, -, h⟩ := bind_eq_ok.mp h
    obtain ⟨s₁, h₁, h⟩ := bind_eq_ok.mp h
    obtain ⟨-, -, rfl⟩ := vstackPush_ok h₁
    obtain ⟨hlo, -, rfl⟩ := vstackPush_ok h
    simp only [State.push_top] at hlo
    refine ⟨⟨⟨rfl, rfl, rfl⟩, ?_, fun h => absurd h (Nat.lt_irrefl 0)⟩, fun _ => ?_⟩
    · simp only [State.push_top, Inst.pushes, Inst.pops]; omega
    · exact (sameSlots_push (by simp [Inst.pops])).trans
        (sameSlots_push (by simp [Inst.pops]))
  case st l =>
    obtain ⟨a, -, h⟩ := bind_eq_ok.mp h
    obtain ⟨v, -, h⟩ := bind_eq_ok.mp h
    obtain ⟨hc, htop⟩ := sameControl_store h
    exact ⟨⟨hc, by simp [Inst.pushes, Inst.pops, htop], fun h => absurd h (Nat.lt_irrefl 0)⟩,
      fun h => nomatch h⟩
  case patt p =>
    obtain ⟨hroom, v, rfl⟩ := patt_ok ht h
    refine ⟨⟨⟨rfl, rfl, rfl⟩, ?_, fun _ => hroom⟩, fun _ => ?_⟩
    · have : 0 < (Inst.patt p).pops := by cases p <;> decide
      simp only [State.push_top, State.drop_top, Inst.pushes]; omega
    · exact sameSlots_push (s := s.drop _) (by simp)
  case lread => exact plainOk_push h (by simp [Inst.pops]) rfl
  case lwrite =>
    obtain ⟨⟨n, s₁⟩, hn, h⟩ := bind_eq_ok.mp h
    obtain ⟨hroom, hn⟩ := pop1 hn
    cases hn
    obtain ⟨-, -, rfl⟩ := vstackPush_ok h
    refine ⟨⟨⟨rfl, rfl, rfl⟩, ?_, fun _ => hroom⟩, fun _ a hlo hhi => ?_⟩
    · simp [Inst.pushes, Inst.pops]
    · simp only [Inst.pops] at hlo
      simp [show a ≠ s.top + 1 by omega]
  case llength =>
    obtain ⟨⟨p, s₁⟩, hp, h⟩ := bind_eq_ok.mp h
    obtain ⟨hroom, hp⟩ := pop1 hp
    cases hp
    obtain ⟨v, -, h⟩ := bind_eq_ok.mp h
    exact plainOk_push h (fun _ => hroom) rfl
  case stop => cases h
  case line n =>
    cases h
    exact ⟨⟨.refl s, rfl, fun h => absurd h (Nat.lt_irrefl 0)⟩, fun _ a _ _ => rfl⟩
  case noFunctor =>
    cases h
    exact ⟨⟨.refl s, rfl, fun h => absurd h (Nat.lt_irrefl 0)⟩, fun _ a _ _ => rfl⟩
  all_goals first | exact Bool.noConfusion hi | exact Bool.noConfusion ha | cases hj

/-! ### Allocating instructions -/

theorem sameSlots_setRam {lo b : ℕ} (hb : ¬ im.inStack b) :
    SameSlots im lo s { s with mem := s.mem.setRam b v } := by
  intro a _ ha
  have : a ≠ b := fun h => hb (h ▸ ha)
  simp [Memory.setRam, this]

theorem Image.bstringRoot_outside (im : Image) : ¬ im.inStack im.bstringRoot := by
  rintro ⟨h1, h2⟩
  have := im.bstringRoot_apart
  omega

theorem Image.lstringRoot_outside (im : Image) : ¬ im.inStack im.lstringRoot := by
  rintro ⟨h1, h2⟩
  have := im.lstringRoot_apart
  omega

theorem customData_outside {a : ℕ} (ha : a ∈ region im.startCustomData im.stopCustomData) :
    ¬ im.inStack a ∧ a ≠ im.bottom := by
  rw [mem_region] at ha
  have happart := im.customData_apart
  have hbottom : im.bottom = im.vstack + vstackSize := rfl
  rw [inStack_iff]
  omega

theorem bottom_outside : ¬ im.inStack im.bottom := fun h => Nat.lt_irrefl _ h.2

/-- `CLOSURE` pushes the values it captures. -/
theorem pushLocations_ok : ∀ {ls : List LocationEntry} {s s' : State},
    pushLocations im e s ls = .ok s' →
      SameControl s s' ∧ s'.top + ls.length = s.top ∧ SameSlots im s.top s s' ∧
        s'.mem.heap = s.mem.heap
  | [], s, s', h => by
    cases h
    exact ⟨.refl s, rfl, fun _ _ _ => rfl, rfl⟩
  | l :: ls, s, s', h => by
    obtain ⟨a, -, h⟩ := bind_eq_ok.mp h
    obtain ⟨v, -, h⟩ := bind_eq_ok.mp h
    obtain ⟨s₁, h₁, h⟩ := bind_eq_ok.mp h
    obtain ⟨hlo, -, rfl⟩ := vstackPush_ok h₁
    obtain ⟨hc, htop, hslots, hheap⟩ := pushLocations_ok h
    rw [State.push_top] at htop hslots
    refine ⟨sameControl_push.trans hc, ?_, ?_, hheap⟩
    · rw [List.length_cons]; omega
    · exact (sameSlots_push (Nat.le_refl _)).trans (hslots.mono (by omega))

/-- Where the top is when the request is made: the captured values are pushed, a printed value is
    popped. -/
def Inst.requestTop (im : Image) (top top' : ℕ) : Inst → Prop
  | .closure _ ls => top' + ls.length = top
  | .lstring => top' = top + 1 ∧ top + 1 < im.bottom
  | _ => top' = top

/-- The state an allocation request is made in. -/
structure Requested (im : Image) (inst : Inst) (s : State) (r : AllocRequest) : Prop where
  control : SameControl s r.state
  heap : r.state.mem.heap = s.mem.heap
  slots : SameSlots im (s.top + inst.pops) s r.state
  top : inst.requestTop im s.top r.state.top

theorem allocRequest_ok {inst : Inst} {o : Option AllocRequest} (ht : s.top < 2 ^ 30)
    (ha : inst.allocates = true) (h : allocRequest im e f s inst = .ok o) :
    ∃ r, o = some r ∧ Requested im inst s r := by
  cases inst
  case string pos =>
    obtain ⟨chars, -, h⟩ := bind_eq_ok.mp h
    cases h
    exact ⟨_, rfl, ⟨rfl, rfl, rfl⟩, rfl, sameSlots_setRam im.bstringRoot_outside, rfl⟩
  case sexp pos n =>
    obtain ⟨chars, -, h⟩ := bind_eq_ok.mp h
    obtain ⟨t, -, h⟩ := bind_eq_ok.mp h
    cases h
    exact ⟨_, rfl, .refl s, rfl, fun _ _ _ => rfl, rfl⟩
  case closure entry ls =>
    obtain ⟨s₁, h₁, h⟩ := bind_eq_ok.mp h
    cases h
    obtain ⟨hc, htop, hslots, hheap⟩ := pushLocations_ok h₁
    exact ⟨_, rfl, hc, hheap, hslots.mono (Nat.le_add_right _ _), htop⟩
  case barray n =>
    cases h
    exact ⟨_, rfl, .refl s, rfl, fun _ _ _ => rfl, rfl⟩
  case lstring =>
    obtain ⟨⟨p, s₁⟩, hp, h⟩ := bind_eq_ok.mp h
    obtain ⟨-, hroom, hp⟩ := vstackPop_ok ht hp
    cases hp
    cases h
    refine ⟨_, rfl, ⟨rfl, rfl, rfl⟩, rfl, ?_, rfl, hroom⟩
    have h1 : SameSlots im (s.top + 1) (s.drop 1) _ :=
      sameSlots_setRam (v := s.mem.ram (s.top + 1)) im.lstringRoot_outside
    exact h1.trans (sameSlots_setRam im.bstringRoot_outside)
  all_goals exact Bool.noConfusion ha

/-- `alloc_*` returns a header address and leaves the state but for its memory. -/
theorem allocObject_ok {r : AllocRequest} {q : ℕ × State} (h : allocObject im e r = .ok q) :
    ∃ m g, alloc (r.state.roots im r.extraRoots) e.mremap r.bytes r.state.mem = some (some q.1, m) ∧
      q.2 = { r.state with mem := { m with heap := g } } := by
  obtain ⟨⟨p, m⟩, ha, h⟩ := bind_eq_ok.mp h
  obtain ⟨p', hp, h⟩ := bind_eq_ok.mp h
  obtain ⟨s₁, h₁, h⟩ := bind_eq_ok.mp h
  obtain ⟨s₂, h₂, h⟩ := bind_eq_ok.mp h
  rw [orStop_eq_ok] at ha hp
  obtain ⟨g₁, rfl⟩ := storeHeap_ok h₁
  obtain ⟨g₂, rfl⟩ := storeHeap_ok h₂
  cases h
  exact ⟨m, g₂, hp ▸ ha, rfl⟩

/-- What follows the allocation: the operands move into the object and its address is pushed. -/
theorem afterAlloc_ok {inst : Inst} {p : ℕ} {top : ℕ} (ht : s.top < 2 ^ 30)
    (ha : inst.allocates = true)
    (htop : inst.requestTop im top s.top)
    (h : afterAlloc im e f p s inst = .ok s') :
    SameControl s s' ∧ s'.top + inst.pushes = top + inst.pops ∧
      (0 < inst.pops → top + inst.pops < im.bottom) ∧ SameSlots im (top + inst.pops) s s' := by
  have hpos := im.vstack_pos
  have finish : ∀ {g : MemoryChunk} {n : ℕ} {w : Word}, inst.pushes = 1 → s.top + n = top + inst.pops →
      (0 < inst.pops → top + inst.pops < im.bottom) →
      vstackPush im ((s.drop n).withHeap g) w = .ok s' →
      SameControl s s' ∧ s'.top + inst.pushes = top + inst.pops ∧
        (0 < inst.pops → top + inst.pops < im.bottom) ∧ SameSlots im (top + inst.pops) s s' := by
    intro g n w hp hn hroom hpush
    obtain ⟨hlo, -, rfl⟩ := vstackPush_ok hpush
    simp only [State.withHeap_top, State.drop_top] at hlo
    refine ⟨⟨rfl, rfl, rfl⟩, ?_, hroom, ?_⟩
    · simp only [State.push_top, State.withHeap_top, State.drop_top, hp]; omega
    · exact sameSlots_push (s := (s.drop n).withHeap g) (by simp; omega)
  cases inst
  case string pos =>
    obtain ⟨chars, -, h⟩ := bind_eq_ok.mp h
    obtain ⟨s₁, h₁, h⟩ := bind_eq_ok.mp h
    obtain ⟨g, rfl⟩ := storeWords_ok h₁
    exact finish (n := 0) rfl htop (fun h => absurd h (Nat.lt_irrefl 0)) h
  case sexp pos n =>
    obtain ⟨chars, -, h⟩ := bind_eq_ok.mp h
    obtain ⟨t, -, h⟩ := bind_eq_ok.mp h
    obtain ⟨s₁, h₁, h⟩ := bind_eq_ok.mp h
    obtain ⟨g₁, rfl⟩ := storeHeap_ok h₁
    obtain ⟨s₂, h₂, h⟩ := bind_eq_ok.mp h
    obtain ⟨⟨g₂, rfl⟩, hroom⟩ := popInto_ok (s := s.withHeap g₁) ht h₂
    obtain ⟨s₃, h₃, h⟩ := bind_eq_ok.mp h
    obtain ⟨g₃, rfl⟩ := storeHeap_ok h₃
    have htop : s.top = top := htop
    exact finish rfl (by rw [htop]; rfl) (htop ▸ hroom) h
  case closure entry ls =>
    obtain ⟨s₁, h₁, h⟩ := bind_eq_ok.mp h
    obtain ⟨g₁, rfl⟩ := storeHeap_ok h₁
    obtain ⟨s₂, h₂, h⟩ := bind_eq_ok.mp h
    obtain ⟨⟨g₂, rfl⟩, -⟩ := popInto_ok (s := s.withHeap g₁) ht h₂
    exact finish rfl htop (fun h => absurd h (Nat.lt_irrefl 0)) h
  case barray n =>
    obtain ⟨s₂, h₂, h⟩ := bind_eq_ok.mp h
    obtain ⟨⟨g₂, rfl⟩, hroom⟩ := popInto_ok ht h₂
    have htop : s.top = top := htop
    exact finish rfl (by rw [htop]; rfl) (htop ▸ hroom) h
  case lstring =>
    obtain ⟨s₁, h₁, h⟩ := bind_eq_ok.mp h
    obtain ⟨g, rfl⟩ := storeWords_ok h₁
    exact finish (n := 0) rfl htop.1 (fun _ => htop.2) h
  all_goals exact Bool.noConfusion ha

/-- An allocating instruction: its request, the memory `alloc` returned, and the slots it kept. -/
def Allocated (im : Image) (e : Env) (f : Bytefile) (inst : Inst) (s s' : State) : Prop :=
  ∃ r p m, allocRequest im e f s inst = .ok (some r) ∧ Requested im inst s r ∧
    alloc (r.state.roots im r.extraRoots) e.mremap r.bytes r.state.mem = some (some p, m) ∧
    ∀ a, s.top + inst.pops < a → im.inStack a → s'.mem.ram a = m.ram a

/-! ### Calls -/

/-- A prologue reserves `n` locals. -/
def State.reserved (s : State) (n : ℕ) : State :=
  { s with
    top := ptrAdd s.top (-n)
    cstack := fun i => if i = s.ctop then { s.cstack i with localsCount := n } else s.cstack i }

/-- The record a call pushes. -/
def State.callee (s : State) (returnIp : ℤ) (argsCount : ℕ) (isClosure : Bool) : Frame :=
  { returnIp := some returnIp, isClosure, base := s.top, argsCount
    localsCount := (s.cstack (s.ctop - 1)).localsCount }

def State.called (s : State) (returnIp : ℤ) (argsCount : ℕ) (isClosure : Bool) : State :=
  { s with
    ctop := s.ctop - 1
    cstack := fun i =>
      if i = s.ctop - 1 then s.callee returnIp argsCount isClosure else s.cstack i }

/-- The slot a frame's result is pushed into when it returns. -/
def Frame.resultSlot (fr : Frame) : ℕ := ptrAdd fr.base (fr.argsCount + fr.isClosure.toNat)

def State.returned (s : State) : State :=
  { s with
    top := s.frame.resultSlot - 1
    mem := s.mem.setRam s.frame.resultSlot (s.mem.ram (s.top + 1))
    ctop := s.ctop + 1 }

/-- The closure an application calls: the word in the slot after the arguments, the entry it holds,
    and the number of values it captured. -/
def runningClosure (im : Image) (s : State) (argc : ℤ) : Except Stop (ℤ × ℕ) := do
  let closure ← vstackKthFromEnd im s (toSize argc)
  let p ← derefPtr closure
  let entry ← loadWord im s p
  let header ← dataHeader im s closure
  return (entry.toInt, lenOf header - 1)

theorem cstackAlloc_ok {n : ℕ} (h : cstackAlloc im s n = .ok s') :
    im.vstack < ptrAdd s.top (-n) ∧ s' = s.reserved n := by
  obtain ⟨u, hc, h⟩ := bind_eq_ok.mp h
  rw [ensure_eq_ok] at hc
  cases h
  exact ⟨hc, rfl⟩

theorem cstackCall_ok {returnIp : ℤ} {n : ℕ} {c : Bool} (h : cstackCall im s returnIp n c = .ok s') :
    0 < s.ctop ∧ ptrAdd s.top n < im.bottom ∧ s' = s.called returnIp n c := by
  obtain ⟨u, hc, h⟩ := bind_eq_ok.mp h
  obtain ⟨u, hr, h⟩ := bind_eq_ok.mp h
  rw [ensure_eq_ok] at hc hr
  cases h
  exact ⟨hc, hr, rfl⟩

theorem cstackEnd_ok (ht : s.top < 2 ^ 30) {q : State × Option ℤ} (h : cstackEnd im s = .ok q) :
    s.top + 1 < im.bottom ∧ s.ctop ≠ cstackSize ∧ im.vstack < s.frame.resultSlot ∧
      s.frame.resultSlot < im.bottom ∧ q = (s.returned, s.frame.returnIp) := by
  obtain ⟨⟨v, s₁⟩, hp, h⟩ := bind_eq_ok.mp h
  obtain ⟨-, hroom, hp⟩ := vstackPop_ok ht hp
  cases hp
  obtain ⟨u, hc, h⟩ := bind_eq_ok.mp h
  obtain ⟨u, -, h⟩ := bind_eq_ok.mp h
  obtain ⟨s₂, h₂, h⟩ := bind_eq_ok.mp h
  obtain ⟨hlo, hhi, rfl⟩ := vstackPush_ok h₂
  rw [ensure_eq_ok] at hc
  cases h
  exact ⟨hroom, hc, hlo, hhi, rfl⟩

/-! ### One step -/

/-- What an instruction of the running frame does, `next` being the address after it. -/
inductive Effect (im : Image) (e : Env) (f : Bytefile) (s : State) (next : ℤ) : Inst → State → Prop
  | plain {inst : Inst} {s' : State} {ip : ℤ} : inst.isPlain = true → PlainEffect im inst s s' →
      s'.ip = some ip → ip ∈ inst.frameSuccessors next →
      (inst.allocates = true → Allocated im e f inst s s') →
      (inst.allocates = false → inst.isStore = false → SameSlots im (s.top + inst.pops) s s') →
      Effect im e f s next inst s'
  | prologue {inst : Inst} {argc locc : ℤ} : inst = .begin argc locc ∨ inst = .cbegin argc locc →
      im.vstack < ptrAdd s.top (-toSize locc) →
      Effect im e f s next inst { s.reserved (toSize locc) with ip := some next }
  | call {returnIp offset argc : ℤ} : 0 < s.ctop → ptrAdd s.top (toSize argc) < im.bottom →
      Effect im e f s next (.call returnIp offset argc)
        { s.called returnIp (toSize argc) false with ip := some offset }
  | callc {returnIp argc : ℤ} {closure entry : Word} {p : ℕ} : 0 < s.ctop →
      ptrAdd s.top (toSize argc) < im.bottom → vstackKthFromEnd im s (toSize argc) = .ok closure →
      derefPtr closure = .ok p → loadWord im s p = .ok entry →
      Effect im e f s next (.callc returnIp argc)
        { s.called returnIp (toSize argc) true with ip := some entry.toInt }
  | ret {inst : Inst} : inst = .end_ ∨ inst = .ret → s.top + 1 < im.bottom → s.ctop ≠ cstackSize →
      im.vstack < s.frame.resultSlot → s.frame.resultSlot < im.bottom →
      Effect im e f s next inst { s.returned with ip := s.frame.returnIp }

/-- The three parts of an allocating instruction. -/
theorem exec_allocates {inst : Inst} (ha : inst.allocates = true) :
    exec im e f s inst = allocRequest im e f s inst >>= fun o =>
      match o with
      | some request => do
        let (r, s) ← allocObject im e request
        let s ← afterAlloc im e f r s inst
        return (s, none)
      | none => do
        let s ← execPlain im e f s inst
        return (s, none) := by
  cases inst <;> first | rfl | exact Bool.noConfusion ha

theorem Requested.top_lt {inst : Inst} {r : AllocRequest} (hr : Requested im inst s r)
    (ht : s.top < 2 ^ 30) (ha : inst.allocates = true) : r.state.top < 2 ^ 30 := by
  have htop := hr.top
  have hb := im.bottom_lt
  cases inst <;> first | exact Bool.noConfusion ha | (simp only [Inst.requestTop] at htop; omega)

theorem exec_alloc_ok {inst : Inst} {q : State × Option (Option ℤ)} (ht : s.top < 2 ^ 30)
    (ha : inst.allocates = true) (h : exec im e f s inst = .ok q) :
    q.2 = none ∧ PlainEffect im inst s q.1 ∧ Allocated im e f inst s q.1 := by
  rw [exec_allocates ha] at h
  obtain ⟨o, ho, h⟩ := bind_eq_ok.mp h
  obtain ⟨r, rfl, hr⟩ := allocRequest_ok ht ha ho
  obtain ⟨⟨p, s₁⟩, h₁, h⟩ := bind_eq_ok.mp h
  obtain ⟨s₂, h₂, h⟩ := bind_eq_ok.mp h
  cases h
  obtain ⟨m, g, hm, hs₁⟩ := allocObject_ok h₁
  obtain rfl : s₁ = _ := hs₁
  obtain ⟨hc, hpp, hroom, hslots⟩ := afterAlloc_ok
    (s := { r.state with mem := { m with heap := g } }) (hr.top_lt ht ha) ha hr.top h₂
  exact ⟨rfl, ⟨hr.control.trans ⟨hc.cstack, hc.ctop, hc.globalsCount⟩, hpp, hroom⟩,
    r, p, m, ho, hr, hm, fun a hlo hin => hslots a hlo hin⟩

/-- The instructions that run `execPlain`. -/
theorem exec_eq_execPlain {inst : Inst} (hi : inst.isPlain = true ∨ inst.isPrologue = true)
    (ha : inst.allocates = false) (hj : inst.jumpTargets = []) :
    exec im e f s inst = (execPlain im e f s inst >>= fun s => .ok (s, none)) := by
  cases inst <;> first
    | rfl
    | exact Bool.noConfusion ha
    | exact absurd hj (List.cons_ne_nil _ _)
    | exact absurd hi (by simp [Inst.isPlain, Inst.isPrologue])

theorem exec_execPlain {inst : Inst} {q : State × Option (Option ℤ)}
    (hi : inst.isPlain = true ∨ inst.isPrologue = true) (ha : inst.allocates = false)
    (hj : inst.jumpTargets = []) (h : exec im e f s inst = .ok q) :
    q.2 = none ∧ execPlain im e f s inst = .ok q.1 := by
  rw [exec_eq_execPlain hi ha hj] at h
  obtain ⟨s₁, h₁, h⟩ := bind_eq_ok.mp h
  cases h
  exact ⟨rfl, h₁⟩

/-- A conditional jump. -/
theorem exec_cjmp_ok {c : Word → Prop} [DecidablePred c] {target : ℤ} {q : State × Option (Option ℤ)}
    (ht : s.top < 2 ^ 30)
    (h : (vstackPop im s >>= fun p =>
      (.ok (p.2, if c p.1 then some (some target) else none) : Except Stop _)) = .ok q) :
    s.top + 1 < im.bottom ∧ q.1 = s.drop 1 ∧ (q.2 = some (some target) ∨ q.2 = none) := by
  obtain ⟨p, hp, h⟩ := bind_eq_ok.mp h
  obtain ⟨-, hroom, rfl⟩ := vstackPop_ok ht hp
  cases h
  refine ⟨hroom, rfl, ?_⟩
  dsimp only
  split
  · exact Or.inl rfl
  · exact Or.inr rfl

theorem exec_effect {inst : Inst} {next : ℤ} {q : State × Option (Option ℤ)} (ht : s.top < 2 ^ 30)
    (h : exec im e f s inst = .ok q) :
    Effect im e f s next inst { q.1 with ip := q.2.getD (some next) } := by
  have cjmp : ∀ {target : ℤ}, inst = .cjmpz target ∨ inst = .cjmpnz target →
      s.top + 1 < im.bottom ∧ q.1 = s.drop 1 ∧ (q.2 = some (some target) ∨ q.2 = none) →
      Effect im e f s next inst { q.1 with ip := q.2.getD (some next) } := by
    rintro target hinst ⟨hroom, hs, hq⟩
    have heff : PlainEffect im inst s { s.drop 1 with ip := q.2.getD (some next) } := by
      rcases hinst with rfl | rfl <;> exact ⟨⟨rfl, rfl, rfl⟩, rfl, fun _ => hroom⟩
    have hslots : SameSlots im (s.top + inst.pops) s { s.drop 1 with ip := q.2.getD (some next) } :=
      fun _ _ _ => rfl
    have hplain : inst.isPlain = true ∧ inst.allocates = false := by
      rcases hinst with rfl | rfl <;> exact ⟨rfl, rfl⟩
    rw [hs]
    rcases hq with hq | hq
    · have hip : q.2.getD (some next) = some target := by rw [hq]; rfl
      refine .plain hplain.1 heff hip ?_ (by simp [hplain.2]) fun _ _ => hslots
      rcases hinst with rfl | rfl <;> simp [Inst.frameSuccessors]
    · have hip : q.2.getD (some next) = some next := by rw [hq]; rfl
      refine .plain hplain.1 heff hip ?_ (by simp [hplain.2]) fun _ _ => hslots
      rcases hinst with rfl | rfl <;> simp [Inst.frameSuccessors]
  by_cases ha : inst.allocates = true
  · obtain ⟨hq, hp, hal⟩ := exec_alloc_ok ht ha h
    have hplain : inst.isPlain = true := by
      cases inst <;> first | rfl | exact Bool.noConfusion ha
    have hsucc : next ∈ inst.frameSuccessors next := by
      cases inst <;> first | exact List.mem_singleton_self next | exact Bool.noConfusion ha
    exact .plain hplain ⟨⟨hp.control.cstack, hp.control.ctop, hp.control.globalsCount⟩, hp.top,
      hp.room⟩ (by rw [hq]; rfl) hsucc (fun _ => hal) fun h => absurd ha (by simp [h])
  · rw [Bool.not_eq_true] at ha
    by_cases hj : inst.jumpTargets = []
    · by_cases hi : inst.isPlain = true
      · obtain ⟨hq, hp⟩ := exec_execPlain (Or.inl hi) ha hj h
        obtain ⟨heff, hslots⟩ := execPlain_ok ht hi ha hj hp
        have hsucc : next ∈ inst.frameSuccessors next := by
          cases inst <;> first
            | exact List.mem_singleton_self next
            | exact Bool.noConfusion hi
            | exact absurd hj (List.cons_ne_nil _ _)
            | cases hp
            | (obtain ⟨p, -, hp⟩ := bind_eq_ok.mp hp; cases hp)
        exact .plain hi ⟨⟨heff.control.cstack, heff.control.ctop, heff.control.globalsCount⟩, heff.top,
          heff.room⟩ (by rw [hq]; rfl) hsucc (by simp [ha]) fun _ hst => hslots hst
      · cases inst
        case begin argc locc =>
          obtain ⟨hq, hp⟩ := exec_execPlain (Or.inr rfl) ha hj h
          obtain ⟨hlo, hs⟩ := cstackAlloc_ok hp
          rw [hq, hs]
          exact .prologue (Or.inl rfl) hlo
        case cbegin argc locc =>
          obtain ⟨hq, hp⟩ := exec_execPlain (Or.inr rfl) ha hj h
          obtain ⟨hlo, hs⟩ := cstackAlloc_ok hp
          rw [hq, hs]
          exact .prologue (Or.inr rfl) hlo
        case end_ =>
          obtain ⟨r, hr, h⟩ := bind_eq_ok.mp h
          obtain ⟨h1, h2, h3, h4, rfl⟩ := cstackEnd_ok ht hr
          cases h
          exact .ret (Or.inl rfl) h1 h2 h3 h4
        case ret =>
          obtain ⟨r, hr, h⟩ := bind_eq_ok.mp h
          obtain ⟨h1, h2, h3, h4, rfl⟩ := cstackEnd_ok ht hr
          cases h
          exact .ret (Or.inr rfl) h1 h2 h3 h4
        case callc r n =>
          obtain ⟨closure, hk, h⟩ := bind_eq_ok.mp h
          obtain ⟨p, hp, h⟩ := bind_eq_ok.mp h
          obtain ⟨entry, he, h⟩ := bind_eq_ok.mp h
          obtain ⟨s₁, h₁, h⟩ := bind_eq_ok.mp h
          obtain ⟨hc, hr, rfl⟩ := cstackCall_ok h₁
          cases h
          exact .callc hc hr hk hp he
        case call r o n =>
          obtain ⟨s₁, h₁, h⟩ := bind_eq_ok.mp h
          obtain ⟨hc, hr, rfl⟩ := cstackCall_ok h₁
          cases h
          exact .call hc hr
        all_goals exact absurd rfl hi
    · cases inst
      case jmp target =>
        cases h
        exact .plain rfl ⟨⟨rfl, rfl, rfl⟩, rfl, fun h => absurd h (Nat.lt_irrefl 0)⟩ rfl
          (List.mem_singleton_self target) (fun h => Bool.noConfusion h) fun _ _ _ _ _ => rfl
      case cjmpz target =>
        exact cjmp (Or.inl rfl) (exec_cjmp_ok (c := fun v => unbox v = 0) ht h)
      case cjmpnz target =>
        exact cjmp (Or.inr rfl) (exec_cjmp_ok (c := fun v => unbox v ≠ 0) ht h)
      all_goals exact absurd rfl hj

/-- Everything one step can do. -/
theorem step_cases (ht : s.top < 2 ^ 30) (h : step im f e s = .ok s') :
    ∃ ip inst next, s.ip = some ip ∧ readInst f ip = .ok (inst, next) ∧ Effect im e f s next inst s' := by
  unfold step at h
  cases hip : s.ip with
  | none => rw [hip] at h; cases h
  | some ip =>
    rw [hip] at h
    obtain ⟨⟨inst, next⟩, hi, h⟩ := bind_eq_ok.mp h
    obtain ⟨⟨s₁, j⟩, he, h⟩ := bind_eq_ok.mp h
    cases h
    exact ⟨ip, inst, next, rfl, hi, exec_effect ht he⟩

/-- One turn of the loop of `interprete`. -/
def Turn (im : Image) (f : Bytefile) (s s' : State) : Prop := ∃ e, step im f e s = .ok s'

end Lama

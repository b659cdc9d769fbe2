import PlvmHomeworks.Runtime.Bounds
import PlvmHomeworks.Tools.Arguments
import PlvmHomeworks.Tools.Operands

/-! Calls and returns: what a call leaves behind once the frame it entered has returned.

    `cstack_call` records the top of the stack as the base of the new frame, and `cstack_end` puts
    the result where the arguments were. Nothing in between reaches above that slot as long as no
    instruction pops past the locals of its frame and `cstack_alloc` only moves the top down. -/

namespace Lama
open Outcome Runs Relation

/-- The argument count of a call, and whether it calls a closure. -/
def Inst.callOf : Inst → Option (ℤ × Bool)
  | .call _ _ argc => some (argc, false)
  | .callc _ argc => some (argc, true)
  | _ => none

/-- The last slot an instruction pops; a call pops its arguments (and the closure) when it returns. -/
def Inst.popsTo (s : State) : Inst → ℕ
  | .call _ _ argc => ptrAdd s.top (toSize argc)
  | .callc _ argc => ptrAdd s.top (toSize argc + 1)
  | .end_ | .ret => s.top + 1
  | inst => s.top + inst.pops

/-- The instruction that is about to be executed does not pop below the locals of its frame. -/
def KeepsLocals (f : Bytefile) (s : State) : Prop :=
  ∀ inst next, s.Executes f inst next → s.top < inst.popsTo s →
    inst.popsTo s + s.frame.localsCount ≤ s.frame.base

/-- Where `Bsta` stores. -/
def staTarget (im : Image) (s : State) (i x : Word) : Except Stop ℕ :=
  if unboxed i then do
    let tag ← tagWord im s x
    let a ← derefPtr x
    return if tag = stringTag then ptrAdd a ((unbox i).toInt / 4)
      else if tag = sexpTag then ptrAdd a ((unbox i).toInt + 1) else ptrAdd a (unbox i).toInt
  else derefPtr x

/-- Where an explicit store goes. -/
def storeTarget (im : Image) (e : Env) (s : State) : Inst → Except Stop ℕ
  | .st location => loc im e s location
  | .sti => derefPtr (s.mem.ram (s.top + 2))
  | .sta => staTarget im s (s.mem.ram (s.top + 2)) (s.mem.ram (s.top + 3))
  | _ => .error .exit

/-- What one turn may do to a slot that it does not push to or pop. -/
inductive SlotStep (im : Image) (f : Bytefile) (s s' : State) (a : ℕ) : Prop
  | same : s'.mem.ram a = s.mem.ram a → SlotStep im f s s' a
  | stored {e : Env} {inst : Inst} {next : ℤ} : s.Executes f inst next → inst.isStore = true →
      step im f e s = .ok s' → storeTarget im e s inst = .ok a → SlotStep im f s s' a
  | relocated {inst : Inst} {next : ℤ} : s.Executes f inst next → inst.allocates = true →
      Relocated s.mem.heap (s.mem.ram a) (s'.mem.ram a) → SlotStep im f s s' a

/-- The turns `p 0, ..., p (n + 1)` from a call to the return of the frame it entered. -/
structure CallPath (im : Image) (f : Bytefile) (p : ℕ → State) (n : ℕ) (inst : Inst)
    (next argc : ℤ) (c : Bool) : Prop where
  turns : Path (Turn im f) p (n + 1)
  executes : (p 0).Executes f inst next
  call : inst.callOf = some (argc, c)
  inside : ∀ k, 0 < k → k ≤ n → (p k).ctop < (p 0).ctop
  returns : (p n).ctop + 1 = (p 0).ctop ∧
    ∃ inst next, (p n).Executes f inst next ∧ (inst = .end_ ∨ inst = .ret)

/-- Such turns when the call finds its arguments, every function entered starts with a prologue, and
    no instruction pops below the locals of its frame. -/
structure CallSegment (im : Image) (f : Bytefile) (p : ℕ → State) (n : ℕ) (inst : Inst)
    (next argc : ℤ) (c : Bool) : Prop extends CallPath im f p n inst next argc c where
  argc_nonneg : 0 ≤ argc
  operands : (p 0).top + argc.toNat + c.toNat + (p 0).frame.localsCount ≤ (p 0).frame.base
  prologues : ∀ k, k ≤ n → ∀ inst next call, (p k).Executes f inst next → inst.callOf = some call →
    ∃ inst' next' args locals, (p (k + 1)).Executes f inst' next' ∧
      (inst' = .begin args locals ∨ inst' = .cbegin args locals) ∧ 0 ≤ locals
  keeps : ∀ k, 0 < k → k ≤ n → KeepsLocals f (p k)

/-- What the caller finds when the call has returned. -/
structure Returned (im : Image) (f : Bytefile) (p : ℕ → State) (n : ℕ) (next argc : ℤ) (c : Bool) :
    Prop where
  ctop : (p (n + 1)).ctop = (p 0).ctop
  ip : (p (n + 1)).ip = some next
  top : (p (n + 1)).top + 1 = (p 0).top + argc.toNat + c.toNat
  result : (p (n + 1)).mem.ram ((p (n + 1)).top + 1) = (p n).mem.ram ((p n).top + 1)
  records : ∀ k, (p 0).ctop ≤ k → (p (n + 1)).cstack k = (p 0).cstack k
  globalsCount : (p (n + 1)).globalsCount = (p 0).globalsCount
  slots : ∀ a, (p 0).top + argc.toNat + c.toNat < a → im.inStack a →
    ∀ k, k ≤ n → SlotStep im f (p k) (p (k + 1)) a

variable {im : Image} {f : Bytefile} {e : Env} {s s' s₀ : State}

/-! ### One slot -/

theorem storeWord_other {t a : ℕ} {v : Word} (h : storeWord im s t v = .ok s') (hne : a ≠ t) :
    s'.mem.ram a = s.mem.ram a := by
  rcases storeWord_ok h with ⟨-, rfl⟩ | ⟨-, g, rfl⟩
  · simp [Memory.setRam, hne]
  · rfl

/-- `Bsta` stores where `staTarget` says. -/
theorem bsta_target {v i x : Word} (h : bsta im s v i x = .ok s') :
    ∃ t u, staTarget im s i x = .ok t ∧ storeWord im s t u = .ok s' := by
  unfold bsta at h
  unfold staTarget
  split at h
  · rename_i hi
    obtain ⟨u, -, h⟩ := bind_eq_ok.mp h
    obtain ⟨tag, ht, h⟩ := bind_eq_ok.mp h
    obtain ⟨a, ha, h⟩ := bind_eq_ok.mp h
    dsimp only at h
    rw [if_pos hi, ht, ok_bind, ha, ok_bind]
    split at h
    · rename_i hs
      obtain ⟨w, -, h⟩ := bind_eq_ok.mp h
      exact ⟨_, _, by rw [if_pos hs]; rfl, h⟩
    · rename_i hs
      split at h
      · rename_i hx
        exact ⟨_, _, by rw [if_neg hs, if_pos hx]; rfl, h⟩
      · rename_i hx
        exact ⟨_, _, by rw [if_neg hs, if_neg hx]; rfl, h⟩
  · rename_i hi
    obtain ⟨a, ha, h⟩ := bind_eq_ok.mp h
    rw [if_neg hi]
    exact ⟨a, v, ha, h⟩

/-- A store instruction changes its target and what it pushes. -/
theorem execPlain_store {inst : Inst} (ht : s.top < 2 ^ 30) (hi : inst.isStore = true)
    (h : execPlain im e f s inst = .ok s') {a : ℕ} (hlo : s.top + inst.pops < a) :
    s'.mem.ram a = s.mem.ram a ∨ storeTarget im e s inst = .ok a := by
  have hb := im.bottom_lt
  cases inst
  case st l =>
    obtain ⟨t, hloc, h⟩ := bind_eq_ok.mp h
    obtain ⟨v, -, h⟩ := bind_eq_ok.mp h
    by_cases hat : a = t
    · exact Or.inr (hat ▸ hloc)
    · exact Or.inl (storeWord_other h hat)
  case sti =>
    obtain ⟨⟨v, s₁⟩, hv, h⟩ := bind_eq_ok.mp h
    obtain ⟨⟨x, s₂⟩, hx, h⟩ := bind_eq_ok.mp h
    obtain ⟨-, -, hx⟩ := vstackPop_two ht hv hx
    cases hx
    obtain ⟨t, hderef, h⟩ := bind_eq_ok.mp h
    obtain ⟨s₃, hs, h⟩ := bind_eq_ok.mp h
    obtain ⟨-, -, rfl⟩ := vstackPush_ok h
    have htop := (sameControl_store hs).2
    simp only [Inst.pops] at hlo
    simp only [State.drop_top] at htop
    have hpush : (s₃.push v).mem.ram a = s₃.mem.ram a := by
      rw [State.push_ram, if_neg (by omega)]
    by_cases hat : a = t
    · exact Or.inr (hat ▸ hderef)
    · refine Or.inl ?_
      rw [hpush, storeWord_other hs hat]
      rfl
  case sta =>
    obtain ⟨⟨v, s₁⟩, hv, h⟩ := bind_eq_ok.mp h
    obtain ⟨⟨i, s₂⟩, hi, h⟩ := bind_eq_ok.mp h
    obtain ⟨hroom, -, hi⟩ := vstackPop_two ht hv hi
    cases hi
    obtain ⟨⟨x, s₃⟩, hx, h⟩ := bind_eq_ok.mp h
    obtain ⟨-, -, hx⟩ := vstackPop_ok (by simp only [State.drop_top]; omega) hx
    cases hx
    obtain ⟨s₄, hs, h⟩ := bind_eq_ok.mp h
    obtain ⟨t, u, htarget, hs⟩ := bsta_target hs
    obtain ⟨-, -, rfl⟩ := vstackPush_ok h
    have htop := (sameControl_store hs).2
    simp only [Inst.pops] at hlo
    simp only [State.drop_top] at htop
    have hpush : (s₄.push v).mem.ram a = s₄.mem.ram a := by
      rw [State.push_ram, if_neg (by omega)]
    by_cases hat : a = t
    · exact Or.inr (hat ▸ htarget)
    · refine Or.inl ?_
      rw [hpush, storeWord_other hs hat]
      rfl
  all_goals exact Bool.noConfusion hi

theorem State.Executes.effect {inst : Inst} {next : ℤ} (hexec : s.Executes f inst next)
    (ht : s.top < 2 ^ 30) (h : step im f e s = .ok s') : Effect im e f s next inst s' := by
  obtain ⟨ip, hip, hi⟩ := hexec
  obtain ⟨ip', inst', next', hip', hi', heff⟩ := step_cases ht h
  rw [hip, Option.some.injEq] at hip'
  rw [← hip', hi, Except.ok.injEq, Prod.mk.injEq] at hi'
  rw [hi'.1, hi'.2]; exact heff

/-- The extra roots of an allocation are no slots of `__vstack`. -/
theorem allocRequest_roots {inst : Inst} {r : AllocRequest}
    (h : allocRequest im e f s inst = .ok (some r)) :
    r.extraRoots.Nodup ∧ ∀ a ∈ r.extraRoots, ¬ im.inStack a := by
  have none : r.extraRoots = [] → r.extraRoots.Nodup ∧ ∀ a ∈ r.extraRoots, ¬ im.inStack a := by
    intro h
    rw [h]
    exact ⟨List.nodup_nil, fun a ha => absurd ha List.not_mem_nil⟩
  cases inst
  case string pos =>
    obtain ⟨chars, -, h⟩ := bind_eq_ok.mp h
    cases h
    refine ⟨List.nodup_singleton _, fun a ha => ?_⟩
    rw [List.mem_singleton.mp ha]
    exact im.bstringRoot_outside
  case lstring =>
    obtain ⟨⟨v, s₁⟩, -, h⟩ := bind_eq_ok.mp h
    cases h
    refine ⟨?_, fun a ha => ?_⟩
    · simp [allocString, im.roots_differ.symm]
    · rcases List.mem_cons.mp ha with rfl | ha
      · exact im.lstringRoot_outside
      · rw [List.mem_singleton.mp ha]
        exact im.bstringRoot_outside
  case sexp pos n =>
    obtain ⟨chars, -, h⟩ := bind_eq_ok.mp h
    obtain ⟨t, -, h⟩ := bind_eq_ok.mp h
    cases h
    exact none rfl
  case closure entry ls =>
    obtain ⟨s₁, -, h⟩ := bind_eq_ok.mp h
    cases h
    exact none rfl
  case barray n =>
    cases h
    exact none rfl
  all_goals cases h

/-- A plain instruction changes a slot above its operands only by an explicit store or by moving the
    object it points to. -/
theorem slotStep_plain {inst : Inst} {next : ℤ} (ht : s.top < 2 ^ 30) (hexec : s.Executes f inst next)
    (hp : inst.isPlain = true) (h : step im f e s = .ok s') {a : ℕ} (hlo : s.top + inst.pops < a)
    (ha : im.inStack a) : SlotStep im f s s' a := by
  cases hst : inst.isStore with
  | true =>
    obtain ⟨ip, hip, hi⟩ := hexec
    have hs := h
    unfold step at h
    rw [hip] at h
    obtain ⟨⟨inst', next'⟩, hi', h⟩ := bind_eq_ok.mp h
    rw [hi, Except.ok.injEq, Prod.mk.injEq] at hi'
    obtain ⟨rfl, rfl⟩ := hi'
    obtain ⟨⟨s₁, j⟩, hx, h⟩ := bind_eq_ok.mp h
    have hnot : inst.allocates = false ∧ inst.jumpTargets = [] := by
      cases inst <;> first | exact ⟨rfl, rfl⟩ | exact Bool.noConfusion hst
    obtain ⟨-, hplain⟩ := exec_execPlain (Or.inl hp) hnot.1 hnot.2 hx
    cases h
    rcases execPlain_store ht hst hplain hlo with hsame | htarget
    · exact .same hsame
    · exact .stored ⟨ip, hip, hi⟩ hst hs htarget
  | false =>
    have heff := hexec.effect ht h
    cases heff with
    | plain _ heff hip hsucc halloc hslots =>
      cases hal : inst.allocates with
      | false => exact .same (hslots hal hst a hlo ha)
      | true =>
        obtain ⟨r, p, m, hr, hreq, hm, hkept⟩ := halloc hal
        obtain ⟨hn, hroots⟩ := allocRequest_roots hr
        have hram := hreq.slots a hlo ha
        rcases alloc_ram hn hm fun hmem => hroots a hmem ha with hsame | hmoved
        · exact .same (by rw [hkept a hlo ha, hsame, hram])
        · refine .relocated hexec hal ?_
          rw [hkept a hlo ha, ← hreq.heap, ← hram]
          exact hmoved
    | prologue hinst => rcases hinst with rfl | rfl <;> cases hp
    | call => cases hp
    | callc => cases hp
    | ret hinst => rcases hinst with rfl | rfl <;> cases hp

/-! ### Inside a call -/

/-- A turn leaves the records of older frames alone, and of the running frame all but its locals. -/
theorem Effect.record {inst : Inst} {next : ℤ} (h : Effect im e f s next inst s') {i : ℕ}
    (hi : s.ctop ≤ i) : (s'.cstack i).base = (s.cstack i).base ∧
      (s'.cstack i).resultSlot = (s.cstack i).resultSlot ∧
      (s'.cstack i).returnIp = (s.cstack i).returnIp ∧ (s.ctop < i → s'.cstack i = s.cstack i) := by
  have same : s'.cstack i = s.cstack i → (s'.cstack i).base = (s.cstack i).base ∧
      (s'.cstack i).resultSlot = (s.cstack i).resultSlot ∧
      (s'.cstack i).returnIp = (s.cstack i).returnIp ∧ (s.ctop < i → s'.cstack i = s.cstack i) := by
    intro h
    rw [h]
    exact ⟨rfl, rfl, rfl, fun _ => rfl⟩
  cases h with
  | plain _ heff => exact same (by rw [heff.control.cstack])
  | prologue =>
    simp only [State.reserved]
    split
    · exact ⟨rfl, rfl, rfl, fun hlt => by omega⟩
    · exact ⟨rfl, rfl, rfl, fun _ => rfl⟩
  | call hpos => exact same (by simp only [State.called]; rw [if_neg (by omega)])
  | callc hpos => exact same (by simp only [State.called]; rw [if_neg (by omega)])
  | ret => exact same rfl

/-- A state between a call in `s₀` and its return: the frame of the call returns to `next`, with its
    result in `slot`, and the records of the caller and of older frames are those of `s₀`. -/
structure Records (s₀ : State) (slot : ℕ) (next : ℤ) (s : State) : Prop where
  depth : s.ctop < s₀.ctop
  callee : (s.cstack (s₀.ctop - 1)).resultSlot = slot ∧ (s.cstack (s₀.ctop - 1)).returnIp = some next
  older : ∀ c, s₀.ctop ≤ c → s.cstack c = s₀.cstack c
  globalsCount : s.globalsCount = s₀.globalsCount

theorem Records.step {slot : ℕ} {next next' : ℤ} {inst : Inst} (h : Records s₀ slot next s)
    (heff : Effect im e f s next' inst s') (hdepth : s'.ctop < s₀.ctop) : Records s₀ slot next s' := by
  have hlt := h.depth
  obtain ⟨-, hslot, hret, -⟩ := heff.record (i := s₀.ctop - 1) (by omega)
  refine ⟨hdepth, ?_, fun i hi => ?_, heff.globalsCount.trans h.globalsCount⟩
  · rw [hslot, hret]; exact h.callee
  · rw [(heff.record (i := i) (by omega)).2.2.2 (by omega)]
    exact h.older i hi

/-- Moreover the frames above the caller's stay below the top the call found, and the result of each
    goes into the frame that called it. -/
structure Inside (s₀ : State) (slot : ℕ) (next : ℤ) (s : State) : Prop extends
    Records s₀ slot next s where
  top_le : s.top ≤ s.frame.base
  bases : ∀ c, s.ctop ≤ c → c < s₀.ctop → (s.cstack c).base ≤ s₀.top
  nested : ∀ c, s.ctop ≤ c → c + 1 < s₀.ctop → (s.cstack c).resultSlot ≤ (s.cstack (c + 1)).base

theorem Inside.top_le_caller {slot : ℕ} {next : ℤ} (h : Inside s₀ slot next s) : s.top ≤ s₀.top :=
  Nat.le_trans h.top_le (h.bases s.ctop (Nat.le_refl _) h.depth)

/-- What a call pops is in its frame, or below the top. -/
theorem KeepsLocals.popsTo_le {inst : Inst} {next : ℤ} (hk : KeepsLocals f s)
    (hexec : s.Executes f inst next) (htop : s.top ≤ s.frame.base) :
    inst.popsTo s ≤ s.frame.base := by
  by_cases hlt : s.top < inst.popsTo s
  · have := hk inst next hexec hlt
    omega
  · omega

/-- A turn that does not return to the caller stays inside the call. -/
theorem Inside.step {slot : ℕ} {next : ℤ} (h : Inside s₀ slot next s) (ht : s₀.top < 2 ^ 30)
    (hs : Lama.step im f e s = .ok s') (hk : KeepsLocals f s) (hr : ReservesInside f s)
    (hdepth : s'.ctop < s₀.ctop) : Inside s₀ slot next s' := by
  have htop := h.top_le_caller
  have htop' : s.top < 2 ^ 30 := by omega
  obtain ⟨ip, inst, next', hip, hi, heff⟩ := step_cases htop' hs
  have hexec : s.Executes f inst next' := ⟨ip, hip, hi⟩
  have hpops := hk.popsTo_le hexec h.top_le
  have hrecords := h.toRecords.step heff hdepth
  have hlt := h.depth
  -- what is known of the frames of `s` holds of them in `s'`
  have bases : ∀ i, s.ctop ≤ i → i < s₀.ctop → (s'.cstack i).base ≤ s₀.top := by
    intro i hi hlt
    rw [(heff.record hi).1]; exact h.bases i hi hlt
  have nested : ∀ i, s.ctop ≤ i → i + 1 < s₀.ctop →
      (s'.cstack i).resultSlot ≤ (s'.cstack (i + 1)).base := by
    intro i hi hlt
    rw [(heff.record hi).2.1, (heff.record (by omega)).1]; exact h.nested i hi hlt
  -- a call adds one frame, whose base is the top and whose result slot is what the call pops
  have called : ∀ {ret : ℤ} {n : ℕ} {c : Bool}, 0 < s.ctop →
      (s.callee ret n c).resultSlot ≤ s.frame.base → s'.ctop = s.ctop - 1 → s'.top = s.top →
      s'.cstack (s.ctop - 1) = s.callee ret n c → Inside s₀ slot next s' := by
    intro ret n c hpos hslot hctop htops hself
    refine ⟨hrecords, ?_, fun i hi hlt => ?_, fun i hi hlt => ?_⟩
    · rw [State.frame, hctop, hself, htops]; exact Nat.le_refl _
    · by_cases hc : s.ctop ≤ i
      · exact bases i hc hlt
      · rw [show i = s.ctop - 1 by omega, hself]; exact htop
    · by_cases hc : s.ctop ≤ i
      · exact nested i hc hlt
      · rw [show i = s.ctop - 1 by omega, hself, show s.ctop - 1 + 1 = s.ctop by omega,
          (heff.record (Nat.le_refl _)).1]
        exact hslot
  cases heff with
  | @plain _ _ ip' hplain heff _ _ _ _ =>
    have hc := heff.control
    have hframe : s'.frame = s.frame := by rw [State.frame, State.frame, hc.cstack, hc.ctop]
    have hpops' : s.top + inst.pops ≤ s.frame.base := by
      cases inst <;> first | exact hpops | exact Bool.noConfusion hplain
    have hmove := heff.top
    refine ⟨hrecords, by rw [hframe]; omega, ?_, ?_⟩
    · rw [hc.ctop]; exact bases
    · rw [hc.ctop]; exact nested
  | @prologue _ argc locc hinst _ =>
    have hle := hr ip inst next' argc locc hip hi hinst
    have hbase : ((s.reserved (toSize locc)).cstack s.ctop).base = (s.cstack s.ctop).base := by
      simp [State.reserved]
    refine ⟨hrecords, ?_, bases, nested⟩
    show ptrAdd s.top (-toSize locc) ≤ ((s.reserved (toSize locc)).cstack s.ctop).base
    rw [reserved_top hle htop', hbase]
    have : s.top ≤ (s.cstack s.ctop).base := h.top_le
    omega
  | @call returnIp offset argc hpos _ =>
    have hslot : (s.callee returnIp (toSize argc) false).resultSlot ≤ s.frame.base := by
      simpa [Frame.resultSlot, State.callee, Inst.popsTo] using hpops
    exact called hpos hslot rfl rfl (by simp [State.called])
  | @callc returnIp argc _ _ _ hpos _ _ _ _ =>
    have hslot : (s.callee returnIp (toSize argc) true).resultSlot ≤ s.frame.base := by
      simpa [Frame.resultSlot, State.callee, Inst.popsTo] using hpops
    exact called hpos hslot rfl rfl (by simp [State.called])
  | ret _ _ _ hlo _ =>
    have hdepth : s.ctop + 1 < s₀.ctop := hdepth
    have hnested : s.frame.resultSlot ≤ (s.cstack (s.ctop + 1)).base :=
      h.nested s.ctop (Nat.le_refl _) hdepth
    refine ⟨hrecords, ?_, fun i hi hlt => bases i (Nat.le_of_succ_le hi) hlt,
      fun i hi hlt => nested i (Nat.le_of_succ_le hi) hlt⟩
    show s.frame.resultSlot - 1 ≤ (s.cstack (s.ctop + 1)).base
    omega

/-- A turn inside a call, or the one that ends it, changes a slot above that of the result only by
    an explicit store or by moving an object. -/
theorem Inside.slotStep {slot : ℕ} {next : ℤ} (h : Inside s₀ slot next s) (ht : s₀.top < 2 ^ 30)
    (hs : Lama.step im f e s = .ok s') (hk : KeepsLocals f s) (hslot : s₀.top ≤ slot) {a : ℕ}
    (hlo : slot < a) (ha : im.inStack a) : SlotStep im f s s' a := by
  have htop := h.top_le_caller
  have htop' : s.top < 2 ^ 30 := by omega
  have hbase := h.bases s.ctop (Nat.le_refl _) h.depth
  obtain ⟨ip, inst, next', hip, hi, heff⟩ := step_cases htop' hs
  have hexec : s.Executes f inst next' := ⟨ip, hip, hi⟩
  have hpops := hk.popsTo_le hexec h.top_le
  cases heff with
  | plain hplain =>
    refine slotStep_plain htop' hexec hplain hs ?_ ha
    have hpops' : s.top + inst.pops ≤ s.frame.base := by
      cases inst <;> first | exact hpops | exact Bool.noConfusion hplain
    have hbase : s.frame.base ≤ s₀.top := hbase
    omega
  | prologue => exact .same rfl
  | call => exact .same rfl
  | callc => exact .same rfl
  | ret =>
    have hle : s.frame.resultSlot ≤ slot := by
      have hlt := h.depth
      by_cases hlast : s.ctop + 1 = s₀.ctop
      · have := h.callee.1
        rw [show s₀.ctop - 1 = s.ctop by omega] at this
        exact Nat.le_of_eq this
      · have := h.nested s.ctop (Nat.le_refl _) (by omega)
        have hbase' := h.bases (s.ctop + 1) (by omega) (by omega)
        have hle : s.frame.resultSlot ≤ (s.cstack (s.ctop + 1)).base := this
        omega
    refine .same ?_
    show (s.mem.setRam s.frame.resultSlot _).ram a = s.mem.ram a
    simp only [Memory.setRam]
    rw [if_neg (by omega)]

/-! ### From the call to the return -/

/-- Every address a run keeps on its stacks is in the address space. -/
theorem addresses_of_run {heapBegin : ℕ} {ip : ℤ} (hinit : interpreteInit im f heapBegin ip = .ok s₀)
    (hrun : ReflTransGen (Turn im f) s₀ s) : s.top < 2 ^ 30 ∧ ∀ c, (s.cstack c).base < 2 ^ 30 := by
  induction hrun with
  | refl =>
    obtain ⟨u, hc, h⟩ := bind_eq_ok.mp hinit
    cases h
    refine ⟨ptrAdd_lt _ _, fun c => ?_⟩
    dsimp only
    split
    · exact ptrAdd_lt _ _
    · decide
  | tail _ hturn ih =>
    obtain ⟨htop, hbase⟩ := ih
    obtain ⟨e, hs⟩ := hturn
    obtain ⟨ip', inst, next, -, -, heff⟩ := step_cases htop hs
    refine ⟨heff.top_lt htop, fun c => ?_⟩
    cases heff with
    | plain _ heff => rw [heff.control.cstack]; exact hbase c
    | prologue =>
      simp only [State.reserved]
      split <;> exact hbase c
    | call =>
      simp only [State.called]
      split
      · exact htop
      · exact hbase c
    | callc =>
      simp only [State.called]
      split
      · exact htop
      · exact hbase c
    | ret => exact hbase c

theorem Inst.callOf_cases {inst : Inst} {argc : ℤ} {c : Bool} (h : inst.callOf = some (argc, c)) :
    (∃ ret offset, inst = .call ret offset argc ∧ c = false) ∨
      ∃ ret, inst = .callc ret argc ∧ c = true := by
  cases inst <;> cases h
  · exact Or.inr ⟨_, rfl, rfl⟩
  · exact Or.inl ⟨_, _, rfl, rfl⟩

/-- What a call does. -/
theorem Effect.called {inst : Inst} {next argc : ℤ} {c : Bool} (h : Effect im e f s next inst s')
    (hc : inst.callOf = some (argc, c)) : ∃ ret target, 0 < s.ctop ∧
      (inst = .call ret target argc ∨ inst = .callc ret argc) ∧
      s' = { s.called ret (toSize argc) c with ip := some target } := by
  rcases inst.callOf_cases hc with ⟨ret, offset, rfl, rfl⟩ | ⟨ret, rfl, rfl⟩
  · cases h with
    | call hpos => exact ⟨ret, offset, hpos, Or.inl rfl, rfl⟩
    | plain hp => cases hp
    | prologue hi => rcases hi with hi | hi <;> cases hi
    | ret hi => rcases hi with hi | hi <;> cases hi
  · cases h with
    | callc hpos => exact ⟨ret, _, hpos, Or.inr rfl, rfl⟩
    | plain hp => cases hp
    | prologue hi => rcases hi with hi | hi <;> cases hi
    | ret hi => rcases hi with hi | hi <;> cases hi

/-- What `END` and `RET` do. -/
theorem Effect.returned {inst : Inst} {next : ℤ} (h : Effect im e f s next inst s')
    (hi : inst = .end_ ∨ inst = .ret) : im.vstack < s.frame.resultSlot ∧
      s' = { s.returned with ip := s.frame.returnIp } := by
  cases h with
  | ret _ _ _ hlo => exact ⟨hlo, rfl⟩
  | plain hp => rcases hi with rfl | rfl <;> cases hp
  | prologue h => rcases hi with rfl | rfl <;> rcases h with h | h <;> cases h
  | call => rcases hi with h | h <;> cases h
  | callc => rcases hi with h | h <;> cases h

/-- The state right after a call. -/
theorem Effect.records {inst : Inst} {next argc : ℤ} {c : Bool} (h : Effect im e f s next inst s')
    (hexec : s.Executes f inst next) (hc : inst.callOf = some (argc, c)) :
    Records s (ptrAdd s.top (toSize argc + c.toNat)) next s' ∧ s'.ctop = s.ctop - 1 ∧
      s'.top = s.top ∧ s'.frame.base = s.top ∧ s'.mem = s.mem := by
  obtain ⟨ret, target, hpos, hinst, rfl⟩ := h.called hc
  obtain ⟨ip, -, hi⟩ := hexec
  have hret : ret = next := by
    rcases hinst with rfl | rfl
    · exact readInst_call hi
    · exact readInst_callc hi
  have hself : (s.called ret (toSize argc) c).cstack (s.ctop - 1) = s.callee ret (toSize argc) c := by
    simp [State.called]
  refine ⟨⟨?_, ?_, fun i hi => ?_, rfl⟩, rfl, rfl, ?_, rfl⟩
  · show s.ctop - 1 < s.ctop
    omega
  · show ((s.called ret (toSize argc) c).cstack (s.ctop - 1)).resultSlot = _ ∧
      ((s.called ret (toSize argc) c).cstack (s.ctop - 1)).returnIp = _
    rw [hself]
    exact ⟨rfl, by rw [← hret]; rfl⟩
  · simp only [State.called]
    rw [if_neg (by omega)]
  · show ((s.called ret (toSize argc) c).cstack (s.ctop - 1)).base = s.top
    rw [hself]
    rfl

theorem CallPath.pos {p : ℕ → State} {n : ℕ} {inst : Inst} {next argc : ℤ} {c : Bool}
    (h : CallPath im f p n inst next argc c) : 0 < n := by
  have hlast := h.returns.1
  rcases Nat.eq_zero_or_pos n with rfl | hn
  · omega
  · exact hn

/-- Until a call returns the records it found stay. -/
theorem CallPath.records {p : ℕ → State} {n : ℕ} {inst : Inst} {next argc : ℤ} {c : Bool}
    (h : CallPath im f p n inst next argc c) (ht : (p 0).top < 2 ^ 30) : ∀ k, 0 < k → k ≤ n →
      (p k).top < 2 ^ 30 ∧ Records (p 0) (ptrAdd (p 0).top (toSize argc + c.toNat)) next (p k) := by
  intro k hk hkn
  induction k with
  | zero => omega
  | succ k ih =>
    obtain ⟨e, hs⟩ := h.turns k (by omega)
    rcases Nat.eq_zero_or_pos k with rfl | hk
    · have heff := h.executes.effect ht hs
      exact ⟨heff.top_lt ht, (heff.records h.executes h.call).1⟩
    · obtain ⟨htop, hrecords⟩ := ih hk (by omega)
      obtain ⟨ip, inst', next', -, -, heff⟩ := step_cases htop hs
      exact ⟨heff.top_lt htop, hrecords.step heff (h.inside (k + 1) (by omega) hkn)⟩

/-- The return of a call puts its result where the arguments were and goes on in the caller. -/
theorem CallPath.returned {p : ℕ → State} {n : ℕ} {inst : Inst} {next argc : ℤ} {c : Bool}
    (h : CallPath im f p n inst next argc c) (ht : (p 0).top < 2 ^ 30) :
    (p (n + 1)).ctop = (p 0).ctop ∧ (p (n + 1)).ip = some next ∧
      (p (n + 1)).top + 1 = ptrAdd (p 0).top (toSize argc + c.toNat) ∧
      (p (n + 1)).mem.ram ((p (n + 1)).top + 1) = (p n).mem.ram ((p n).top + 1) ∧
      (∀ k, (p 0).ctop ≤ k → (p (n + 1)).cstack k = (p 0).cstack k) ∧
      (p (n + 1)).globalsCount = (p 0).globalsCount := by
  obtain ⟨hlast, inst', next', hexec, hret⟩ := h.returns
  obtain ⟨hlt, hrecords⟩ := h.records ht n h.pos (Nat.le_refl n)
  obtain ⟨e, hs⟩ := h.turns n (by omega)
  obtain ⟨hlo, hp⟩ := (hexec.effect hlt hs).returned hret
  have hframe : (p n).frame = (p n).cstack ((p 0).ctop - 1) := by
    rw [State.frame, show (p 0).ctop - 1 = (p n).ctop by omega]
  have htop : (p (n + 1)).top + 1 = (p n).frame.resultSlot := by
    have : (p (n + 1)).top = (p n).frame.resultSlot - 1 := by rw [hp]; rfl
    omega
  refine ⟨?_, ?_, ?_, ?_, fun k hk => ?_, ?_⟩
  · rw [hp]; exact hlast
  · rw [hp]
    show (p n).frame.returnIp = some next
    rw [hframe]; exact hrecords.callee.2
  · rw [htop, hframe]; exact hrecords.callee.1
  · rw [htop, hp]
    show (Memory.setRam _ _ _).ram _ = _
    simp [Memory.setRam]
  · rw [hp]; exact hrecords.older k hk
  · rw [hp]; exact hrecords.globalsCount

/-- The slot of the result when the arguments are above the locals of the caller. -/
theorem CallSegment.slot_eq {p : ℕ → State} {n : ℕ} {inst : Inst} {next argc : ℤ} {c : Bool}
    (h : CallSegment im f p n inst next argc c) (hb : (p 0).frame.base < 2 ^ 30) :
    ptrAdd (p 0).top (toSize argc + c.toNat) = (p 0).top + argc.toNat + c.toNat := by
  have hargc := h.argc_nonneg
  have hroom := h.operands
  have hsize : toSize argc = argc.toNat := toSize_toNat hargc (by omega)
  have := ptrAdd_eq (p := (p 0).top) (n := toSize argc + c.toNat) (by omega) (by omega)
  omega

/-- Every state of a segment is inside its call. -/
theorem CallSegment.insideCall {p : ℕ → State} {n : ℕ} {inst : Inst} {next argc : ℤ} {c : Bool}
    (h : CallSegment im f p n inst next argc c) (ht : (p 0).top < 2 ^ 30)
    (hreserve : ∀ k, 0 < k → k ≤ n → ReservesInside f (p k)) : ∀ k, 0 < k → k ≤ n →
      Inside (p 0) (ptrAdd (p 0).top (toSize argc + c.toNat)) next (p k) := by
  intro k hk hkn
  -- the induction is on the turns; a call enters a frame without operands
  induction k with
  | zero => omega
  | succ k ih =>
    obtain ⟨e, hs⟩ := h.turns k (by omega)
    rcases Nat.eq_zero_or_pos k with rfl | hk
    · obtain ⟨hrecords, hctop, htop, hbase, -⟩ :=
        (h.executes.effect ht hs).records h.executes h.call
      refine ⟨hrecords, Nat.le_of_eq (htop.trans hbase.symm), fun i hi hlt => ?_,
        fun i hi hlt => ?_⟩
      · rw [show i = (p (0 + 1)).ctop by omega]
        exact Nat.le_of_eq hbase
      · omega
    · exact (ih hk (by omega)).step ht hs (h.keeps k hk (by omega)) (hreserve k hk (by omega))
        (h.inside (k + 1) (by omega) hkn)

/-- In a run of `interprete`: when a call is executed with its arguments above the locals of its
    frame, no instruction up to the return of the frame it enters pops below the locals of its own
    frame, and no prologue on the way reserves more words than there are below the top, then the
    return leaves the caller as it was, with the result in place of the arguments. -/
theorem call_returns {heapBegin : ℕ} {ip : ℤ} {s₀ : State}
    (hinit : interpreteInit im f heapBegin ip = .ok s₀) {p : ℕ → State} {n : ℕ}
    (hrun : ReflTransGen (Turn im f) s₀ (p 0)) {inst : Inst} {next argc : ℤ} {c : Bool}
    (hseg : CallSegment im f p n inst next argc c)
    (hreserve : ∀ k, 0 < k → k ≤ n → ReservesInside f (p k)) : Returned im f p n next argc c := by
  obtain ⟨htop, hbase⟩ := addresses_of_run hinit hrun
  obtain ⟨hctop, hip, hslot, hresult, hrecords, hglobals⟩ := hseg.returned htop
  have heq := hseg.slot_eq (hbase _)
  refine ⟨hctop, hip, hslot.trans heq, hresult, hrecords, hglobals, fun a hlo ha k hk => ?_⟩
  obtain ⟨e, hs⟩ := hseg.turns k (by omega)
  rcases Nat.eq_zero_or_pos k with rfl | hpos
  · obtain ⟨-, -, -, -, hmem⟩ := (hseg.executes.effect htop hs).records hseg.executes hseg.call
    exact .same (by rw [hmem])
  · exact (hseg.insideCall htop hreserve k hpos hk).slotStep htop hs (hseg.keeps k hpos hk)
      (by omega) (by omega) ha

/-! ### Paths that can be computed -/

/-- The states of `n` turns that all take the same input. -/
def stateRun (im : Image) (f : Bytefile) (e : Env) : ℕ → State → Except Stop (List State)
  | 0, s => .ok [s]
  | n + 1, s => do
    let s' ← step im f e s
    let states ← stateRun im f e n s'
    return s :: states

theorem path_of_stateRun : ∀ {n : ℕ} {s : State} {states : List State},
    stateRun im f e n s = .ok states →
      ∃ p : ℕ → State, p 0 = s ∧ Path (Turn im f) p n ∧ states = (List.range (n + 1)).map p
  | 0, s, states, h => by
    cases h
    exact ⟨fun _ => s, rfl, fun i hi => absurd hi (Nat.not_lt_zero i), rfl⟩
  | n + 1, s, states, h => by
    obtain ⟨s', hs, h⟩ := bind_eq_ok.mp h
    obtain ⟨rest, hr, h⟩ := bind_eq_ok.mp h
    cases h
    obtain ⟨p, rfl, hp, rfl⟩ := path_of_stateRun hr
    refine ⟨fun k => if k = 0 then s else p (k - 1), rfl, fun i hi => ?_, ?_⟩
    · cases i with
      | zero => exact ⟨e, hs⟩
      | succ i => exact hp i (by omega)
    · rw [show List.range (n + 1 + 1) = 0 :: (List.range (n + 1)).map Nat.succ from
        List.range_succ_eq_map, List.map_cons, List.map_map]
      rfl

/-- A run from the start of `interprete`, state by state. -/
def programRun (im : Image) (f : Bytefile) (e : Env) (n : ℕ) : Except Stop (List State) := do
  let s ← interpreteInit im f sampleHeap 0
  stateRun im f e n s

/-- What a computed run shows of the states from the `m`-th on. -/
theorem exists_path {α : Type} {n m : ℕ} {obs : State → α} {xs : List α}
    (h : (programRun im f e (m + n)).map (fun states => (states.drop m).map obs) = .ok xs) :
    ∃ s₀ p, interpreteInit im f sampleHeap 0 = .ok s₀ ∧ ReflTransGen (Turn im f) s₀ (p 0) ∧
      Path (Turn im f) p n ∧ xs = (List.range (n + 1)).map fun k => obs (p k) := by
  obtain ⟨states, hrun, hobs⟩ := exists_of_map_eq_ok h
  obtain ⟨s₀, hs₀, hrun⟩ := bind_eq_ok.mp hrun
  obtain ⟨q, rfl, hq, rfl⟩ := path_of_stateRun hrun
  refine ⟨q 0, fun k => q (m + k), hs₀, ?_, fun i hi => hq (m + i) (by omega), ?_⟩
  · have reach : ∀ i, i ≤ m → ReflTransGen (Turn im f) (q 0) (q i) := by
      intro i hi
      induction i with
      | zero => exact .refl
      | succ i ih => exact (ih (by omega)).tail (hq i (by omega))
    exact reach m (Nat.le_refl m)
  · rw [← hobs, ← List.map_drop]
    have hdrop : (List.range (m + n + 1)).drop m = (List.range (n + 1)).map fun k => m + k := by
      rw [List.range_eq_range', List.drop_range', List.range_eq_range', List.map_add_range']
      simp only [Nat.zero_add, Nat.add_zero, Nat.mul_one]
      congr 1
      omega
    rw [hdrop, List.map_map, List.map_map]
    rfl

/-- `KeepsLocals`, computed. -/
def keepsLocals (f : Bytefile) (s : State) : Bool :=
  match s.fetch f with
  | none => true
  | some (inst, _) => !decide (s.top < inst.popsTo s) ||
      decide (inst.popsTo s + s.frame.localsCount ≤ s.frame.base)

theorem keepsLocals_iff (h : keepsLocals f s = true) : KeepsLocals f s := by
  intro inst next hexec hlt
  rw [State.executes_iff] at hexec
  simpa [keepsLocals, hexec, hlt] using h

/-- `ReservesInside`, computed. -/
def reservesInside (f : Bytefile) (s : State) : Bool :=
  match s.fetch f with
  | some (.begin _ locc, _) | some (.cbegin _ locc, _) => decide (toSize locc ≤ s.top)
  | _ => true

theorem reservesInside_iff (h : reservesInside f s = true) : ReservesInside f s := by
  intro ip inst next argc locc hip hi hinst
  have hfetch := State.executes_iff.mp ⟨ip, hip, hi⟩
  rcases hinst with rfl | rfl <;> simpa [reservesInside, hfetch] using h

/-- A segment in which only the first instruction is a call. -/
theorem CallSegment.of_flat {p : ℕ → State} {n : ℕ} {inst : Inst} {next argc : ℤ} {c : Bool}
    (hturns : Path (Turn im f) p (n + 1)) (hcall : inst.callOf = some (argc, c)) (hargc : 0 ≤ argc)
    (hfetch : (p 0).fetch f = some (inst, next))
    (hroom : (p 0).top + argc.toNat + c.toNat + (p 0).frame.localsCount ≤ (p 0).frame.base)
    (hprologue : ∃ args locals next', 0 ≤ locals ∧ (p 1).fetch f = some (.begin args locals, next'))
    (hinside : ∀ k, 0 < k → k ≤ n → (p k).ctop < (p 0).ctop ∧ keepsLocals f (p k) = true ∧
      ((p k).fetch f).all (fun q => q.1.callOf == none) = true)
    (hend : (p n).ctop + 1 = (p 0).ctop ∧ ∃ next', (p n).fetch f = some (.end_, next')) :
    CallSegment im f p n inst next argc c where
  turns := hturns
  executes := State.executes_iff.mpr hfetch
  call := hcall
  argc_nonneg := hargc
  operands := hroom
  inside k hk hkn := (hinside k hk hkn).1
  returns := by
    obtain ⟨hctop, next', hf⟩ := hend
    exact ⟨hctop, _, next', State.executes_iff.mpr hf, Or.inl rfl⟩
  prologues := by
    intro k hkn inst' next' call hexec hc
    rcases Nat.eq_zero_or_pos k with rfl | hk
    · obtain ⟨args, locals, next'', hl, hf⟩ := hprologue
      exact ⟨_, next'', args, locals, State.executes_iff.mpr hf, Or.inl rfl, hl⟩
    · have hnone := (hinside k hk hkn).2.2
      rw [State.executes_iff] at hexec
      simp [hexec, hc] at hnone
  keeps k hk hkn := keepsLocals_iff (hinside k hk hkn).2.1

/-- What a computed segment shows of a state: the instruction, the stacks, the checks of its turn,
    and one slot. -/
structure Glance where
  fetch : Option (Inst × ℤ)
  ctop : ℕ
  top : ℕ
  room : Bool
  keeps : Bool
  reserves : Bool
  slot : Word
  deriving DecidableEq

def glance (f : Bytefile) (n a : ℕ) (s : State) : Glance where
  fetch := s.fetch f
  ctop := s.ctop
  top := s.top
  room := decide (s.top + n + s.frame.localsCount ≤ s.frame.base)
  keeps := keepsLocals f s
  reserves := reservesInside f s
  slot := s.mem.ram a

theorem Glance.flat {n a : ℕ} {g : Glance} (hg : g = glance f n a s) (hctop : g.ctop < s₀.ctop)
    (hkeeps : g.keeps = true) (hflat : g.fetch.all (fun q => q.1.callOf == none) = true) :
    s.ctop < s₀.ctop ∧ keepsLocals f s = true ∧ (s.fetch f).all (fun q => q.1.callOf == none) = true := by
  rw [hg] at hctop hkeeps hflat
  exact ⟨hctop, hkeeps, hflat⟩

theorem call_returns_passSeven :
    ∃ s₀ p, interpreteInit sampleImage (program 0 passSeven) sampleHeap 0 = .ok s₀ ∧
      ReflTransGen (Turn sampleImage (program 0 passSeven)) s₀ (p 0) ∧
      Returned sampleImage (program 0 passSeven) p 3 23 1 false := by
  have hrun : (programRun sampleImage (program 0 passSeven) sampleEnv (2 + 4)).map (fun states =>
      (states.drop 2).map (glance (program 0 passSeven) 1 0)) =
      .ok [⟨some (.call 23 24 1, 23), 65535, 66534, true, true, true, 0⟩,
        ⟨some (.begin 1 0, 33), 65534, 66534, false, true, true, 0⟩,
        ⟨some (.ld ⟨2, 0⟩, 38), 65534, 66534, false, true, true, 0⟩,
        ⟨some (.end_, 39), 65534, 66533, true, true, true, 0⟩,
        ⟨some (.end_, 24), 65535, 66534, true, true, true, 0⟩] := by decide +kernel
  obtain ⟨s₀, p, hinit, hreach, hpath, hobs⟩ := exists_path hrun
  simp only [List.range_succ_eq_map, List.range_zero, List.map_cons, List.map_nil,
    List.cons.injEq, and_true] at hobs
  obtain ⟨h0, h1, h2, h3, -⟩ := hobs
  have inside : ∀ {P : ℕ → Prop}, P 1 → P 2 → P 3 → ∀ k, 0 < k → k ≤ 3 → P k := by
    intro P p1 p2 p3 k hk hk3
    obtain rfl | rfl | rfl : k = 1 ∨ k = 2 ∨ k = 3 := by omega
    · exact p1
    · exact p2
    · exact p3
  have hctop : (p 0).ctop = 65535 := (congrArg Glance.ctop h0).symm
  have hlt : 65534 < (p 0).ctop := by omega
  have hroom : (p 0).top + 1 + (p 0).frame.localsCount ≤ (p 0).frame.base :=
    of_decide_eq_true (congrArg Glance.room h0).symm
  have hlast : (p 3).ctop = 65534 := (congrArg Glance.ctop h3).symm
  have hseg : CallSegment sampleImage (program 0 passSeven) p 3 (.call 23 24 1) 23 1 false :=
    .of_flat hpath rfl (by decide) (congrArg Glance.fetch h0).symm (by simpa using hroom)
      ⟨1, 0, 33, Int.le_refl 0, (congrArg Glance.fetch h1).symm⟩
      (inside (Glance.flat h1 hlt rfl rfl) (Glance.flat h2 hlt rfl rfl) (Glance.flat h3 hlt rfl rfl))
      ⟨by omega, 39, (congrArg Glance.fetch h3).symm⟩
  exact ⟨s₀, p, hinit, hreach, call_returns hinit hreach hseg
    (inside (reservesInside_iff (congrArg Glance.reserves h1).symm)
      (reservesInside_iff (congrArg Glance.reserves h2).symm)
      (reservesInside_iff (congrArg Glance.reserves h3).symm))⟩

/-- `BEGIN 0 0; CONST 5; CONST 6; CALL 29 0; END`, and at 29 a function that reserves `2 ^ 30 - 2`
    locals, pushes three times and jumps behind its `END`, to `BEGIN 0 0; END`. -/
def wideLocals : List UInt8 :=
  82 :: intBytes 0 ++ intBytes 0 ++ 16 :: intBytes 5 ++ 16 :: intBytes 6 ++
    86 :: intBytes 29 ++ intBytes 0 ++ [22] ++
    82 :: intBytes 0 ++ intBytes 0x3FFFFFFE ++ 16 :: intBytes 7 ++ 16 :: intBytes 7 ++
    16 :: intBytes 7 ++ 21 :: intBytes 59 ++ [22] ++ 82 :: intBytes 0 ++ intBytes 0 ++ [22]

/-- The locals wrap around the address space: `CONST 7` overwrites the 5 the caller pushed. -/
theorem wideLocals_overwrites :
    ∃ s₀ p, loadProgram 80 (fun _ _ => 0) (programBytes 0 wideLocals) =
        .ok (program 0 wideLocals, 0) ∧
      interpreteInit sampleImage (program 0 wideLocals) sampleHeap 0 = .ok s₀ ∧
      ReflTransGen (Turn sampleImage (program 0 wideLocals)) s₀ (p 0) ∧
      CallSegment sampleImage (program 0 wideLocals) p 7 (.call 28 29 0) 28 0 false ∧
      (p 0).mem.ram 66535 = box 5 ∧ (p 8).mem.ram 66535 = box 7 ∧
      ¬ Returned sampleImage (program 0 wideLocals) p 7 28 0 false := by
  have hrun : (programRun sampleImage (program 0 wideLocals) sampleEnv (3 + 8)).map (fun states =>
      (states.drop 3).map (glance (program 0 wideLocals) 0 66535)) =
      .ok [⟨some (.call 28 29 0, 28), 65535, 66533, true, true, true, box 5⟩,
        ⟨some (.begin 0 0x3FFFFFFE, 38), 65534, 66533, true, true, false, box 5⟩,
        ⟨some (.const 7, 43), 65534, 66535, false, true, true, box 5⟩,
        ⟨some (.const 7, 48), 65534, 66534, false, true, true, box 7⟩,
        ⟨some (.const 7, 53), 65534, 66533, false, true, true, box 7⟩,
        ⟨some (.jmp 59, 58), 65534, 66532, false, true, true, box 7⟩,
        ⟨some (.begin 0 0, 68), 65534, 66532, false, true, true, box 7⟩,
        ⟨some (.end_, 69), 65534, 66532, true, true, true, box 7⟩,
        ⟨some (.end_, 29), 65535, 66532, true, true, true, box 7⟩] := by decide +kernel
  obtain ⟨s₀, p, hinit, hreach, hpath, hobs⟩ := exists_path hrun
  simp only [List.range_succ_eq_map, List.range_zero, List.map_cons, List.map_nil,
    List.cons.injEq, and_true] at hobs
  obtain ⟨h0, h1, h2, h3, h4, h5, h6, h7, h8⟩ := hobs
  have inside : ∀ {P : ℕ → Prop}, P 1 → P 2 → P 3 → P 4 → P 5 → P 6 → P 7 →
      ∀ k, 0 < k → k ≤ 7 → P k := by
    intro P p1 p2 p3 p4 p5 p6 p7 k hk hk7
    obtain rfl | rfl | rfl | rfl | rfl | rfl | rfl :
      k = 1 ∨ k = 2 ∨ k = 3 ∨ k = 4 ∨ k = 5 ∨ k = 6 ∨ k = 7 := by omega
    all_goals assumption
  have hctop : (p 0).ctop = 65535 := (congrArg Glance.ctop h0).symm
  have hlt : 65534 < (p 0).ctop := by omega
  have hroom : (p 0).top + 0 + (p 0).frame.localsCount ≤ (p 0).frame.base :=
    of_decide_eq_true (congrArg Glance.room h0).symm
  have hlast : (p 7).ctop = 65534 := (congrArg Glance.ctop h7).symm
  have hseg : CallSegment sampleImage (program 0 wideLocals) p 7 (.call 28 29 0) 28 0 false :=
    .of_flat hpath rfl (by decide) (congrArg Glance.fetch h0).symm (by simpa using hroom)
      ⟨0, 0x3FFFFFFE, 38, by decide, (congrArg Glance.fetch h1).symm⟩
      (inside (Glance.flat h1 hlt rfl rfl) (Glance.flat h2 hlt rfl rfl) (Glance.flat h3 hlt rfl rfl)
        (Glance.flat h4 hlt rfl rfl) (Glance.flat h5 hlt rfl rfl) (Glance.flat h6 hlt rfl rfl)
        (Glance.flat h7 hlt rfl rfl))
      ⟨by omega, 69, (congrArg Glance.fetch h7).symm⟩
  refine ⟨s₀, p, by decide +kernel, hinit, hreach, hseg, (congrArg Glance.slot h0).symm,
    (congrArg Glance.slot h8).symm, fun hreturned => ?_⟩
  have htop : 66533 = (p 0).top := congrArg Glance.top h0
  have hstep := hreturned.slots 66535 (by simp only [Int.toNat_zero, Bool.toNat_false]; omega)
    (by decide) 2 (by decide)
  -- the turn that overwrites the slot executes `CONST 7`
  have hconst : ∀ {inst : Inst} {next : ℤ}, (p 2).Executes (program 0 wideLocals) inst next →
      inst = .const 7 := by
    intro inst next hexec
    rw [State.executes_iff, show (p 2).fetch (program 0 wideLocals) = _ from
      (congrArg Glance.fetch h2).symm] at hexec
    cases hexec
    rfl
  cases hstep with
  | same hsame =>
    have hbefore : box 5 = (p 2).mem.ram 66535 := congrArg Glance.slot h2
    have hafter : box 7 = (p 3).mem.ram 66535 := congrArg Glance.slot h3
    rw [← hbefore, ← hafter] at hsame
    exact absurd hsame (by decide)
  | stored hexec hstore => rw [hconst hexec] at hstore; cases hstore
  | relocated hexec halloc => rw [hconst hexec] at halloc; cases halloc

end Lama

import PlvmHomeworks.Tools.CallReturn

/-! The transfer function of the verifier against the interpreter: what an instruction does to the
    slots of its frame, and what `StackDepthFunctor` makes of it. -/

namespace Lama
open Outcome Runs Relation

/-- The occupied slots of the frame at `c`, its locals and its operands; none when it has
    returned. -/
def State.occupied (c : ℕ) (s : State) : ℤ :=
  if s.ctop ≤ c then (s.cstack c).base - s.top else 0

/-- `inst` leads from `s` to `s'`: in one turn, or, if it is a call, in the turns up to its return.
    `FAIL` and `STOP` lead nowhere. -/
inductive Measured (im : Image) (f : Bytefile) : State → Inst → State → Prop
  | turn {s s' : State} {inst : Inst} {next : ℤ} : s.Executes f inst next → inst.callOf = none →
      Turn im f s s' → Measured im f s inst s'
  | call {p : ℕ → State} {n : ℕ} {inst : Inst} {next argc : ℤ} {c : Bool} :
      CallPath im f p n inst next argc c → Measured im f (p 0) inst (p (n + 1))

/-- What `StackDepthFunctor` adds to the depth. -/
def Inst.counted : Inst → ℤ
  | .call _ _ _ | .sexp _ _ | .barray _ => 1
  | .callc _ _ | .fail _ _ => 0
  | inst => inst.pushes - inst.pops

/-- The condition on a state and a depth under which `StackDepthFunctor` counts an instruction
    right: the operand counts it ignores are 0, a prologue finds the depth 0 unless its locals wrap
    around, the frame that `END` or `RET` releases is empty, and no counter overflows. -/
def TransferOk (s : State) (d : ℤ) : Inst → Prop
  | .sexp _ n | .barray n => n ≤ 0 ∧ IsInt (d + 1)
  | .call _ _ argc => argc % 2 ^ 30 = 0 ∧ IsInt (d + 1)
  | .callc _ argc => argc % 2 ^ 30 = 0
  | .begin _ locc | .cbegin _ locc => d = locc - s.top + (s.top - locc) % 2 ^ 30
  | .end_ | .ret => (s.frame.base : ℤ) = s.top
  | inst => IsInt (d + inst.counted)

variable {im : Image} {f : Bytefile} {s s' : State} {d : ℤ} {inst : Inst}

theorem depthAfter_eq (hd : IsInt d) (hp : inst.isPrologue = false) :
    depthAfter d inst = toInt32 (d + inst.counted) := by
  have hzero : d = toInt32 (d + 0) := by rw [Int.add_zero, toInt32_of_isInt hd]
  cases inst
  case patt p => cases p <;> first | exact hzero | rfl
  all_goals first
    | rfl
    | exact hzero
    | exact Bool.noConfusion hp

theorem counted_le : -3 ≤ inst.counted ∧ inst.counted ≤ 3 := by
  cases inst
  case patt p => cases p <;> simp [Inst.counted, Inst.pushes, Inst.pops]
  all_goals simp [Inst.counted, Inst.pushes, Inst.pops]

/-- The depth after an instruction, in the bounds that every change of the stack has. -/
theorem depthAfter_sub {m : ℤ} (hd : IsInt d) (hp : inst.isPrologue = false)
    (hm : -2 ^ 31 < m ∧ m < 2 ^ 31) :
    m = depthAfter d inst - d ↔ m = inst.counted ∧ IsInt (d + inst.counted) := by
  rw [depthAfter_eq hd hp]
  have hk := @counted_le inst
  constructor
  · intro h
    have hi := toInt32_isInt (d + inst.counted)
    -- a sum that overflows is off by `2 ^ 32`
    have hmod : toInt32 (d + inst.counted) = d + inst.counted ∨
        toInt32 (d + inst.counted) = d + inst.counted - 2 ^ 32 ∨
        toInt32 (d + inst.counted) = d + inst.counted + 2 ^ 32 := by
      unfold IsInt at hd hi
      unfold toInt32 at hi ⊢
      rw [Int.bmod_def] at hi ⊢
      split at hi
      · rw [if_pos (by assumption)]; omega
      · rw [if_neg (by assumption)]; omega
    unfold IsInt at hd hi ⊢
    omega
  · rintro ⟨rfl, h⟩
    rw [toInt32_of_isInt h]
    omega

/-- What a plain instruction does to its frame. -/
theorem PlainEffect.occupied (heff : PlainEffect im inst s s') :
    s'.occupied s.ctop - s.occupied s.ctop = inst.pushes - inst.pops := by
  have htop := heff.top
  rw [State.occupied, State.occupied, heff.control.cstack, heff.control.ctop,
    if_pos (Nat.le_refl _), if_pos (Nat.le_refl _)]
  omega

/-- Plain instructions. -/
theorem plain_transfer (hd : IsInt d) (hp : inst.isPlain = true) (hf : ∀ l c, inst ≠ .fail l c)
    (heff : PlainEffect im inst s s') :
    s'.occupied s.ctop - s.occupied s.ctop = depthAfter d inst - d ↔ TransferOk s d inst := by
  have hb := im.bottom_lt
  have hpro : inst.isPrologue = false := Bool.eq_false_iff.mpr (Inst.isPlain_not_prologue hp)
  have hroom := heff.room
  have hpush : inst.pushes ≤ 2 := by cases inst <;> simp [Inst.pushes]
  rw [heff.occupied, depthAfter_sub hd hpro (by omega)]
  -- an instruction whose count does not depend on an operand
  have counted : (inst.pushes : ℤ) - inst.pops = inst.counted →
      (TransferOk s d inst ↔ IsInt (d + inst.counted)) →
      ((inst.pushes : ℤ) - inst.pops = inst.counted ∧ IsInt (d + inst.counted) ↔
        TransferOk s d inst) := by
    intro hcount hok
    rw [hok]
    exact ⟨fun h => h.2, fun h => ⟨hcount, h⟩⟩
  cases inst
  case sexp pos n =>
    refine and_congr_left fun _ => ?_
    simp only [Inst.pushes, Inst.pops, Inst.counted]
    omega
  case barray n =>
    refine and_congr_left fun _ => ?_
    simp only [Inst.pushes, Inst.pops, Inst.counted]
    omega
  case fail l c => exact absurd rfl (hf l c)
  case patt p => exact counted rfl Iff.rfl
  all_goals first
    | exact counted rfl Iff.rfl
    | exact Bool.noConfusion hp

/-- Prologues: the locals are reserved below the top. -/
theorem prologue_transfer {argc locc : ℤ} {ip : Option ℤ}
    (hinst : inst = .begin argc locc ∨ inst = .cbegin argc locc) :
    State.occupied s.ctop { s.reserved (toSize locc) with ip := ip } - s.occupied s.ctop =
      depthAfter d inst - d ↔ TransferOk s d inst := by
  have hbase : ((s.reserved (toSize locc)).cstack s.ctop).base = (s.cstack s.ctop).base := by
    simp [State.reserved]
  have hchange : State.occupied s.ctop { s.reserved (toSize locc) with ip := ip } -
      s.occupied s.ctop = s.top - (s.top - locc) % 2 ^ 30 := by
    show (if s.ctop ≤ s.ctop then (((s.reserved (toSize locc)).cstack s.ctop).base : ℤ) -
      (ptrAdd s.top (-toSize locc) : ℕ) else 0) - s.occupied s.ctop = _
    rw [State.occupied, if_pos (Nat.le_refl _), if_pos (Nat.le_refl _), hbase, ptrAdd, toSize]
    omega
  rw [hchange]
  rcases hinst with rfl | rfl <;> simp only [depthAfter, TransferOk] <;> omega

/-- `END` and `RET` release the frame. -/
theorem release_transfer {ip : Option ℤ} (hinst : inst = .end_ ∨ inst = .ret) :
    State.occupied s.ctop { s.returned with ip := ip } - s.occupied s.ctop =
      depthAfter d inst - d ↔ TransferOk s d inst := by
  have hchange : State.occupied s.ctop { s.returned with ip := ip } - s.occupied s.ctop =
      s.top - s.frame.base := by
    have hctop : ({ s.returned with ip := ip } : State).ctop = s.ctop + 1 := rfl
    rw [State.occupied, State.occupied, hctop, if_neg (by omega), if_pos (Nat.le_refl _), State.frame]
    omega
  rw [hchange]
  rcases hinst with rfl | rfl <;> simp only [depthAfter, TransferOk] <;> omega

/-- Calls, when they have returned: the result is in the last of the slots that were popped. -/
theorem call_transfer {p : ℕ → State} {n : ℕ} {next argc : ℤ} {c : Bool} (hd : IsInt d)
    (ht : (p 0).top < 2 ^ 30) (h : CallPath im f p n inst next argc c) :
    (p (n + 1)).occupied (p 0).ctop - (p 0).occupied (p 0).ctop = depthAfter d inst - d ↔
      TransferOk (p 0) d inst := by
  obtain ⟨hctop, -, hslot, -, hrecords, -⟩ := h.returned ht
  have hlt := ptrAdd_lt (p 0).top (toSize argc + c.toNat)
  have hchange : (p (n + 1)).occupied (p 0).ctop - (p 0).occupied (p 0).ctop =
      (p 0).top + 1 - ptrAdd (p 0).top (toSize argc + c.toNat) := by
    rw [State.occupied, State.occupied, hctop, if_pos (Nat.le_refl _), if_pos (Nat.le_refl _),
      hrecords _ (Nat.le_refl _)]
    omega
  have hpro : inst.isPrologue = false := by
    rcases inst.callOf_cases h.call with ⟨_, _, rfl, -⟩ | ⟨_, rfl, -⟩ <;> rfl
  rw [hchange, depthAfter_sub hd hpro (by omega)]
  -- the result slot is the top if and only if nothing was popped
  unfold ptrAdd toSize at hslot hlt ⊢
  rcases inst.callOf_cases h.call with ⟨_, _, rfl, rfl⟩ | ⟨_, rfl, rfl⟩
  · refine and_congr_left fun _ => ?_
    simp only [Inst.counted, Bool.toNat_false]
    omega
  · simp only [Inst.counted, TransferOk, Bool.toNat_true, Int.add_zero]
    rw [and_iff_left hd]
    simp only [Bool.toNat_true] at hslot
    omega

/-- `StackDepthFunctor` changes the depth by what the interpreter changes the frame if and only if
    the instruction meets `TransferOk`. -/
theorem transfer_matches (hd : IsInt d) (ht : s.top < 2 ^ 30) (h : Measured im f s inst s') :
    s'.occupied s.ctop - s.occupied s.ctop = depthAfter d inst - d ↔ TransferOk s d inst := by
  cases h with
  | call h => exact call_transfer hd ht h
  | turn hexec hcall hturn =>
    obtain ⟨e, hs⟩ := hturn
    have heff := hexec.effect ht hs
    cases heff with
    | plain hp heff _ hsucc =>
      refine plain_transfer hd hp ?_ heff
      rintro l c rfl
      cases hsucc
    | prologue hinst => exact prologue_transfer hinst
    | call => cases hcall
    | callc => cases hcall
    | ret hinst => exact release_transfer hinst

/-- `BEGIN 0 0; CONST 1; BARRAY 1; END`. -/
def oneElement : List UInt8 :=
  82 :: intBytes 0 ++ intBytes 0 ++ 16 :: intBytes 1 ++ 116 :: intBytes 1 ++ [22]

/-- The slots that a turn of `oneElement` finds and leaves. -/
def slotsSeen (s : State) : Option (Inst × ℤ) × ℕ × ℕ × ℤ :=
  (s.fetch (program 0 oneElement), s.ctop, s.top, s.occupied 65535)

theorem transfer_matches_oneElement :
    ∃ s s', Measured sampleImage (program 0 oneElement) s (.const 1) s' ∧
      (s'.occupied s.ctop - s.occupied s.ctop = depthAfter 0 (.const 1) - 0 ↔
        TransferOk s 0 (.const 1)) := by
  have hrun : (programRun sampleImage (program 0 oneElement) sampleEnv (1 + 1)).map (fun states =>
      (states.drop 1).map slotsSeen) = .ok [(some (.const 1, 14), 65535, 66535, 0),
        (some (.barray 1, 19), 65535, 66534, 1)] := by decide +kernel
  obtain ⟨s₀, p, -, -, hpath, hobs⟩ := exists_path hrun
  simp only [List.range_succ_eq_map, List.range_zero, List.map_cons, List.map_nil,
    List.cons.injEq, and_true, slotsSeen, Prod.mk.injEq] at hobs
  obtain ⟨⟨hfetch, -, htop, -⟩, -⟩ := hobs
  have hexec := State.executes_iff.mpr hfetch.symm
  have hm : Measured sampleImage _ (p 0) (.const 1) (p 1) := .turn hexec rfl (hpath 0 (by decide))
  exact ⟨p 0, p 1, hm, transfer_matches (by unfold IsInt; decide) (by omega) hm⟩

/-- `BARRAY 1` leaves the frame of an accepted program with as many slots as before; the verifier
    counts one more. -/
theorem oneElement_overcounted :
    ∃ s₀ s s', loadProgram 80 (fun _ _ => 0) (programBytes 0 oneElement) =
        .ok (program 0 oneElement, 0) ∧
      interpreteInit sampleImage (program 0 oneElement) sampleHeap 0 = .ok s₀ ∧
      ReflTransGen (Turn sampleImage (program 0 oneElement)) s₀ s ∧
      Measured sampleImage (program 0 oneElement) s (.barray 1) s' ∧
      s'.occupied s.ctop - s.occupied s.ctop = 0 ∧ depthAfter 1 (.barray 1) - 1 = 1 := by
  have hrun : (programRun sampleImage (program 0 oneElement) sampleEnv (2 + 1)).map (fun states =>
      (states.drop 2).map slotsSeen) = .ok [(some (.barray 1, 19), 65535, 66534, 1),
        (some (.end_, 20), 65535, 66534, 1)] := by decide +kernel
  obtain ⟨s₀, p, hinit, hreach, hpath, hobs⟩ := exists_path hrun
  simp only [List.range_succ_eq_map, List.range_zero, List.map_cons, List.map_nil,
    List.cons.injEq, and_true, slotsSeen, Prod.mk.injEq] at hobs
  obtain ⟨⟨hfetch, hctop, -, hbefore⟩, -, -, -, hafter⟩ := hobs
  refine ⟨s₀, p 0, p 1, by decide +kernel, hinit, hreach,
    .turn (State.executes_iff.mpr hfetch.symm) rfl (hpath 0 (by decide)), ?_, by decide⟩
  rw [← hctop, ← hbefore, ← hafter]
  rfl

end Lama

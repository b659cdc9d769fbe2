import PlvmHomeworks.Tools.Messages
import PlvmHomeworks.Tools.Prologue

/-! The operands of a frame: which bodies never take more than they have put on the stack.

    A stack map gives each instruction of a body a number of operands that are there whenever it is
    executed. The verifier does not look for one; a body that has one never underflows. -/

namespace Lama
open Outcome Worklist Runs

/-- The operands an instruction pops or reads. A call takes its arguments (and the closure), `END` and
    `RET` the result. -/
def Inst.needs : Inst → ℕ
  | .call _ _ argc => argc.toNat
  | .callc _ argc => argc.toNat + 1
  | .dup | .st _ | .end_ | .ret => 1
  | inst => inst.pops

/-- The operands it takes off the frame, and those it leaves there. -/
def Inst.takes : Inst → ℕ
  | .call _ _ argc => argc.toNat
  | .callc _ argc => argc.toNat + 1
  | inst => inst.pops

def Inst.leaves : Inst → ℕ
  | .call _ _ _ | .callc _ _ => 1
  | inst => inst.pushes

/-- A call has no negative number of arguments. -/
def Inst.countOk : Inst → Prop
  | .call _ _ argc | .callc _ argc => 0 ≤ argc
  | _ => True

/-- `depth` is a lower bound on the operands at each instruction of the function at `b` that control
    flow inside the frame comes to: none after a prologue, and along every edge what the instruction
    takes and leaves. -/
structure StackMap (f : Bytefile) (b : ℤ) (depth : ℤ → Option ℕ) : Prop where
  entry : depth b = some 0
  needs : ∀ {ip d inst next}, depth ip = some d → readInst f ip = .ok (inst, next) →
    inst.needs ≤ d ∧ inst.countOk
  edge : ∀ {ip d inst next v}, depth ip = some d → readInst f ip = .ok (inst, next) →
    inst.isPrologue = false → v ∈ inst.frameSuccessors next →
    ∃ d', depth v = some d' ∧ d' + inst.takes ≤ d + inst.leaves
  prologue : ∀ {ip d inst next}, depth ip = some d → readInst f ip = .ok (inst, next) →
    inst.isPrologue = true → depth next = some 0

/-- A function that is being entered has a stack map. -/
def EntersMapped (f : Bytefile) (t : Tracked) : Prop :=
  ∀ a as, t.frames = a :: as → a.fresh = true → ∃ depth, StackMap f a.entry depth

/-- A prologue that is being executed reserves no more words than there are below the top. -/
def ReservesInside (f : Bytefile) (s : State) : Prop :=
  ∀ ip inst next argc locc, s.ip = some ip → readInst f ip = .ok (inst, next) →
    inst = .begin argc locc ∨ inst = .cbegin argc locc → toSize locc ≤ s.top

/-- Arguments (and a closure) above every frame, and below its locals what its stack map says. -/
def operandInv (im : Image) (f : Bytefile) : FrameInv where
  frame a fr ip top := fr.base + fr.argsCount + fr.isClosure.toNat < im.bottom ∧
    (a.fresh = false → ∃ depth d, StackMap f a.entry depth ∧ depth ip = some d ∧
      top + d + fr.localsCount ≤ fr.base)
  closure _ := True

/-- The conditions under which frames keep their operands. -/
def MappedRun (im : Image) (f : Bytefile) (t : Tracked) : Prop :=
  ClosureBuilt im f t ∧ Listed f t ∧ EntersMapped f t ∧ ReservesInside f t.state

theorem reserved_top {top n : ℕ} (h : n ≤ top) (ht : top < 2 ^ 30) : ptrAdd top (-n) = top - n := by
  have := ptrAdd_eq (p := top) (n := -(n : ℤ)) (by omega) (by omega)
  omega

/-- The slot of the result when the arguments are in the stack. -/
theorem resultSlot_eq {fr : Frame} (h : fr.base + fr.argsCount + fr.isClosure.toNat < 2 ^ 30) :
    fr.resultSlot = fr.base + fr.argsCount + fr.isClosure.toNat := by
  have := ptrAdd_eq (p := fr.base) (n := fr.argsCount + fr.isClosure.toNat) (by omega) (by omega)
  unfold Frame.resultSlot
  omega

theorem toSize_toNat {n : ℤ} (h : 0 ≤ n) (hlt : n.toNat < 2 ^ 32) : toSize n = n.toNat := by
  unfold toSize; omega

variable {f : Bytefile} {r : Result ℤ Unit Bodies} {im : Image}

/-- A call with its arguments on the stack: the frame it enters, and what comes back. -/
theorem operandInv_call {a : Activation} {s : State} {ip next argc : ℤ} {inst : Inst} {c : Bool}
    {captured : ℕ} {entry count : ℤ} {depth : ℤ → Option ℕ} {d : ℕ} (hmap : StackMap f a.entry depth)
    (hd : depth ip = some d) (hle : s.top + d + s.frame.localsCount ≤ s.frame.base)
    (hbase : s.frame.base < im.bottom) (hi : readInst f ip = .ok (inst, next))
    (hp : inst.isPrologue = false) (hnext : next ∈ inst.frameSuccessors next)
    (htakes : inst.takes = argc.toNat + c.toNat) (hneeds : inst.needs = argc.toNat + c.toNat)
    (hleaves : inst.leaves = 1) (hargc : 0 ≤ argc) :
    (operandInv im f).frame ⟨entry, true, count, captured⟩ (s.callee next (toSize argc) c) entry s.top ∧
      (0 < (s.callee next (toSize argc) c).resultSlot → ∃ depth d, StackMap f a.entry depth ∧
        depth next = some d ∧ (s.callee next (toSize argc) c).resultSlot - 1 + d +
          s.frame.localsCount ≤ s.frame.base) := by
  have hb := im.bottom_lt
  have hfit := (hmap.needs hd hi).1
  rw [hneeds] at hfit
  have hsize : toSize argc = argc.toNat := toSize_toNat hargc (by omega)
  have hroom : s.top + toSize argc + c.toNat < im.bottom := by omega
  have hslot : (s.callee next (toSize argc) c).resultSlot = s.top + toSize argc + c.toNat :=
    resultSlot_eq (by simp only [State.callee]; omega)
  refine ⟨⟨hroom, fun h => Bool.noConfusion h⟩, fun hpos => ?_⟩
  obtain ⟨d', hd', hdd⟩ := hmap.edge hd hi hp hnext
  rw [htakes, hleaves] at hdd
  exact ⟨depth, d', hmap, hd', by omega⟩

theorem operandInv_rules :
    (operandInv im f).Rules im f (fun t => MappedRun im f t ∧ (entryInv f r).Holds t) where
  plain {t a ip inst next ip' top'} hat hok hv hplain htop _ hip := by
    have hp := Bool.eq_false_iff.mpr fun h => Inst.isPlain_not_prologue hplain h
    refine ⟨hv.1, fun _ => ?_⟩
    cases hfresh : a.fresh with
    | true => rw [(hat.fresh_prologue (hok.2.at hat).2 hfresh).2] at hp; cases hp
    | false =>
      obtain ⟨depth, d, hmap, hd, hle⟩ := hv.2 hfresh
      obtain ⟨d', hd', hdd⟩ := hmap.edge hd hat.decoded hp hip
      have htakes : inst.takes = inst.pops := by
        cases inst <;> first | rfl | exact Bool.noConfusion hplain
      have hleaves : inst.leaves = inst.pushes := by
        cases inst <;> first | rfl | exact Bool.noConfusion hplain
      exact ⟨depth, d', hmap, hd', by omega⟩
  prologue {t a ip inst next argc locc} hat hok hv hinst _ := by
    have hp : inst.isPrologue = true := by rcases hinst with rfl | rfl <;> rfl
    refine ⟨hv.1, fun _ => ?_⟩
    have hle := hok.1.2.2.2 ip inst next argc locc hat.address hat.decoded hinst
    have hb := im.bottom_lt
    have htop := reserved_top hle hok.2.top_lt
    rw [htop]
    cases hfresh : a.fresh with
    | true =>
      obtain ⟨rfl, hbase⟩ := hat.fresh hfresh
      obtain ⟨as, has⟩ := hat.frames
      obtain ⟨depth, hmap⟩ := hok.1.2.2.1 a as has hfresh
      refine ⟨depth, 0, hmap, hmap.prologue hmap.entry hat.decoded hp, ?_⟩
      show t.state.top - toSize locc + 0 + toSize locc ≤ t.state.frame.base
      omega
    | false =>
      obtain ⟨depth, d, hmap, hd, hle'⟩ := hv.2 hfresh
      refine ⟨depth, 0, hmap, hmap.prologue hd hat.decoded hp, ?_⟩
      show t.state.top - toSize locc + 0 + toSize locc ≤ t.state.frame.base
      omega
  call {t a ip next offset argc} hat hok hv _ := by
    cases hfresh : a.fresh with
    | true => exact Bool.noConfusion (hat.fresh_prologue (hok.2.at hat).2 hfresh).2
    | false =>
      obtain ⟨depth, d, hmap, hd, hle⟩ := hv.2 hfresh
      have hbase : t.state.frame.base < im.bottom := by have := hv.1; omega
      obtain ⟨h1, h2⟩ := operandInv_call (c := false) hmap hd hle hbase
        hat.decoded rfl (List.mem_singleton_self next) rfl rfl rfl (hmap.needs hd hat.decoded).2
      exact ⟨h1, fun hpos => ⟨hv.1, fun _ => h2 hpos⟩⟩
  callc {t a ip next argc c} hat hok hv _ _ _ := by
    cases hfresh : a.fresh with
    | true => exact Bool.noConfusion (hat.fresh_prologue (hok.2.at hat).2 hfresh).2
    | false =>
      obtain ⟨depth, d, hmap, hd, hle⟩ := hv.2 hfresh
      have hbase : t.state.frame.base < im.bottom := by have := hv.1; omega
      obtain ⟨h1, h2⟩ := operandInv_call (c := true) hmap hd hle hbase
        hat.decoded rfl (List.mem_singleton_self next) rfl rfl rfl (hmap.needs hd hat.decoded).2
      exact ⟨h1, fun hpos => ⟨hv.1, fun _ => h2 hpos⟩⟩
  closure _ _ _ := trivial

/-- The operands of the running frame are there, and so is the frame itself. -/
theorem operandInv_room {t : Tracked} {inst : Inst} {next : ℤ} (hentry : (entryInv f r).Holds t)
    (h : (operandInv im f).Holds t) (hexec : t.Executes f inst next) :
    (inst.isPrologue = false →
      t.state.top + inst.needs + t.state.frame.localsCount ≤ t.state.frame.base) ∧
      inst.Roomy im t.state ∧ t.state.top < im.bottom := by
  obtain ⟨ip, hip, hi⟩ := hexec
  obtain ⟨a, as, has, hfresh, hbase, hv⟩ := h.current hip
  have hat : At f t a ip inst next := ⟨⟨as, has⟩, hip, hi, hfresh⟩
  have hb := im.bottom_lt
  cases haf : a.fresh with
  | true =>
    obtain ⟨-, hp⟩ := hat.fresh_prologue (hentry.at hat).2 haf
    refine ⟨fun h => ?_, ?_, ?_⟩
    · rw [hp] at h; cases h
    · cases inst <;> first | exact Bool.noConfusion hp | exact fun h => absurd h (Nat.lt_irrefl 0)
    · have := (hfresh haf).2
      omega
  | false =>
    obtain ⟨depth, d, hmap, hd, hle⟩ := hv haf
    obtain ⟨hneeds, hcount⟩ := hmap.needs hd hi
    refine ⟨fun _ => by omega, ?_, by omega⟩
    have hargs : ptrAdd t.state.frame.base t.state.frame.argsCount ≤ im.bottom := by
      have := ptrAdd_eq (p := t.state.frame.base) (n := t.state.frame.argsCount) (by omega) (by omega)
      omega
    have harg : ∀ {n : ℤ} {k : ℕ}, 0 ≤ n → n.toNat + k ≤ d → ptrAdd t.state.top (k + toSize n) <
        im.bottom := by
      intro n k hn hk
      have hsize := toSize_toNat hn (by omega)
      have := ptrAdd_eq (p := t.state.top) (n := k + toSize n) (by omega) (by omega)
      omega
    cases inst
    case call ret offset n =>
      show ptrAdd t.state.top (toSize n) < im.bottom
      simpa using harg (k := 0) hcount hneeds
    case callc ret n =>
      have hneeds : n.toNat + 1 ≤ d := hneeds
      exact ⟨by simpa using harg (k := 0) hcount (by omega), harg (k := 1) hcount hneeds⟩
    case end_ =>
      have hneeds : 1 ≤ d := hneeds
      exact ⟨by omega, hargs⟩
    case ret =>
      have hneeds : 1 ≤ d := hneeds
      exact ⟨by omega, hargs⟩
    case dup =>
      have hneeds : 1 ≤ d := hneeds
      show t.state.top + 1 < im.bottom
      omega
    case st l =>
      have hneeds : 1 ≤ d := hneeds
      show t.state.top + 1 < im.bottom
      omega
    all_goals
      intro _
      simp only [Inst.needs] at hneeds
      omega

/-- In a run of an accepted file whose main function starts with a prologue, that executes only bytes
    that select a functor, enters only functions with a stack map and reserves locals only below the
    top: an instruction finds what it pops or reads above the locals of its frame, and no check
    for an underflow fails. -/
theorem operands_suffice {fuel : ℕ} {garbage : ℤ → ℤ → ℤ} {bytes : List UInt8} {f : Bytefile} {ip : ℤ}
    (hload : loadProgram fuel garbage bytes = .ok (f, ip))
    (hmain : ∃ inst next, readInst f ip = .ok (inst, next) ∧ inst.isPrologue = true)
    {im : Image} {t t' : Tracked} (ht : t.Starts im f ip)
    (hrun : Reach (Tracked.Step im f) (fun t => ClosureBuilt im f t ∧ Listed f t ∧
      EntersMapped f t ∧ ReservesInside f t.state) t t')
    {inst : Inst} {next : ℤ} (hexec : t'.Executes f inst next) :
    (inst.isPrologue = false →
      t'.state.top + inst.needs + t'.state.frame.localsCount ≤ t'.state.frame.base) ∧
    ∀ e args, exec im e f t'.state inst ≠ .error (.fail underflowText args) := by
  obtain ⟨es, r, -, -, hacc⟩ := accepted_of_loadProgram hload
  obtain ⟨inst₀, next₀, hi₀, hp₀⟩ := hmain
  have hstart : (entryInv f r).Holds t :=
    FrameInv.holds_of_starts ht ⟨hacc.entry_visited, hacc.entry_of_main hi₀ hp₀⟩
  have hsteps : ∀ a b, (entryInv f r).Holds a → MappedRun im f a → a.Step im f b →
      (entryInv f r).Holds b := fun _ _ ha hok hab =>
    (entryInv_rules hacc).step (fun _ h => h.1) ha ⟨hok.1, hok.2.1⟩ hab
  have hentry := hrun.invariant hstart hsteps
  have hops : (operandInv im f).Holds t := by
    obtain ⟨heap, hinit, hfs, hcl⟩ := ht
    obtain ⟨-, -, -, htop, -, -⟩ := interpreteInit_ok hinit
    refine FrameInv.holds_of_starts ⟨heap, hinit, hfs, hcl⟩ ⟨?_, fun h => Bool.noConfusion h⟩
    simp only [Bool.toNat_false]
    omega
  have hoperand := operandInv_rules.reach (fun _ h => h.1.1) hops (hrun.strengthen hstart hsteps)
  obtain ⟨hneeds, hroomy, htop⟩ := operandInv_room hentry hoperand hexec
  refine ⟨hneeds, fun e args h => ?_⟩
  have hmem : ∀ T : List String, (∀ text ∈ valueTexts, text ∈ T) → (∀ text ∈ accessTexts, text ∈ T) →
      underflowText ∈ T := fun T hT hA =>
    stops_exec hT hoperand.top_lt (Or.inr ⟨hroomy, htop⟩) (fun _ _ _ _ => stops_loc_access hA) _ _ h
  exact absurd (hmem (valueTexts ++ accessTexts) (fun _ => List.mem_append_left _)
    fun _ => List.mem_append_right _) (by decide)

/-- The operands of `constSeven`. -/
def constSevenDepth (ip : ℤ) : Option ℕ :=
  if ip = 0 ∨ ip = 9 then some 0 else if ip = 14 then some 1 else none

theorem constSevenDepth_stackMap : StackMap (program 0 constSeven) 0 constSevenDepth := by
  have hbegin : readInst (program 0 constSeven) 0 = .ok (.begin 0 0, 9) := by decide +kernel
  have hconst : readInst (program 0 constSeven) 9 = .ok (.const 7, 14) := by decide +kernel
  have hend : readInst (program 0 constSeven) 14 = .ok (.end_, 15) := by decide +kernel
  have cases : ∀ {ip : ℤ} {d : ℕ} {inst : Inst} {next : ℤ}, constSevenDepth ip = some d →
      readInst (program 0 constSeven) ip = .ok (inst, next) →
      (ip, d, inst, next) = (0, 0, .begin 0 0, 9) ∨ (ip, d, inst, next) = (9, 0, .const 7, 14) ∨
        (ip, d, inst, next) = (14, 1, .end_, 15) := by
    intro ip d inst next hd hi
    unfold constSevenDepth at hd
    split at hd
    · rename_i hip
      rcases hip with rfl | rfl
      · rw [hbegin] at hi; cases hi; cases hd; exact Or.inl rfl
      · rw [hconst] at hi; cases hi; cases hd; exact Or.inr (Or.inl rfl)
    · split at hd
      · rename_i hip
        subst hip
        rw [hend] at hi; cases hi; cases hd; exact Or.inr (Or.inr rfl)
      · cases hd
  refine ⟨rfl, fun hd hi => ?_, fun hd hi hp hv => ?_, fun hd hi hp => ?_⟩
  · rcases cases hd hi with h | h | h <;> cases h <;> exact ⟨by decide, trivial⟩
  · rcases cases hd hi with h | h | h <;> cases h
    · cases hp
    · rw [List.mem_singleton.mp hv]; exact ⟨1, rfl, by decide⟩
    · cases hv
  · rcases cases hd hi with h | h | h <;> cases h
    · rfl
    · cases hp
    · cases hp

/-- A state of a run of `constSeven`, with the room its prologue needs. -/
def constSevenRun (t : Tracked) : Bool :=
  listedRun sampleImage (program 0 constSeven) t && t.frames.all (fun a => a.entry == 0) &&
    match t.fetch (program 0 constSeven) with
    | some (.begin _ locc, _) => decide (toSize locc ≤ t.state.top)
    | some (.cbegin _ locc, _) => decide (toSize locc ≤ t.state.top)
    | _ => true

theorem constSevenRun_iff {t : Tracked} (h : constSevenRun t = true) :
    MappedRun sampleImage (program 0 constSeven) t := by
  simp only [constSevenRun, Bool.and_eq_true] at h
  obtain ⟨⟨hl, hf⟩, hr⟩ := h
  refine ⟨(listedRun_iff hl).1, (listedRun_iff hl).2, fun a as has _ => ?_, ?_⟩
  · have : a.entry = 0 := by simpa [has] using List.all_eq_true.mp hf a (by simp [has])
    exact ⟨constSevenDepth, this ▸ constSevenDepth_stackMap⟩
  · intro ip inst next argc locc hip hi hinst
    have hfetch := Tracked.executes_iff.mp ⟨ip, hip, hi⟩
    rcases hinst with rfl | rfl <;> simpa [hfetch] using hr

theorem operands_suffice_constSeven :
    ∃ t t', t.Starts sampleImage (program 0 constSeven) 0 ∧
      Reach (Tracked.Step sampleImage (program 0 constSeven))
        (MappedRun sampleImage (program 0 constSeven)) t t' ∧
      t'.state.top + 1 + t'.state.frame.localsCount ≤ t'.state.frame.base := by
  have hrun : (Tracked.runFrom sampleImage (program 0 constSeven) constSevenRun sampleHeap 0
      [sampleEnv, sampleEnv]).map (fun t => t.fetch (program 0 constSeven)) =
        .ok (some (.end_, 15)) := by decide +kernel
  obtain ⟨t, t', ht, hreach, hobs⟩ := Tracked.exists_reach (fun _ => constSevenRun_iff) hrun
  have hload : loadProgram 30 (fun _ _ => 0) (programBytes 0 constSeven) =
      .ok (program 0 constSeven, 0) := by decide +kernel
  exact ⟨t, t', ht, hreach, (operands_suffice hload ⟨.begin 0 0, 9, by decide +kernel, rfl⟩ ht hreach
    (Tracked.executes_iff.mpr hobs)).1 rfl⟩

/-- `BEGIN 0 1; DROP; CONST 1; END`. -/
def dropLocal : List UInt8 := 82 :: intBytes 0 ++ intBytes 1 ++ 24 :: 16 :: intBytes 1 ++ [22]

/-- `DROP` takes the only local: there is no operand above it. -/
theorem dropLocal_consumes :
    ∃ t t', loadProgram 30 (fun _ _ => 0) (programBytes 0 dropLocal) = .ok (program 0 dropLocal, 0) ∧
      t.Starts sampleImage (program 0 dropLocal) 0 ∧
      Reach (Tracked.Step sampleImage (program 0 dropLocal))
        (ClosureBuilt sampleImage (program 0 dropLocal)) t t' ∧
      t'.Executes (program 0 dropLocal) .drop 10 ∧
      ¬ t'.state.top + Inst.drop.needs + t'.state.frame.localsCount ≤ t'.state.frame.base := by
  have hrun : (Tracked.runFrom sampleImage (program 0 dropLocal)
      (closureBuilt sampleImage (program 0 dropLocal)) sampleHeap 0 [sampleEnv]).map
      (fun t => (t.fetch (program 0 dropLocal),
        decide (t.state.top + Inst.drop.needs + t.state.frame.localsCount ≤ t.state.frame.base))) =
        .ok (some (.drop, 10), false) := by decide +kernel
  obtain ⟨t, t', ht, hreach, hobs⟩ := Tracked.exists_reach (fun _ => closureBuilt_iff) hrun
  rw [Prod.mk.injEq] at hobs
  exact ⟨t, t', by decide +kernel, ht, hreach, Tracked.executes_iff.mpr hobs.1,
    of_decide_eq_false hobs.2⟩

end Lama

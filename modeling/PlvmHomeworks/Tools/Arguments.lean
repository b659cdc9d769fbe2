import PlvmHomeworks.Tools.Variables

/-! Arguments and captured variables: how many a function names, and how many its callers pass.

    `verify_function` returns the `args` of the layout its loop copies from, which stays 0, and
    `verify_calls` compares it with the entry of an offset it never read; nothing compares the
    captured variables a body names with those a `CLOSURE` captures. -/

namespace Lama
open Outcome Worklist Runs

/-- The visited accesses of the function at `b` to variables of this kind name the first `n`. -/
def Names (fuel : ℕ) (f : Bytefile) (r : Result ℤ Unit Bodies) (kind : Location) (b n : ℤ) : Prop :=
  ∀ v layout l, Visits fuel f r b v layout l → l.location = some kind → 0 ≤ l.index ∧ l.index < n

/-- The function at `b` may run with `argc` arguments and `captured` captured values. -/
def MayRun (fuel : ℕ) (f : Bytefile) (r : Result ℤ Unit Bodies) (b argc : ℤ) (captured : ℕ) : Prop :=
  Names fuel f r .arg b argc ∧ Names fuel f r .captured b captured

/-- The call that `t` is about to execute passes what the function it enters names. -/
def PassesEnough (fuel : ℕ) (im : Image) (f : Bytefile) (r : Result ℤ Unit Bodies) (t : Tracked) :
    Prop :=
  (∀ ret offset argc next, t.Executes f (.call ret offset argc) next →
    MayRun fuel f r offset argc 0) ∧
  ∀ ret argc next c, t.Executes f (.callc ret argc) next →
    runningClosure im t.state argc = .ok c → MayRun fuel f r c.1 argc c.2

/-- The accesses of `inst` name arguments that the call of the running frame passed, and values that
    the `CLOSURE` of the running closure captured. -/
def AccessesPassed (t : Tracked) (inst : Inst) : Prop :=
  ∀ l ∈ inst.locations, ∃ a as, t.frames = a :: as ∧
    (l.location = some .arg → 0 ≤ l.index ∧ l.index < a.argc) ∧
    (l.location = some .captured →
      t.state.frame.isClosure = true ∧ 0 ≤ l.index ∧ l.index < a.captured)

/-- The conditions under which frames have what they name. -/
def PassedRun (fuel : ℕ) (im : Image) (f : Bytefile) (r : Result ℤ Unit Bodies) (t : Tracked) : Prop :=
  InBodyRun im f t ∧ PassesEnough fuel im f r t

/-- A frame may run with what it was passed, and only a closure call passes captured values. -/
def passedInv (fuel : ℕ) (f : Bytefile) (r : Result ℤ Unit Bodies) : FrameInv where
  frame a fr _ _ := MayRun fuel f r a.entry a.argc a.captured ∧ (fr.isClosure = false → a.captured = 0)
  closure _ := True

variable {fuel : ℕ} {f : Bytefile} {ip : ℤ} {r : Result ℤ Unit Bodies} {im : Image}

theorem passedInv_rules : (passedInv fuel f r).Rules im f (PassedRun fuel im f r) where
  plain _ _ hv _ _ _ _ := hv
  prologue _ _ hv _ _ := hv
  call hat hok hv _ := ⟨⟨hok.2.1 _ _ _ _ hat.executes, fun _ => rfl⟩, fun _ => hv⟩
  callc hat hok hv _ hrun _ :=
    ⟨⟨hok.2.2 _ _ _ _ hat.executes hrun, fun h => Bool.noConfusion h⟩, fun _ => hv⟩
  closure _ _ _ := trivial

/-- In a run of an accepted file that stays inside its functions, whose calls pass what the functions
    they enter name, and whose main function names no argument and no captured variable: an
    instruction accesses arguments that the call of its frame passed, and captured variables only
    in a frame entered by `CALLC`, among those captured by the closure it runs. -/
theorem passed_in_bounds {fuel : ℕ} {garbage : ℤ → ℤ → ℤ} {bytes : List UInt8} {f : Bytefile} {ip : ℤ}
    (hload : loadProgram fuel garbage bytes = .ok (f, ip)) {es : List ℤ} {r : Result ℤ Unit Bodies}
    (hes : getEntrypoints f = .ok es) (hr : searchReachable fuel f es = .ok r)
    (hmain : ∃ inst next, readInst f ip = .ok (inst, next) ∧ inst.isPrologue = true)
    (hnames : MayRun fuel f r ip 0 0) {im : Image} {t t' : Tracked} (ht : t.Starts im f ip)
    (hrun : Reach (Tracked.Step im f) (fun t => InBodyRun im f t ∧ PassesEnough fuel im f r t) t t')
    {inst : Inst} {next : ℤ} (hexec : t'.Executes f inst next) : AccessesPassed t' inst := by
  obtain ⟨es', r₁, hes', hr₁, hacc⟩ := accepted_of_loadProgram hload
  rw [hes, Except.ok.injEq] at hes'
  rw [← hes', hr, Except.ok.injEq] at hr₁
  rw [← hr₁] at hacc
  obtain ⟨hentry, hbody, -⟩ := bodyInv_reach hacc hmain ht (hrun.mono (fun _ h => h.1) fun _ _ => id)
  have hpassed := passedInv_rules.reach (fun _ h => h.1.1)
    (FrameInv.holds_of_starts ht ⟨hnames, fun _ => rfl⟩) hrun
  obtain ⟨v, hv, hi⟩ := hexec
  obtain ⟨a, as, has, hfresh, -, hok⟩ := hentry.current hv
  have hat : At f t' a v inst next := ⟨⟨as, has⟩, hv, hi, hfresh⟩
  obtain ⟨⟨hargs, hcaptured⟩, hclosure⟩ := hpassed.at hat
  intro l hl
  have hstarted : a.fresh = false := by
    rw [Bool.eq_false_iff]
    intro hf
    obtain ⟨argc, locc, rfl | rfl⟩ := prologue_locals hi (hat.fresh_prologue hok hf).2 <;> cases hl
  obtain ⟨-, ⟨captured, size, r', hbodyAt⟩, -⟩ := hbody.at hat hstarted
  obtain ⟨layout, hvisits⟩ := hbodyAt.visits hi hl
  refine ⟨a, as, has, hargs v layout l hvisits, fun hloc => ?_⟩
  have hbound := hcaptured v layout l hvisits hloc
  refine ⟨?_, hbound⟩
  by_contra hc
  rw [hclosure (by simpa using hc)] at hbound
  omega

/-- The locations of the visited instructions of the function at `b`, computed. -/
def visitedLocations (fuel : ℕ) (f : Bytefile) (r : Result ℤ Unit Bodies) (b : ℤ) :
    List LocationEntry :=
  (r.state.all.filter fun body => body.offset == b).flatMap fun body =>
    match searchFunction fuel f b body.captured with
    | .error _ => []
    | .ok (_, r') => r'.log.flatMap fun e =>
      match readInst f e.1 with
      | .error _ => []
      | .ok (inst, _) => inst.locations

theorem Visits.mem {b v : ℤ} {layout : StackLayout} {l : LocationEntry}
    (h : Visits fuel f r b v layout l) : l ∈ visitedLocations fuel f r b := by
  obtain ⟨captured, size, r', inst, next, hmem, hs, hlog, hi, hl⟩ := h
  refine List.mem_flatMap.mpr ⟨⟨b, captured⟩, List.mem_filter.mpr ⟨hmem, by simp⟩, ?_⟩
  rw [show searchFunction fuel f b captured = _ from hs]
  refine List.mem_flatMap.mpr ⟨(v, layout), hlog, ?_⟩
  rw [show readInst f v = _ from hi]
  exact hl

/-- `MayRun`, computed. -/
def mayRun (ls : List LocationEntry) (argc : ℤ) (captured : ℕ) : Bool :=
  ls.all fun l => match l.location with
    | some .arg => decide (0 ≤ l.index ∧ l.index < argc)
    | some .captured => decide (0 ≤ l.index ∧ l.index < captured)
    | _ => true

theorem mayRun_iff {b argc : ℤ} {captured : ℕ}
    (h : mayRun (visitedLocations fuel f r b) argc captured = true) :
    MayRun fuel f r b argc captured := by
  refine ⟨fun v layout l hv hl => ?_, fun v layout l hv hl => ?_⟩ <;>
    simpa [hl] using List.all_eq_true.mp h l hv.mem

/-- `BEGIN 0 0; CONST 7; CALL 24 1; END; BEGIN 1 0; LD A(0); END`. -/
def passSeven : List UInt8 :=
  82 :: intBytes 0 ++ intBytes 0 ++ 16 :: intBytes 7 ++ 86 :: intBytes 24 ++ intBytes 1 ++ [22] ++
    82 :: intBytes 1 ++ intBytes 0 ++ 34 :: intBytes 0 ++ [22]

/-- A state of a run of `passSeven` whose only calls are those of the function at 24. -/
def passSevenRun (t : Tracked) : Bool :=
  inBodyRun sampleImage (program 0 passSeven) t && match t.fetch (program 0 passSeven) with
    | some (.call _ offset argc, _) => offset == 24 && argc == 1
    | some (.callc _ _, _) => false
    | _ => true

theorem passSevenRun_iff {r : Result ℤ Unit Bodies} (hr : MayRun 60 (program 0 passSeven) r 24 1 0)
    {t : Tracked} (h : passSevenRun t = true) :
    PassedRun 60 sampleImage (program 0 passSeven) r t := by
  rw [passSevenRun, Bool.and_eq_true] at h
  refine ⟨inBodyRun_iff h.1, fun ret offset argc next hexec => ?_, fun ret argc next c hexec => ?_⟩
  · rw [Tracked.executes_iff] at hexec
    obtain ⟨rfl, rfl⟩ : offset = 24 ∧ argc = 1 := by simpa [hexec] using h.2
    exact hr
  · rw [Tracked.executes_iff] at hexec
    exact absurd h.2 (by simp [hexec])

theorem passed_in_bounds_passSeven :
    ∃ r t t', t.Starts sampleImage (program 0 passSeven) 0 ∧
      Reach (Tracked.Step sampleImage (program 0 passSeven))
        (PassedRun 60 sampleImage (program 0 passSeven) r) t t' ∧
      t'.Executes (program 0 passSeven) (.ld ⟨2, 0⟩) 38 ∧ AccessesPassed t' (.ld ⟨2, 0⟩) := by
  have hr : (searchReachable 60 (program 0 passSeven) [0]).map (fun r =>
      (visitedLocations 60 (program 0 passSeven) r 0,
        visitedLocations 60 (program 0 passSeven) r 24)) = .ok ([], [⟨2, 0⟩]) := by decide +kernel
  have hrun : (Tracked.runFrom sampleImage (program 0 passSeven) passSevenRun sampleHeap 0
      [sampleEnv, sampleEnv, sampleEnv, sampleEnv]).map
      (fun t => t.fetch (program 0 passSeven)) = .ok (some (.ld ⟨2, 0⟩, 38)) := by decide +kernel
  obtain ⟨r, hr, hls⟩ := exists_of_map_eq_ok hr
  rw [Prod.mk.injEq] at hls
  have hcallee : MayRun 60 (program 0 passSeven) r 24 1 0 := mayRun_iff (by rw [hls.2]; decide)
  obtain ⟨t, t', ht, hreach, hobs⟩ := Tracked.exists_reach (fun _ => passSevenRun_iff hcallee) hrun
  have hload : loadProgram 60 (fun _ _ => 0) (programBytes 0 passSeven) =
      .ok (program 0 passSeven, 0) := by decide +kernel
  have hes : getEntrypoints (program 0 passSeven) = .ok [0] := by decide +kernel
  exact ⟨r, t, t', ht, hreach, Tracked.executes_iff.mpr hobs,
    passed_in_bounds hload hes hr ⟨.begin 0 0, 9, by decide +kernel, rfl⟩
      (mayRun_iff (by rw [hls.1]; decide)) ht hreach (Tracked.executes_iff.mpr hobs)⟩

/-- `BEGIN 0 0; CLOSURE 24; CALLC 0; END; BEGIN 0 0; LD A(0); END`. -/
def missingArgument : List UInt8 :=
  82 :: intBytes 0 ++ intBytes 0 ++ 84 :: intBytes 24 ++ intBytes 0 ++ 85 :: intBytes 0 ++ [22] ++
    82 :: intBytes 0 ++ intBytes 0 ++ 34 :: intBytes 0 ++ [22]

/-- `CALLC` passes no argument, and the function it enters loads `A(0)`. -/
theorem missingArgument_fails :
    ∃ t t', loadProgram 60 (fun _ _ => 0) (programBytes 0 missingArgument) =
        .ok (program 0 missingArgument, 0) ∧
      t.Starts sampleImage (program 0 missingArgument) 0 ∧
      Reach (Tracked.Step sampleImage (program 0 missingArgument))
        (ClosureBuilt sampleImage (program 0 missingArgument)) t t' ∧
      t'.frames = [⟨24, false, 0, 0⟩, ⟨0, false, 0, 0⟩] ∧
      t'.Executes (program 0 missingArgument) (.ld ⟨2, 0⟩) 38 ∧
      ¬ AccessesPassed t' (.ld ⟨2, 0⟩) := by
  have hrun : (Tracked.runFrom sampleImage (program 0 missingArgument)
      (closureBuilt sampleImage (program 0 missingArgument)) sampleHeap 0
      [sampleEnv, sampleEnv, sampleEnv, sampleEnv]).map
      (fun t => (t.fetch (program 0 missingArgument), t.frames)) =
        .ok (some (.ld ⟨2, 0⟩, 38), [⟨24, false, 0, 0⟩, ⟨0, false, 0, 0⟩]) := by decide +kernel
  obtain ⟨t, t', ht, hreach, hobs⟩ := Tracked.exists_reach (fun _ => closureBuilt_iff) hrun
  rw [Prod.mk.injEq] at hobs
  refine ⟨t, t', by decide +kernel, ht, hreach, hobs.2, Tracked.executes_iff.mpr hobs.1, fun h => ?_⟩
  obtain ⟨a, as, has, harg, -⟩ := h ⟨2, 0⟩ (List.mem_singleton_self _)
  rw [hobs.2, List.cons.injEq] at has
  have := (harg rfl).2
  rw [← has.1] at this
  exact absurd this (by decide)

end Lama

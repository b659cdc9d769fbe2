import PlvmHomeworks.Tools.Frames

/-! Verified control flow against executed control flow: which addresses a run can come to. -/

namespace Lama
open Outcome Worklist Runs

/-- The byte `t` is about to execute selects a functor: its low nibble is one its table lists. -/
def Listed (f : Bytefile) (t : Tracked) : Prop := ∀ next, ¬ t.Executes f .noFunctor next

/-- Where a frame goes on is a successor, unless no functor is applied. -/
theorem frameSuccessors_subset {inst : Inst} {next v : ℤ} (h : inst ≠ .noFunctor)
    (hv : v ∈ inst.frameSuccessors next) : v ∈ successorsFunctor next inst := by
  cases inst <;> simp_all [Inst.frameSuccessors, successorsFunctor, or_comm]

namespace Accepted

variable {fuel : ℕ} {f : Bytefile} {ip : ℤ} {r : Result ℤ Unit Bodies}

/-- The instruction at a visited address is the one the search decoded. -/
theorem decoded (h : Accepted fuel f ip r) {v : ℤ} {inst : Inst} {next : ℤ} (hv : v ∈ r.visited)
    (hi : readInst f v = .ok (inst, next)) :
    (∀ s ∈ successorsFunctor next inst, s ∈ r.visited) ∧ Pushed f r.state inst := by
  obtain ⟨inst', next', hi', hs, hp⟩ := h.visited v hv
  rw [hi, Except.ok.injEq, Prod.mk.injEq] at hi'
  rw [hi'.1, hi'.2]; exact ⟨hs, hp⟩

/-- Control flow inside a frame stays in the visited addresses. -/
theorem frame_visited (h : Accepted fuel f ip r) {v w : ℤ} {inst : Inst} {next : ℤ} (hv : v ∈ r.visited)
    (hi : readInst f v = .ok (inst, next)) (hl : inst ≠ .noFunctor)
    (hw : w ∈ inst.frameSuccessors next) : w ∈ r.visited :=
  (h.decoded hv hi).1 w (frameSuccessors_subset hl hw)

end Accepted

/-- Every address of a frame was visited, and so was the entry of every closure. -/
def visitedInv (r : Result ℤ Unit Bodies) : FrameInv where
  frame _ _ ip _ := ip ∈ r.visited
  closure c := c.1 ∈ r.visited

/-- Calls find their closures, and every executed byte selects a functor. -/
def ListedRun (im : Image) (f : Bytefile) (t : Tracked) : Prop := ClosureBuilt im f t ∧ Listed f t

theorem At.executes {f : Bytefile} {t : Tracked} {a : Activation} {ip next : ℤ} {inst : Inst}
    (h : At f t a ip inst next) : t.Executes f inst next := ⟨ip, h.address, h.decoded⟩

theorem At.listed {f : Bytefile} {t : Tracked} {a : Activation} {ip next : ℤ} {inst : Inst}
    (h : At f t a ip inst next) (hl : Listed f t) : inst ≠ .noFunctor := by
  rintro rfl
  exact hl next h.executes

theorem visitedInv_rules {im : Image} {fuel : ℕ} {f : Bytefile} {ip : ℤ}
    {r : Result ℤ Unit Bodies} (hacc : Accepted fuel f ip r) :
    (visitedInv r).Rules im f (ListedRun im f) where
  plain hat hok hv _ _ _ hip := hacc.frame_visited hv hat.decoded (hat.listed hok.2) hip
  prologue hat hok hv hinst _ := by
    refine hacc.frame_visited hv hat.decoded (hat.listed hok.2) ?_
    rcases hinst with rfl | rfl <;> exact List.mem_singleton_self _
  call hat hok hv _ := by
    have hs := (hacc.decoded hv hat.decoded).1
    exact ⟨hs _ (by simp [successorsFunctor]), fun _ => hs _ (by simp [successorsFunctor])⟩
  callc hat hok hv _ _ hc :=
    ⟨hc, fun _ => (hacc.decoded hv hat.decoded).1 _ (by simp [successorsFunctor])⟩
  closure hat hok hv := (hacc.decoded hv hat.decoded).1 _ (by simp [successorsFunctor])

/-- In a run of an accepted file that executes only bytes that select a functor, every address
    reached was visited by the search of `verify_reachable_instructions`. -/
theorem executed_visited {fuel : ℕ} {garbage : ℤ → ℤ → ℤ} {bytes : List UInt8} {f : Bytefile}
    {ip : ℤ} (hload : loadProgram fuel garbage bytes = .ok (f, ip)) {es : List ℤ}
    {r : Result ℤ Unit Bodies} (hes : getEntrypoints f = .ok es)
    (hr : searchReachable fuel f es = .ok r) {im : Image} {t t' : Tracked} (ht : t.Starts im f ip)
    (hrun : Reach (Tracked.Step im f) (fun t => ClosureBuilt im f t ∧ Listed f t) t t') :
    ∀ a, t'.state.ip = some a → a ∈ r.visited := by
  obtain ⟨es', r', hes', hr', hacc⟩ := accepted_of_loadProgram hload
  rw [hes, Except.ok.injEq] at hes'
  rw [← hes', hr, Except.ok.injEq] at hr'
  rw [← hr'] at hacc
  have hholds := (visitedInv_rules hacc).reach (fun _ h => h.1)
    (FrameInv.holds_of_starts ht hacc.entry_visited) hrun
  intro a ha
  obtain ⟨_, _, _, _, hv⟩ := hholds.current ha
  exact hv

/-- `ListedRun`, computed. -/
def listedRun (im : Image) (f : Bytefile) (t : Tracked) : Bool :=
  closureBuilt im f t && !(t.fetch f).any fun r => r.1 == .noFunctor

theorem listedRun_iff {im : Image} {f : Bytefile} {t : Tracked} (h : listedRun im f t = true) :
    ListedRun im f t := by
  rw [listedRun, Bool.and_eq_true, Bool.not_eq_true'] at h
  refine ⟨closureBuilt_iff h.1, fun next hexec => ?_⟩
  rw [Tracked.executes_iff] at hexec
  simp [hexec] at h

/-- `BEGIN 0 0; CONST 7; END`. -/
def constSeven : List UInt8 := 82 :: intBytes 0 ++ intBytes 0 ++ 16 :: intBytes 7 ++ [22]

/-- `BEGIN 0 1; CONST 7; ST L(0); DROP; LD L(0); CJMPz 52; LD L(0); CONST 1; BINOP -; ST L(0); DROP;
    JMP 20; CONST 0; END`: counts down from 7. -/
def countDown : List UInt8 :=
  82 :: intBytes 0 ++ intBytes 1 ++ 16 :: intBytes 7 ++ 65 :: intBytes 0 ++ 24 :: 33 :: intBytes 0 ++
    80 :: intBytes 52 ++ 33 :: intBytes 0 ++ 16 :: intBytes 1 ++ 2 :: 65 :: intBytes 0 ++
    24 :: 21 :: intBytes 20 ++ 16 :: intBytes 0 ++ [22]

/-- `BEGIN 0 1; CLOSURE 54; CONST 0; CALLC 1; CJMPz 39; CONST 5; DROP; CALL 69 0; ST L(0); END`,
    `CBEGIN 1 0; LD A(0); END` and `BEGIN 0 1; CONST 3; ST L(0); END`: what the closure returns decides
    the jump, behind which a function is called. -/
def decideThenCall : List UInt8 :=
  82 :: intBytes 0 ++ intBytes 1 ++ 84 :: intBytes 54 ++ intBytes 0 ++ 16 :: intBytes 0 ++
    85 :: intBytes 1 ++ 80 :: intBytes 39 ++ 16 :: intBytes 5 ++ 24 :: 86 :: intBytes 69 ++ intBytes 0 ++
    65 :: intBytes 0 ++ 22 :: 83 :: intBytes 1 ++ intBytes 0 ++ 34 :: intBytes 0 ++
    22 :: 82 :: intBytes 0 ++ intBytes 1 ++ 16 :: intBytes 3 ++ 65 :: intBytes 0 ++ [22]

/-- After eleven turns the function called last stores its local. -/
theorem decideThenCall_visited :
    ∃ r t t', t.Starts sampleImage (program 0 decideThenCall) 0 ∧
      Reach (Tracked.Step sampleImage (program 0 decideThenCall))
        (ListedRun sampleImage (program 0 decideThenCall)) t t' ∧
      t'.state.ip = some 83 ∧ searchReachable 90 (program 0 decideThenCall) [0] = .ok r ∧
      83 ∈ r.visited := by
  have hr : (searchReachable 90 (program 0 decideThenCall) [0]).map (fun _ => ()) = .ok () := by
    decide +kernel
  have hrun : (Tracked.runFrom sampleImage (program 0 decideThenCall)
      (listedRun sampleImage (program 0 decideThenCall)) sampleHeap 0 (List.replicate 11 sampleEnv)).map
      (fun t => t.state.ip) = .ok (some 83) := by decide +kernel
  obtain ⟨r, hr, -⟩ := exists_of_map_eq_ok hr
  obtain ⟨t, t', ht, hreach, hip⟩ := Tracked.exists_reach (fun _ => listedRun_iff) hrun
  have hload : loadProgram 90 (fun _ _ => 69) (programBytes 0 decideThenCall) =
      .ok (program 0 decideThenCall, 0) := by decide +kernel
  have hes : getEntrypoints (program 0 decideThenCall) = .ok [0] := by decide +kernel
  exact ⟨r, t, t', ht, hreach, hip, hr, executed_visited hload hes hr ht hreach 83 hip⟩

/-- `BEGIN 0 0; BINOP ?; CONST 1; END`: the low nibble of the second opcode is 0. -/
def skippedOpcode : List UInt8 := 82 :: intBytes 0 ++ intBytes 0 ++ [0] ++ 16 :: intBytes 1 ++ [22]

/-- `CONST 1` is executed although the verifier stopped at the byte before it. -/
theorem skippedOpcode_unvisited :
    ∃ r t t', loadProgram 30 (fun _ _ => 0) (programBytes 0 skippedOpcode) =
        .ok (program 0 skippedOpcode, 0) ∧
      getEntrypoints (program 0 skippedOpcode) = .ok [0] ∧
      searchReachable 30 (program 0 skippedOpcode) [0] = .ok r ∧
      t.Starts sampleImage (program 0 skippedOpcode) 0 ∧
      Reach (Tracked.Step sampleImage (program 0 skippedOpcode))
        (ClosureBuilt sampleImage (program 0 skippedOpcode)) t t' ∧
      t'.Executes (program 0 skippedOpcode) (.const 1) 15 ∧ t'.state.ip = some 10 ∧
      10 ∉ r.visited := by
  have hr : (searchReachable 30 (program 0 skippedOpcode) [0]).map (·.visited) = .ok [9, 0] := by
    decide +kernel
  have hrun : (Tracked.runFrom sampleImage (program 0 skippedOpcode)
      (closureBuilt sampleImage (program 0 skippedOpcode)) sampleHeap 0 [sampleEnv, sampleEnv]).map
      (fun t => (t.fetch (program 0 skippedOpcode), t.state.ip)) =
        .ok (some (.const 1, 15), some 10) := by decide +kernel
  obtain ⟨r, hr, hvis⟩ := exists_of_map_eq_ok hr
  obtain ⟨t, t', ht, hreach, hobs⟩ := Tracked.exists_reach (fun _ => closureBuilt_iff) hrun
  rw [Prod.mk.injEq] at hobs
  exact ⟨r, t, t', by decide +kernel, by decide +kernel, hr, ht, hreach,
    Tracked.executes_iff.mpr hobs.1, hobs.2, by rw [hvis]; decide⟩

end Lama

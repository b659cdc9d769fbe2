import PlvmHomeworks.Tools.ControlFlow

/-! One prologue per frame: where frames are entered, and that they stay inside their function. -/

namespace Lama
open Outcome Worklist Runs

variable {fuel : ℕ} {f : Bytefile} {ip : ℤ} {r : Result ℤ Unit Bodies}

/-- `b` is a visited `BEGIN` or `CBEGIN` that `verify_function` was run on. -/
structure EntryOk (f : Bytefile) (r : Result ℤ Unit Bodies) (b : ℤ) : Prop where
  visited : b ∈ r.visited
  body : ∃ captured, ⟨b, captured⟩ ∈ r.state.all
  prologue : ∃ inst next, readInst f b = .ok (inst, next) ∧ inst.isPrologue = true

namespace Accepted

theorem entry_of_call (h : Accepted fuel f ip r) {v next ret offset argc : ℤ} (hv : v ∈ r.visited)
    (hi : readInst f v = .ok (.call ret offset argc, next)) : EntryOk f r offset := by
  obtain ⟨hs, hp⟩ := h.decoded hv hi
  obtain ⟨hb, hmem⟩ := hp.call ret offset argc rfl
  have hvis := hs offset (by simp [successorsFunctor])
  obtain ⟨inst, next', hi', -, -⟩ := h.visited offset hvis
  refine ⟨hvis, ⟨-1, List.mem_append_left _ (List.mem_map.mpr ⟨offset, hmem, rfl⟩)⟩, inst, next', hi', ?_⟩
  exact (readInst_prologue_iff hi' hb).mpr (Or.inl rfl)

theorem entry_of_closure (h : Accepted fuel f ip r) {v next entry : ℤ} {captured : List LocationEntry}
    (hv : v ∈ r.visited) (hi : readInst f v = .ok (.closure entry captured, next)) :
    EntryOk f r entry := by
  obtain ⟨hs, hp⟩ := h.decoded hv hi
  obtain ⟨⟨b, hb, hbe⟩, hmem⟩ := hp.closure entry captured rfl
  have hvis := hs entry (by simp [successorsFunctor])
  obtain ⟨inst, next', hi', -, -⟩ := h.visited entry hvis
  refine ⟨hvis, ⟨captured.length, List.mem_append_right _ hmem⟩, inst, next', hi', ?_⟩
  exact (readInst_prologue_iff hi' hb).mpr hbe.symm

theorem entry_of_main (h : Accepted fuel f ip r) {inst : Inst} {next : ℤ}
    (hi : readInst f ip = .ok (inst, next)) (hp : inst.isPrologue = true) : EntryOk f r ip :=
  ⟨h.entry_visited, ⟨-1, List.mem_append_left _ (List.mem_map.mpr ⟨ip, h.entry_begin, rfl⟩)⟩,
    inst, next, hi, hp⟩

end Accepted

/-- Every frame was entered at a verified prologue, and so is every closure. -/
def entryInv (f : Bytefile) (r : Result ℤ Unit Bodies) : FrameInv where
  frame a _ ip _ := ip ∈ r.visited ∧ EntryOk f r a.entry
  closure c := EntryOk f r c.1

theorem entryInv_rules {im : Image} (hacc : Accepted fuel f ip r) :
    (entryInv f r).Rules im f (ListedRun im f) where
  plain hat hok hv _ _ _ hip := ⟨hacc.frame_visited hv.1 hat.decoded (hat.listed hok.2) hip, hv.2⟩
  prologue hat hok hv hinst _ := by
    refine ⟨hacc.frame_visited hv.1 hat.decoded (hat.listed hok.2) ?_, hv.2⟩
    rcases hinst with rfl | rfl <;> exact List.mem_singleton_self _
  call hat hok hv _ := by
    have hentry := hacc.entry_of_call hv.1 hat.decoded
    exact ⟨⟨hentry.visited, hentry⟩,
      fun _ => ⟨(hacc.decoded hv.1 hat.decoded).1 _ (by simp [successorsFunctor]), hv.2⟩⟩
  callc hat hok hv _ _ hc :=
    ⟨⟨hc.visited, hc⟩, fun _ =>
      ⟨(hacc.decoded hv.1 hat.decoded).1 _ (by simp [successorsFunctor]), hv.2⟩⟩
  closure hat hok hv := hacc.entry_of_closure hv.1 hat.decoded

/-! ### Inside a body -/

/-- A jump of the function at `b` that the verifier lets through although it leaves the instructions
    of the body, or comes back to its prologue. -/
def BadTarget (f : Bytefile) (b target : ℤ) : Prop :=
  target = b ∨ (∃ e, Scan f b e ∧ target = e + 1) ∨
    ∃ c d, BodyStart f b c ∧ LinearStep f c d ∧ c < target ∧ target < d

/-- The jump that `t` is about to execute goes to an instruction after the prologue of its
    function. -/
def JumpsInBody (f : Bytefile) (t : Tracked) : Prop :=
  ∀ a as, t.frames = a :: as → ∀ inst next, t.Executes f inst next →
    ∀ target ∈ inst.jumpTargets, ¬ BadTarget f a.entry target

/-- The locals operand of the prologue at `b`. -/
def LocalsOf (f : Bytefile) (b locc : ℤ) : Prop :=
  ∃ argc next, readInst f b = .ok (.begin argc locc, next) ∨
    readInst f b = .ok (.cbegin argc locc, next)

/-- `ip` is an instruction of the verified body at `b` that its search `r'` visited. -/
structure BodyAt (fuel : ℕ) (f : Bytefile) (r : Result ℤ Unit Bodies) (b captured size : ℤ)
    (r' : Result ℤ StackLayout (List ℤ)) (ip : ℤ) : Prop where
  listed : ⟨b, captured⟩ ∈ r.state.all
  searched : searchFunction fuel f b captured = .ok (size, r')
  verified : BodyVerified f b captured size r'
  visited : ip ∈ r'.visited
  start : BodyStart f b ip

theorem frameSuccessors_cases {inst : Inst} {next v : ℤ} (hv : v ∈ inst.frameSuccessors next) :
    v = next ∧ inst ≠ .end_ ∨ v ∈ inst.jumpTargets := by
  cases inst <;> simp_all [Inst.frameSuccessors, Inst.jumpTargets, or_comm]

/-- Control flow inside a frame stays inside the body, after its prologue. -/
theorem BodyAt.frame_next {b captured size ip v next : ℤ} {r' : Result ℤ StackLayout (List ℤ)}
    {inst : Inst} (h : BodyAt fuel f r b captured size r' ip) (hi : readInst f ip = .ok (inst, next))
    (hl : inst ≠ .noFunctor) (hj : ∀ target ∈ inst.jumpTargets, ¬ BadTarget f b target)
    (hv : v ∈ inst.frameSuccessors next) : BodyAt fuel f r b captured size r' v ∧ v ≠ b := by
  obtain ⟨e, hscan, hsize⟩ := h.verified.scanned
  obtain ⟨layout, hlog⟩ := h.verified.logged_of_visited h.visited
  obtain ⟨inst', next', jumps, jumps', layout', hi', -, -, hsucc, htargets⟩ := h.verified.logged hlog
  rw [hi, Except.ok.injEq, Prod.mk.injEq] at hi'
  obtain ⟨rfl, rfl⟩ := hi'
  have hvs := frameSuccessors_subset hl hv
  -- the body does not consist of a single `END`
  have hne : inst ≠ .end_ := by
    rintro rfl; cases hv
  have hstep : LinearStep f ip next := ⟨inst, hi, hne⟩
  have hnext : BodyStart f b next := h.start.tail hstep
  have hb := hscan.bodyStart h.start
  have hn := hscan.bodyStart hnext
  have hlt := (readInst_lt hi).2.1
  have hsize : size = e - b + 1 := by
    rcases hsize with ⟨rfl, -⟩ | hs
    · omega
    · exact hs
  have hin : BodyStart f b v ∧ b < v ∧ v ≤ e := by
    rcases frameSuccessors_cases hv with ⟨rfl, -⟩ | hmem
    · exact ⟨hnext, by omega, hn.2.1⟩
    · have hgood := hj v hmem
      obtain ⟨hlo, hhi⟩ := htargets v hmem
      have hvb : v ≠ b := fun h => hgood (Or.inl h)
      have hve : v ≠ e + 1 := fun h => hgood (Or.inr (Or.inl ⟨e, hscan, h⟩))
      rcases hscan.tile hlo (by omega) with hstart | hinside
      · exact ⟨hstart, by omega, by omega⟩
      · exact absurd (Or.inr (Or.inr hinside)) hgood
  exact ⟨{ h with visited := hsucc v hvs (by omega) (by omega), start := hin.1 }, by omega⟩

/-- The conditions under which frames stay inside their functions. -/
def InBodyRun (im : Image) (f : Bytefile) (t : Tracked) : Prop :=
  ClosureBuilt im f t ∧ Listed f t ∧ JumpsInBody f t

/-- A frame that has started is past its prologue, inside its body, and its record has the locals
    of its function. -/
def bodyInv (fuel : ℕ) (f : Bytefile) (r : Result ℤ Unit Bodies) : FrameInv where
  frame a fr ip _ := a.fresh = false → ip ≠ a.entry ∧
    (∃ captured size r', BodyAt fuel f r a.entry captured size r' ip) ∧
    ∃ locc, LocalsOf f a.entry locc ∧ fr.localsCount = toSize locc
  closure _ := True

theorem prologue_locals {b next : ℤ} {inst : Inst} (hi : readInst f b = .ok (inst, next))
    (hp : inst.isPrologue = true) : ∃ argc locc, inst = .begin argc locc ∨ inst = .cbegin argc locc := by
  cases inst <;> first | exact Bool.noConfusion hp | exact ⟨_, _, Or.inl rfl⟩ | exact ⟨_, _, Or.inr rfl⟩

/-- A started frame executes no prologue. -/
theorem BodyAt.not_prologue {b captured size ip next : ℤ} {r' : Result ℤ StackLayout (List ℤ)}
    {inst : Inst} (h : BodyAt fuel f r b captured size r' ip) (hne : ip ≠ b)
    (hi : readInst f ip = .ok (inst, next)) : inst.isPrologue = false := by
  obtain ⟨e, hscan, -⟩ := h.verified.scanned
  obtain ⟨y, hy, hnot⟩ := (hscan.bodyStart h.start).2.2.2 hne
  rw [Bool.eq_false_iff]
  exact fun hp => hnot ((readInst_prologue_iff hi hy).mp hp)

/-- A fresh frame executes a prologue. -/
theorem At.fresh_prologue {t : Tracked} {a : Activation} {ip next : ℤ} {inst : Inst}
    (hat : At f t a ip inst next) (hentry : EntryOk f r a.entry) (hfresh : a.fresh = true) :
    ip = a.entry ∧ inst.isPrologue = true := by
  obtain ⟨hip, -⟩ := hat.fresh hfresh
  obtain ⟨inst', next', hi', hp⟩ := hentry.prologue
  rw [← hip, hat.decoded, Except.ok.injEq, Prod.mk.injEq] at hi'
  exact ⟨hip, hi'.1 ▸ hp⟩

/-- A started frame goes on in its body. -/
theorem bodyInv_next {im : Image} {t : Tracked} {a : Activation} {ip next v : ℤ} {inst : Inst}
    (hat : At f t a ip inst next) (hok : InBodyRun im f t) (hentry : EntryOk f r a.entry)
    (hp : inst.isPrologue = false) {fr : Frame}
    (h : a.fresh = false → ip ≠ a.entry ∧
      (∃ captured size r', BodyAt fuel f r a.entry captured size r' ip) ∧
        ∃ locc, LocalsOf f a.entry locc ∧ fr.localsCount = toSize locc)
    (hv : v ∈ inst.frameSuccessors next) :
    v ≠ a.entry ∧ (∃ captured size r', BodyAt fuel f r a.entry captured size r' v) ∧
      ∃ locc, LocalsOf f a.entry locc ∧ fr.localsCount = toSize locc := by
  cases hfresh : a.fresh with
  | true => rw [(hat.fresh_prologue hentry hfresh).2] at hp; cases hp
  | false =>
    obtain ⟨-, ⟨captured, size, r', hbody⟩, hlocals⟩ := h hfresh
    obtain ⟨as, has⟩ := hat.frames
    obtain ⟨hnext, hne⟩ := hbody.frame_next hat.decoded (hat.listed hok.2.1)
      (hok.2.2 a as has inst next hat.executes) hv
    exact ⟨hne, ⟨captured, size, r', hnext⟩, hlocals⟩

theorem bodyInv_rules {im : Image} (hacc : Accepted fuel f ip r) :
    (bodyInv fuel f r).Rules im f (fun t => InBodyRun im f t ∧ (entryInv f r).Holds t) where
  plain hat hok hv hplain _ _ hip _ := by
    have hp := Bool.eq_false_iff.mpr fun h => Inst.isPlain_not_prologue hplain h
    exact bodyInv_next hat hok.1 (hok.2.at hat).2 hp hv hip
  prologue {t a ip inst next argc locc} hat hok hv hinst _ := by
    intro _
    have hp : inst.isPrologue = true := by rcases hinst with rfl | rfl <;> rfl
    have hnext : next ∈ inst.frameSuccessors next := by
      rcases hinst with rfl | rfl <;> exact List.mem_singleton_self _
    have hentry := (hok.2.at hat).2
    cases hfresh : a.fresh with
    | true =>
      obtain ⟨rfl, -⟩ := hat.fresh hfresh
      obtain ⟨captured, hmem⟩ := hentry.body
      obtain ⟨size, r', hsearch, hverified⟩ := hacc.verified _ hmem
      obtain ⟨as, has⟩ := hat.frames
      obtain ⟨hbody, hne⟩ := BodyAt.frame_next
        ⟨hmem, hsearch, hverified, hverified.begin_visited, .refl⟩ hat.decoded
        (hat.listed hok.1.2.1) (hok.1.2.2 a as has inst next hat.executes) hnext
      refine ⟨hne, ⟨captured, size, r', hbody⟩, locc, ⟨argc, next, ?_⟩, rfl⟩
      rcases hinst with rfl | rfl
      · exact Or.inl hat.decoded
      · exact Or.inr hat.decoded
    | false =>
      obtain ⟨hne, ⟨captured, size, r', hbody⟩, -⟩ := hv hfresh
      rw [hbody.not_prologue hne hat.decoded] at hp
      cases hp
  call hat hok hv _ :=
    ⟨fun h => Bool.noConfusion h, fun _ _ =>
      bodyInv_next hat hok.1 (hok.2.at hat).2 rfl hv (List.mem_singleton_self _)⟩
  callc hat hok hv _ _ _ :=
    ⟨fun h => Bool.noConfusion h, fun _ _ =>
      bodyInv_next hat hok.1 (hok.2.at hat).2 rfl hv (List.mem_singleton_self _)⟩
  closure _ _ _ := trivial

/-- Both invariants along a run. -/
theorem bodyInv_reach {im : Image} (hacc : Accepted fuel f ip r)
    (hmain : ∃ inst next, readInst f ip = .ok (inst, next) ∧ inst.isPrologue = true) {t t' : Tracked}
    (ht : t.Starts im f ip) (hrun : Reach (Tracked.Step im f) (InBodyRun im f) t t') :
    (entryInv f r).Holds t' ∧ (bodyInv fuel f r).Holds t' ∧
      Reach (Tracked.Step im f) (fun t => (InBodyRun im f t ∧ (entryInv f r).Holds t) ∧
        (bodyInv fuel f r).Holds t) t t' := by
  obtain ⟨inst, next, hi, hp⟩ := hmain
  have hentry := hacc.entry_of_main hi hp
  have hstart : (entryInv f r).Holds t := FrameInv.holds_of_starts ht ⟨hacc.entry_visited, hentry⟩
  have hbstart : (bodyInv fuel f r).Holds t := FrameInv.holds_of_starts ht fun h => Bool.noConfusion h
  have hlisted : Reach (Tracked.Step im f) (ListedRun im f) t t' :=
    hrun.mono (fun _ h => ⟨h.1, h.2.1⟩) fun _ _ => id
  have hrun' : Reach (Tracked.Step im f)
      (fun t => InBodyRun im f t ∧ (entryInv f r).Holds t) t t' :=
    hrun.strengthen hstart fun _ _ ha hok hab =>
      (entryInv_rules hacc).step (fun _ h => h.1) ha ⟨hok.1, hok.2.1⟩ hab
  exact ⟨(entryInv_rules hacc).reach (fun _ h => h.1) hstart hlisted,
    (bodyInv_rules hacc).reach (fun _ h => h.1.1) hbstart hrun',
    (bodyInv_rules hacc).strengthen (fun _ h => h.1.1) hbstart hrun'⟩

/-- What a frame is doing: entering its function, or running past its prologue. -/
def OnePrologue (f : Bytefile) (r : Result ℤ Unit Bodies) (t : Tracked) : Prop :=
  ∀ inst next, t.Executes f inst next → ∃ a as, t.frames = a :: as ∧
    (a.fresh = true → t.state.ip = some a.entry ∧ inst.isPrologue = true ∧
      ∃ captured size r', ⟨a.entry, captured⟩ ∈ r.state.all ∧
        BodyVerified f a.entry captured size r') ∧
    (a.fresh = false → inst.isPrologue = false ∧
      ∃ locc, LocalsOf f a.entry locc ∧ t.state.frame.localsCount = toSize locc)

/-- In a run of an accepted file whose main function starts with a prologue, that executes only bytes
    that select a functor and jumps only to instructions of the body after its prologue: a frame
    executes a prologue as its first instruction, the one of a verified function, and never again,
    and `locals_count` is the locals operand of the running function. -/
theorem one_prologue {fuel : ℕ} {garbage : ℤ → ℤ → ℤ} {bytes : List UInt8} {f : Bytefile} {ip : ℤ}
    (hload : loadProgram fuel garbage bytes = .ok (f, ip)) {es : List ℤ} {r : Result ℤ Unit Bodies}
    (hes : getEntrypoints f = .ok es) (hr : searchReachable fuel f es = .ok r)
    (hmain : ∃ inst next, readInst f ip = .ok (inst, next) ∧ inst.isPrologue = true)
    {im : Image} {t t' : Tracked} (ht : t.Starts im f ip)
    (hrun : Reach (Tracked.Step im f)
      (fun t => ClosureBuilt im f t ∧ Listed f t ∧ JumpsInBody f t) t t') : OnePrologue f r t' := by
  obtain ⟨es', r₁, hes', hr₁, hacc⟩ := accepted_of_loadProgram hload
  rw [hes, Except.ok.injEq] at hes'
  rw [← hes', hr, Except.ok.injEq] at hr₁
  rw [← hr₁] at hacc
  obtain ⟨hentry, hbody, -⟩ := bodyInv_reach hacc hmain ht hrun
  rintro inst next ⟨a, ha, hi⟩
  obtain ⟨act, as, has, hfresh, -, hok⟩ := hentry.current ha
  have hat : At f t' act a inst next := ⟨⟨as, has⟩, ha, hi, hfresh⟩
  refine ⟨act, as, has, fun h => ?_, fun h => ?_⟩
  · obtain ⟨rfl, hp⟩ := hat.fresh_prologue hok h
    obtain ⟨captured, hmem⟩ := hok.body
    obtain ⟨size, r', -, hr'⟩ := hacc.verified _ hmem
    exact ⟨ha, hp, captured, size, r', hmem, hr'⟩
  · obtain ⟨hne, ⟨captured, size, r', hb⟩, hlocals⟩ := hbody.at hat h
    exact ⟨hb.not_prologue hne hi, hlocals⟩

/-- An instruction of the body other than its prologue is a good target. -/
theorem not_badTarget_of_bodyStart {b target : ℤ} (hne : target ≠ b) (h : BodyStart f b target) :
    ¬ BadTarget f b target := by
  rintro (rfl | ⟨e, he, rfl⟩ | ⟨c, d, hc, hcd, hlt, hgt⟩)
  · exact hne rfl
  · have := (he.bodyStart h).2.1
    omega
  · rcases hc.total h with hct | htc
    · rcases Relation.ReflTransGen.cases_head hct with rfl | ⟨d', hcd', hdt⟩
      · omega
      · have := (hcd.unique hcd' ▸ BodyStart.le hdt : d ≤ target)
        omega
    · have := BodyStart.le htc
      omega

/-- `InBodyRun`, computed. -/
def inBodyRun (im : Image) (f : Bytefile) (t : Tracked) : Bool :=
  listedRun im f t && t.frames.head?.all fun a => (t.fetch f).all fun r =>
    r.1.jumpTargets.all fun target => target ≠ a.entry ∧
      target ∈ linearStarts f f.bytes.length a.entry

theorem inBodyRun_iff {im : Image} {f : Bytefile} {t : Tracked} (h : inBodyRun im f t = true) :
    InBodyRun im f t := by
  rw [inBodyRun, Bool.and_eq_true] at h
  refine ⟨(listedRun_iff h.1).1, (listedRun_iff h.1).2, fun a as has inst next hexec target htarget => ?_⟩
  rw [Tracked.executes_iff] at hexec
  have hall := h.2
  rw [has, List.head?_cons, Option.all_some, hexec, Option.all_some, List.all_eq_true] at hall
  obtain ⟨hne, hmem⟩ := of_decide_eq_true (hall target htarget)
  exact not_badTarget_of_bodyStart hne (bodyStart_of_mem hmem)

theorem one_prologue_decideThenCall :
    ∃ r t t', t.Starts sampleImage (program 0 decideThenCall) 0 ∧
      Reach (Tracked.Step sampleImage (program 0 decideThenCall))
        (InBodyRun sampleImage (program 0 decideThenCall)) t t' ∧
      t'.Executes (program 0 decideThenCall) (.st ⟨1, 0⟩) 88 ∧
      OnePrologue (program 0 decideThenCall) r t' := by
  have hr : (searchReachable 90 (program 0 decideThenCall) [0]).map (fun _ => ()) = .ok () := by
    decide +kernel
  have hrun : (Tracked.runFrom sampleImage (program 0 decideThenCall)
      (inBodyRun sampleImage (program 0 decideThenCall)) sampleHeap 0 (List.replicate 11 sampleEnv)).map
      (fun t => t.fetch (program 0 decideThenCall)) = .ok (some (.st ⟨1, 0⟩, 88)) := by decide +kernel
  obtain ⟨r, hr, -⟩ := exists_of_map_eq_ok hr
  obtain ⟨t, t', ht, hreach, hobs⟩ := Tracked.exists_reach (fun _ => inBodyRun_iff) hrun
  have hload : loadProgram 90 (fun _ _ => 69) (programBytes 0 decideThenCall) =
      .ok (program 0 decideThenCall, 0) := by decide +kernel
  have hes : getEntrypoints (program 0 decideThenCall) = .ok [0] := by decide +kernel
  exact ⟨r, t, t', ht, hreach, Tracked.executes_iff.mpr hobs,
    one_prologue hload hes hr ⟨.begin 0 1, 9, by decide +kernel, rfl⟩ ht hreach⟩

/-- `BEGIN 0 1; JMP 0; END`. -/
def jumpToBegin : List UInt8 := 82 :: intBytes 0 ++ intBytes 1 ++ 21 :: intBytes 0 ++ [22]

/-- A frame that has started executes its `BEGIN` again. -/
theorem jumpToBegin_prologue_twice :
    ∃ r t t', loadProgram 30 (fun _ _ => 0) (programBytes 0 jumpToBegin) =
        .ok (program 0 jumpToBegin, 0) ∧
      getEntrypoints (program 0 jumpToBegin) = .ok [0] ∧
      searchReachable 30 (program 0 jumpToBegin) [0] = .ok r ∧
      t.Starts sampleImage (program 0 jumpToBegin) 0 ∧
      Reach (Tracked.Step sampleImage (program 0 jumpToBegin))
        (ClosureBuilt sampleImage (program 0 jumpToBegin)) t t' ∧
      t'.frames = [⟨0, false, 0, 0⟩] ∧ t'.Executes (program 0 jumpToBegin) (.begin 0 1) 9 ∧
      ¬ OnePrologue (program 0 jumpToBegin) r t' := by
  have hr : (searchReachable 30 (program 0 jumpToBegin) [0]).map (fun _ => ()) = .ok () := by
    decide +kernel
  have hrun : (Tracked.runFrom sampleImage (program 0 jumpToBegin)
      (closureBuilt sampleImage (program 0 jumpToBegin)) sampleHeap 0 [sampleEnv, sampleEnv]).map
      (fun t => (t.fetch (program 0 jumpToBegin), t.frames)) =
        .ok (some (.begin 0 1, 9), [⟨0, false, 0, 0⟩]) := by decide +kernel
  obtain ⟨r, hr, -⟩ := exists_of_map_eq_ok hr
  obtain ⟨t, t', ht, hreach, hobs⟩ := Tracked.exists_reach (fun _ => closureBuilt_iff) hrun
  rw [Prod.mk.injEq] at hobs
  have hexec := Tracked.executes_iff.mpr hobs.1
  refine ⟨r, t, t', by decide +kernel, by decide +kernel, hr, ht, hreach, hobs.2, hexec, fun hone => ?_⟩
  obtain ⟨a, as, has, -, hstarted⟩ := hone _ _ hexec
  rw [hobs.2, List.cons.injEq] at has
  have := (hstarted (has.1 ▸ rfl)).1
  cases this

end Lama

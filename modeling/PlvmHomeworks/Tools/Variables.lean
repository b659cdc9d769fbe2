import PlvmHomeworks.Tools.Messages
import PlvmHomeworks.Tools.Prologue

/-! Globals and locals: the bounds `load_location` checks, and those `loc` asserts.

    `load_location` compares an index with the number of globals, or with the depth it has counted,
    and lets an index through that equals it; a negative index passes too. -/

namespace Lama
open Outcome Worklist Runs

/-- An access the verifier looks at: the search of a body at `b` dequeued the instruction at `v` with
    this layout, and `l` is one of its locations. -/
def Visits (fuel : ℕ) (f : Bytefile) (r : Result ℤ Unit Bodies) (b v : ℤ) (layout : StackLayout)
    (l : LocationEntry) : Prop :=
  ∃ captured size r' inst next, ⟨b, captured⟩ ∈ r.state.all ∧
    searchFunction fuel f b captured = .ok (size, r') ∧ (v, layout) ∈ r'.log ∧
    readInst f v = .ok (inst, next) ∧ l ∈ inst.locations

/-- `G(i)` is one of the globals; `L(i)` is one of the locals of the function at `b`. -/
def InBounds (f : Bytefile) (b : ℤ) (l : LocationEntry) : Prop :=
  (l.location = some .global → 0 ≤ l.index ∧ l.index < f.globalAreaSize) ∧
    (l.location = some .local_ → ∀ locc, LocalsOf f b locc → 0 ≤ l.index ∧ l.index < locc)

/-- The accesses that slip through: a negative index, the global right after the last one, and an
    index that goes past the locals but not past the operands counted on top of them. -/
def Slips (f : Bytefile) (b depth : ℤ) (l : LocationEntry) : Prop :=
  (l.location = some .global ∧ (l.index < 0 ∨ l.index = f.globalAreaSize)) ∨
    (l.location = some .local_ ∧ ∃ locc, LocalsOf f b locc ∧
      (l.index < 0 ∨ locc ≤ l.index ∧ l.index ≤ depth))

variable {fuel : ℕ} {f : Bytefile} {ip : ℤ} {r : Result ℤ Unit Bodies}

/-- Every layout of a body search has the globals of the file. -/
theorem BodyVerified.globals {b captured size : ℤ} {r : Result ℤ StackLayout (List ℤ)}
    (h : BodyVerified f b captured size r) : ∀ e ∈ r.log, e.2.globals = f.globalAreaSize := by
  refine h.searched.payload_inv (P := fun _ layout => layout.globals = f.globalAreaSize) ?_ ?_
  · intro jumps u layout jumps' layout' ss hP hv s _
    obtain ⟨inst, next, -, hd, -, -⟩ := visitFunction_ok hv
    rw [(stackDepthFunctor_ok hd).2.1, hP]
  · simp [initialLayout]

/-- What `load_location` has checked of an access that the search of a body dequeued. -/
theorem BodyVerified.checked {b captured size v next : ℤ} {r : Result ℤ StackLayout (List ℤ)}
    {layout : StackLayout} {inst : Inst} {l : LocationEntry} (h : BodyVerified f b captured size r)
    (hv : (v, layout) ∈ r.log) (hi : readInst f v = .ok (inst, next)) (hl : l ∈ inst.locations) :
    (l.location = some .global → l.index ≤ f.globalAreaSize) ∧
      (l.location = some .local_ → l.index ≤ layout.locals) := by
  obtain ⟨inst', next', jumps, jumps', layout', hi', hd, -, -, -⟩ := h.logged hv
  rw [hi, Except.ok.injEq, Prod.mk.injEq] at hi'
  obtain ⟨rfl, -⟩ := hi'
  have hcheck := (stackDepthFunctor_ok hd).2.2.2.2 l hl
  exact ⟨fun hg => h.globals _ hv ▸ hcheck.1 hg, hcheck.2.1⟩

theorem inBounds_iff {b depth : ℤ} {l : LocationEntry}
    (hchecked : (l.location = some .global → l.index ≤ f.globalAreaSize) ∧
      (l.location = some .local_ → l.index ≤ depth)) :
    InBounds f b l ↔ ¬ Slips f b depth l := by
  constructor
  · rintro ⟨hglobal, hlocal⟩ (⟨hl, h⟩ | ⟨hl, locc, hlocc, h⟩)
    · have := hglobal hl; omega
    · have := hlocal hl locc hlocc; omega
  · intro h
    refine ⟨fun hl => ?_, fun hl locc hlocc => ?_⟩
    · have := hchecked.1 hl
      by_contra hc
      exact h (Or.inl ⟨hl, by omega⟩)
    · have := hchecked.2 hl
      by_contra hc
      exact h (Or.inr ⟨hl, locc, hlocc, by omega⟩)

theorem toSize_lt {a b : ℤ} (h0 : 0 ≤ a) (hab : a < b) (hb : IsInt b) : toSize a < toSize b := by
  unfold IsInt at hb
  unfold toSize
  omega

/-- What `load_location` has checked of a visited access. -/
theorem Accepted.checked (h : Accepted fuel f ip r) {b v : ℤ} {layout : StackLayout}
    {l : LocationEntry} (hv : Visits fuel f r b v layout l) :
    (l.location = some .global → l.index ≤ f.globalAreaSize) ∧
      (l.location = some .local_ → l.index ≤ layout.locals) := by
  obtain ⟨captured, size, r', inst, next, hmem, hs, hlog, hi, hl⟩ := hv
  obtain ⟨size', r'', hs', hbody⟩ := h.verified _ hmem
  rw [hs, Except.ok.injEq, Prod.mk.injEq] at hs'
  obtain ⟨rfl, rfl⟩ := hs'
  exact hbody.checked hlog hi hl

theorem LocalsOf.isInt {b locc : ℤ} (h : LocalsOf f b locc) : IsInt locc := by
  obtain ⟨a, n, h | h⟩ := h
  · exact (readInst_prologue_isInt h (Or.inl rfl)).2
  · exact (readInst_prologue_isInt h (Or.inr rfl)).2

/-- A frame inside its body makes only accesses the verifier visited. -/
theorem BodyAt.visits {b captured size v next : ℤ} {r' : Result ℤ StackLayout (List ℤ)} {inst : Inst}
    {l : LocationEntry} (h : BodyAt fuel f r b captured size r' v)
    (hi : readInst f v = .ok (inst, next)) (hl : l ∈ inst.locations) :
    ∃ layout, Visits fuel f r b v layout l := by
  obtain ⟨layout, hlog⟩ := h.verified.logged_of_visited h.visited
  exact ⟨layout, captured, size, r', inst, next, h.listed, h.searched, hlog, hi, hl⟩

/-- An access of a started frame that does not slip is inside the bounds `loc` asserts. -/
theorem Accepted.access_lt (hacc : Accepted fuel f ip r) {b captured size v next locc : ℤ}
    {r' : Result ℤ StackLayout (List ℤ)} {inst : Inst} {l : LocationEntry}
    (h : BodyAt fuel f r b captured size r' v)
    (hlocc : LocalsOf f b locc) (hgas : IsInt f.globalAreaSize)
    (hi : readInst f v = .ok (inst, next)) (hl : l ∈ inst.locations)
    (hslip : ∀ layout l, Visits fuel f r b v layout l → ¬ Slips f b layout.locals l) :
    (l.location = some .global → toSize l.index < toSize f.globalAreaSize) ∧
      (l.location = some .local_ → toSize l.index < toSize locc) := by
  obtain ⟨layout, hvisits⟩ := h.visits hi hl
  obtain ⟨hglobal, hlocal⟩ := (inBounds_iff (hacc.checked hvisits)).mpr (hslip layout l hvisits)
  refine ⟨fun hg => ?_, fun hlc => ?_⟩
  · exact toSize_lt (hglobal hg).1 (hglobal hg).2 hgas
  · exact toSize_lt (hlocal hlc locc hlocc).1 (hlocal hlc locc hlocc).2 hlocc.isInt

/-- In an accepted file a visited access of a global or a local is in bounds if and only if it is
    none of those that slip through. In a run whose frames stay inside their functions, no check of
    `loc` on a global or a local fails in an instruction that makes no such access. -/
theorem variables_in_bounds {fuel : ℕ} {garbage : ℤ → ℤ → ℤ} {bytes : List UInt8} {f : Bytefile}
    {ip : ℤ} (hload : loadProgram fuel garbage bytes = .ok (f, ip)) {es : List ℤ}
    {r : Result ℤ Unit Bodies} (hes : getEntrypoints f = .ok es)
    (hr : searchReachable fuel f es = .ok r) :
    (∀ b v layout l, Visits fuel f r b v layout l →
      (InBounds f b l ↔ ¬ Slips f b layout.locals l)) ∧
    ∀ im t t', (∃ inst next, readInst f ip = .ok (inst, next) ∧ inst.isPrologue = true) →
      t.Starts im f ip → Reach (Tracked.Step im f) (InBodyRun im f) t t' →
      ∀ inst next, t'.Executes f inst next →
        (∀ a as v, t'.frames = a :: as → t'.state.ip = some v →
          ∀ layout l, Visits fuel f r a.entry v layout l → ¬ Slips f a.entry layout.locals l) →
        ∀ e args, exec im e f t'.state inst ≠ .error (.fail globalText args) ∧
          exec im e f t'.state inst ≠ .error (.fail localText args) := by
  obtain ⟨es', r₁, hes', hr₁, hacc⟩ := accepted_of_loadProgram hload
  rw [hes, Except.ok.injEq] at hes'
  rw [← hes', hr, Except.ok.injEq] at hr₁
  rw [← hr₁] at hacc
  refine ⟨fun b v layout l hv => inBounds_iff (hacc.checked hv), ?_⟩
  intro im t t' hmain ht hrun inst next hexec hslips e args
  obtain ⟨hentry, hbody, -⟩ := bodyInv_reach hacc hmain ht hrun
  have hgas := (readFile_globals (readFile_of_loadProgram hload)).2
  have hcount : t'.state.globalsCount = toSize f.globalAreaSize :=
    (visitedInv_rules hacc).globalsCount (fun _ h => h.1) ht
      (FrameInv.holds_of_starts ht hacc.entry_visited)
      (hrun.mono (fun _ h => ⟨h.1, h.2.1⟩) fun _ _ => id)
  obtain ⟨v, hv, hi⟩ := hexec
  obtain ⟨a, as, has, hfresh, -, hok⟩ := hentry.current hv
  have hat : At f t' a v inst next := ⟨⟨as, has⟩, hv, hi, hfresh⟩
  -- the texts of every other check of the interpreter
  have hstops : Stops (valueTexts ++ [underflowText, argText, closureText, capturedText, kindText])
      (exec im e f t'.state inst) := by
    refine stops_exec (fun _ h => List.mem_append_left _ h) hentry.top_lt (Or.inl (by decide))
      fun l hl s' hs' => ?_
    have hstarted : a.fresh = false := by
      rw [Bool.eq_false_iff]
      intro hf
      obtain ⟨argc, locc, rfl | rfl⟩ := prologue_locals hi (hat.fresh_prologue hok hf).2 <;> cases hl
    obtain ⟨-, ⟨captured, size, r', hbodyAt⟩, locc, hlocc, hlocals⟩ := hbody.at hat hstarted
    obtain ⟨hglobal, hlocal⟩ := hacc.access_lt hbodyAt hlocc hgas hi hl (hslips a as v has hv)
    have hframe : s'.frame = t'.state.frame := by rw [State.frame, State.frame, hs'.cstack, hs'.ctop]
    refine stops_loc (fun h hn => ?_) (fun h hn => ?_) (fun _ _ => by decide) (fun _ _ => by decide)
      (fun _ _ => by decide) fun _ => by decide
    · rw [hs'.globalsCount, hcount] at hn
      exact absurd (hglobal h) hn
    · rw [hframe, hlocals] at hn
      exact absurd (hlocal h) hn
  exact ⟨fun h => absurd (hstops _ _ h) (by decide), fun h => absurd (hstops _ _ h) (by decide)⟩

/-- `BEGIN 0 0; LD G(0); END` in a file without globals. -/
def missingGlobal : List UInt8 := 82 :: intBytes 0 ++ intBytes 0 ++ 32 :: intBytes 0 ++ [22]

/-- The access is visited and out of bounds, and the check of `loc` fails on it. -/
theorem missingGlobal_fails :
    ∃ r t t', loadProgram 30 (fun _ _ => 0) (programBytes 0 missingGlobal) =
        .ok (program 0 missingGlobal, 0) ∧
      searchReachable 30 (program 0 missingGlobal) [0] = .ok r ∧
      (∃ layout, Visits 30 (program 0 missingGlobal) r 0 9 layout ⟨0, 0⟩) ∧
      ¬ InBounds (program 0 missingGlobal) 0 ⟨0, 0⟩ ∧
      t.Starts sampleImage (program 0 missingGlobal) 0 ∧
      Reach (Tracked.Step sampleImage (program 0 missingGlobal))
        (ClosureBuilt sampleImage (program 0 missingGlobal)) t t' ∧
      t'.Executes (program 0 missingGlobal) (.ld ⟨0, 0⟩) 14 ∧
      exec sampleImage sampleEnv (program 0 missingGlobal) t'.state (.ld ⟨0, 0⟩) =
        .error (.fail globalText [0, 0]) := by
  have hr : (searchReachable 30 (program 0 missingGlobal) [0]).map (·.state.all) =
      .ok [⟨0, -1⟩] := by decide +kernel
  have hs : (searchFunction 30 (program 0 missingGlobal) 0 (-1)).map
      (fun q => q.2.log.map Prod.fst) = .ok [0, 9, 14] := by decide +kernel
  have hrun : (Tracked.runFrom sampleImage (program 0 missingGlobal)
      (closureBuilt sampleImage (program 0 missingGlobal)) sampleHeap 0 [sampleEnv]).map
      (fun t => (t.fetch (program 0 missingGlobal),
        (exec sampleImage sampleEnv (program 0 missingGlobal) t.state (.ld ⟨0, 0⟩)).map fun _ => ())) =
        .ok (some (.ld ⟨0, 0⟩, 14), .error (.fail globalText [0, 0])) := by decide +kernel
  obtain ⟨r, hr, hall⟩ := exists_of_map_eq_ok hr
  obtain ⟨⟨size, r'⟩, hs, hlog⟩ := exists_of_map_eq_ok hs
  obtain ⟨t, t', ht, hreach, hobs⟩ := Tracked.exists_reach (fun _ => closureBuilt_iff) hrun
  rw [Prod.mk.injEq] at hobs
  obtain ⟨⟨v, layout⟩, hmem, rfl⟩ := List.mem_map.mp
    (show (9 : ℤ) ∈ r'.log.map Prod.fst by rw [show r'.log.map Prod.fst = _ from hlog]; decide)
  refine ⟨r, t, t', by decide +kernel, hr, ?_, ?_, ht, hreach, Tracked.executes_iff.mpr hobs.1, ?_⟩
  · exact ⟨layout, -1, size, r', .ld ⟨0, 0⟩, 14, by rw [hall]; decide, hs, hmem, by decide +kernel,
      by decide⟩
  · rintro ⟨hglobal, -⟩
    exact absurd (hglobal rfl).2 (by decide)
  · have herr := hobs.2
    cases hx : exec sampleImage sampleEnv (program 0 missingGlobal) t'.state (.ld ⟨0, 0⟩) with
    | ok q => rw [hx] at herr; cases herr
    | error x => rw [hx] at herr; cases herr; rfl

/-- The store of `decideThenCall` is in bounds, and `loc` does not stop the run at it. -/
theorem variables_in_bounds_decideThenCall :
    ∃ r t t', searchReachable 90 (program 0 decideThenCall) [0] = .ok r ∧
      (∃ layout, Visits 90 (program 0 decideThenCall) r 69 83 layout ⟨1, 0⟩ ∧
        ¬ Slips (program 0 decideThenCall) 69 layout.locals ⟨1, 0⟩) ∧
      t.Starts sampleImage (program 0 decideThenCall) 0 ∧
      Reach (Tracked.Step sampleImage (program 0 decideThenCall))
        (InBodyRun sampleImage (program 0 decideThenCall)) t t' ∧
      t'.Executes (program 0 decideThenCall) (.st ⟨1, 0⟩) 88 ∧
      ∀ e args, exec sampleImage e (program 0 decideThenCall) t'.state (.st ⟨1, 0⟩) ≠
          .error (.fail globalText args) ∧
        exec sampleImage e (program 0 decideThenCall) t'.state (.st ⟨1, 0⟩) ≠
          .error (.fail localText args) := by
  have hr : (searchReachable 90 (program 0 decideThenCall) [0]).map (·.state.all) =
      .ok [⟨0, -1⟩, ⟨69, -1⟩, ⟨54, 0⟩] := by decide +kernel
  have hs : (searchFunction 90 (program 0 decideThenCall) 69 (-1)).map
      (fun q => q.2.log.map Prod.fst) = .ok [69, 78, 83, 88] := by decide +kernel
  have hrun : (Tracked.runFrom sampleImage (program 0 decideThenCall)
      (inBodyRun sampleImage (program 0 decideThenCall)) sampleHeap 0 (List.replicate 11 sampleEnv)).map
      (fun t => (t.fetch (program 0 decideThenCall), t.state.ip, t.frames.head?.map (·.entry))) =
        .ok (some (.st ⟨1, 0⟩, 88), some 83, some 69) := by decide +kernel
  have hload : loadProgram 90 (fun _ _ => 69) (programBytes 0 decideThenCall) =
      .ok (program 0 decideThenCall, 0) := by decide +kernel
  have hes : getEntrypoints (program 0 decideThenCall) = .ok [0] := by decide +kernel
  have hstore : readInst (program 0 decideThenCall) 83 = .ok (.st ⟨1, 0⟩, 88) := by decide +kernel
  have hentry : readInst (program 0 decideThenCall) 69 = .ok (.begin 0 1, 78) := by decide +kernel
  obtain ⟨r, hr, hall⟩ := exists_of_map_eq_ok hr
  obtain ⟨⟨size, r'⟩, hs, hlog⟩ := exists_of_map_eq_ok hs
  obtain ⟨t, t', ht, hreach, hobs⟩ := Tracked.exists_reach (fun _ => inBodyRun_iff) hrun
  simp only [Prod.mk.injEq] at hobs
  obtain ⟨hfetch, hip, hhead⟩ := hobs
  have hexec := Tracked.executes_iff.mpr hfetch
  obtain ⟨hslips, hbounds⟩ := variables_in_bounds hload hes hr
  have hin : InBounds (program 0 decideThenCall) 69 ⟨1, 0⟩ := by
    refine ⟨fun h => absurd h (by decide), fun _ locc hlocc => ?_⟩
    obtain ⟨argc, next, h | h⟩ := hlocc <;> rw [hentry] at h <;> cases h
    exact ⟨le_rfl, Int.zero_lt_one⟩
  obtain ⟨⟨v, layout⟩, hmem, rfl⟩ := List.mem_map.mp
    (show (83 : ℤ) ∈ r'.log.map Prod.fst by rw [show r'.log.map Prod.fst = _ from hlog]; decide)
  have hvisits : Visits 90 (program 0 decideThenCall) r 69 83 layout ⟨1, 0⟩ :=
    ⟨-1, size, r', _, _, by rw [hall]; decide, hs, hmem, hstore, List.mem_cons_self⟩
  refine ⟨r, t, t', hr, ⟨layout, hvisits, (hslips _ _ _ _ hvisits).mp hin⟩, ht, hreach, hexec, ?_⟩
  refine hbounds sampleImage t t' ⟨.begin 0 1, 9, by decide +kernel, rfl⟩ ht hreach _ _ hexec ?_
  intro a as v has hv layout' l hl
  rw [has, List.head?_cons, Option.map_some, Option.some.injEq] at hhead
  rw [hip, Option.some.injEq] at hv
  subst hv
  rw [hhead] at hl ⊢
  obtain ⟨-, -, -, inst, next, -, -, -, hi, hmem'⟩ := id hl
  rw [hstore] at hi
  cases hi
  cases List.mem_singleton.mp hmem'
  exact (hslips _ _ _ _ hl).mp hin

end Lama

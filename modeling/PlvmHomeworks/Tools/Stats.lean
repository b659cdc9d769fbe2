import PlvmHomeworks.Lib.Runs
import PlvmHomeworks.Tools.Contained
import PlvmHomeworks.Tools.Grammar

/-! `mark_reachable_instructions` of `bcstats.cpp`: the instructions that the public symbols lead to.

    It is a search like the verifier's first one, without anything to do per instruction. Its bitmap
    is the list of the addresses that are set. -/

namespace Lama
open Outcome Worklist Runs

/-- One turn of the search. -/
def visitMark (f : Bytefile) (_ : Unit) (ip : ℤ) (_ : Unit) : Except Stop (Unit × Unit × List ℤ) := do
  let (inst, next) ← readInst f ip
  let successors := successorsFunctor next inst
  checkIndices f successors
  return ((), (), successors)

/-- `mark_reachable_instructions`. -/
def markReachableInstructions (fuel : ℕ) (f : Bytefile) (entrypoints : List ℤ) :
    Except Stop (List ℤ) := do
  -- a negative size makes the constructor of the bitmap throw
  ensure (0 ≤ getCodeSize f) (.uncaught "std::length_error")
  checkIndices f entrypoints
  let r ← search (visitMark f) .outOfFuel fuel () entrypoints (entrypoints.map fun e => (e, ()))
  return r.visited

/-- `SuccessorsFunctor` leads from `ip` to `s`. -/
def Succeeds (f : Bytefile) (ip s : ℤ) : Prop :=
  ∃ inst next, readInst f ip = .ok (inst, next) ∧ s ∈ successorsFunctor next inst

/-- The addresses that finite paths from the entry points end at. -/
def EntryReachable (f : Bytefile) (entrypoints : List ℤ) : Set ℤ :=
  Reachable (Succeeds f) {e | e ∈ entrypoints}

/-- The instruction at `ip` decodes, and its successors are inside the code section. -/
def Proceeds (f : Bytefile) (ip : ℤ) : Prop :=
  ∃ inst next, readInst f ip = .ok (inst, next) ∧ ∀ s ∈ successorsFunctor next inst, CodeIndex f s

variable {f : Bytefile} {es : List ℤ} {fuel : ℕ} {ip : ℤ} {u u' p p' : Unit} {ss : List ℤ}

/-- What the decoder reads starts in the code section. -/
theorem codeIndex_of_readInst {inst : Inst} {next : ℤ} (hf : CodePlaced f)
    (hi : readInst f ip = .ok (inst, next)) : CodeIndex f ip := by
  obtain ⟨⟨x, mid⟩, hx, -⟩ := bind_eq_ok.mp hi
  obtain ⟨_, hread, -⟩ := bind_eq_ok.mp hx
  exact codeIndex_of_assertCanRead hf hread (Int.le_refl ip) (by omega)

theorem visitMark_ok : visitMark f u ip p = .ok (u', p', ss) ↔
    ∃ inst next, readInst f ip = .ok (inst, next) ∧ ss = successorsFunctor next inst ∧
      ∀ s ∈ ss, CodeIndex f s := by
  constructor
  · intro h
    obtain ⟨⟨inst, next⟩, hi, h⟩ := bind_eq_ok.mp h
    obtain ⟨_, hc, h⟩ := bind_eq_ok.mp h
    cases h
    exact ⟨inst, next, hi, rfl, checkIndices_eq_ok.mp hc⟩
  · rintro ⟨inst, next, hi, rfl, hss⟩
    rw [visitMark, hi, ok_bind]
    simp only [checkIndices_eq_ok.mpr hss, ok_bind]
    rfl

/-- What a turn hands on is reachable when its instruction is. -/
theorem visitMark_marked (hip : ip ∈ EntryReachable f es) (h : visitMark f u ip p = .ok (u', p', ss)) :
    ∀ s ∈ ss, s ∈ EntryReachable f es := by
  obtain ⟨inst, next, hi, rfl, -⟩ := visitMark_ok.mp h
  exact fun s hs => closed_reachable ip hip s ⟨inst, next, hi, hs⟩

/-- A search that came to its end has marked the reachable addresses and no others. -/
theorem marked_iff_of_searches {r : Result ℤ Unit Unit}
    (h : Searches (visitMark f) () es (es.map fun e => (e, ())) r) (o : ℤ) :
    o ∈ r.visited ↔ o ∈ EntryReachable f es := by
  have hentry : ∀ e ∈ es, (e, ()) ∈ r.log := fun e he =>
    h.queue_logged (e, ()) (List.mem_map.mpr ⟨e, he, rfl⟩)
  have hlogged : ∀ v ∈ r.visited, (v, ()) ∈ r.log := by
    intro v hv
    rcases h.visited_logged v hv with he | ⟨⟨⟩, hlog⟩
    · exact hentry v he
    · exact hlog
  constructor
  · intro ho
    refine h.payload_inv (P := fun v _ => v ∈ EntryReachable f es)
      (fun _ _ _ _ _ _ hv hturn => visitMark_marked hv hturn) ?_ _ (hlogged o ho)
    rintro e he
    obtain ⟨v, hv, rfl⟩ := List.mem_map.mp he
    exact subset_reachable hv
  · have hclosed : Closed (Succeeds f) {v | v ∈ r.visited} := by
      rintro v hv s ⟨inst, next, hi, hs⟩
      obtain ⟨_, _, _, ss, hturn, hss, -⟩ := h.processed (R := fun _ _ => True) (fun _ => trivial)
        (fun _ _ _ _ _ => trivial) (fun _ _ _ _ _ _ _ => trivial) _ (hlogged v hv)
      obtain ⟨inst', next', hi', rfl, -⟩ := visitMark_ok.mp hturn
      rw [hi] at hi'
      cases hi'
      exact hss s hs
    exact fun ho => hclosed.reachable_subset (fun e he => h.visited_mono e he) ho

/-- What `mark_reachable_instructions` returns is exact. -/
theorem markReachableInstructions_ok {marked : List ℤ}
    (h : markReachableInstructions fuel f es = .ok marked) (o : ℤ) :
    o ∈ marked ↔ o ∈ EntryReachable f es := by
  obtain ⟨_, -, h⟩ := bind_eq_ok.mp h
  obtain ⟨_, -, h⟩ := bind_eq_ok.mp h
  obtain ⟨r, hr, h⟩ := bind_eq_ok.mp h
  cases h
  exact marked_iff_of_searches (searches_of_search hr) o

/-- With fuel for the entry points and the code, and when every reachable instruction proceeds, the
    search comes to its end. -/
theorem search_marks (hfuel : es.length + (getCodeSize f).toNat ≤ fuel)
    (h : ∀ o ∈ EntryReachable f es, Proceeds f o) :
    ∃ r, search (visitMark f) .outOfFuel fuel () es (es.map fun e => (e, ())) = .ok r := by
  have herr : ErrorsIn (fun _ : Stop => False)
      (search (visitMark f) .outOfFuel fuel () es (es.map fun e => (e, ()))) := by
    have hin : ∀ s u p s' p' ss, visitMark f s u p = .ok (s', p', ss) →
        ∀ v ∈ ss, v ∈ Finset.Ico 0 (getCodeSize f) := by
      intro _ _ _ _ _ _ hturn v hv
      obtain ⟨_, _, -, -, hss⟩ := visitMark_ok.mp hturn
      exact Finset.mem_Ico.mpr (hss v hv)
    refine (search_errorsIn hin (entries_measure hfuel)).mpr fun s v q hvisits => ?_
    have hv : v ∈ EntryReachable f es := by
      refine hvisits.payload_inv (P := fun v _ => v ∈ EntryReachable f es)
        (fun _ _ _ _ _ _ hv hturn => visitMark_marked hv hturn) ?_
      rintro e he
      obtain ⟨w, hw, rfl⟩ := List.mem_map.mp he
      exact subset_reachable hw
    obtain ⟨inst, next, hi, hss⟩ := h v hv
    have hturn : visitMark f s v q = .ok ((), (), successorsFunctor next inst) :=
      visitMark_ok.mpr ⟨inst, next, hi, rfl, hss⟩
    rw [hturn]
    exact errorsIn_ok
  cases hs : search (visitMark f) .outOfFuel fuel () es (es.map fun e => (e, ())) with
  | error e => exact (herr e hs).elim
  | ok r => exact ⟨r, rfl⟩

/-- It returns where every reachable instruction proceeds: the entry points are in the code section
    because they decode. -/
theorem markReachableInstructions_of (hf : CodePlaced f) (h : ∀ o ∈ EntryReachable f es, Proceeds f o)
    (hfuel : es.length + (getCodeSize f).toNat ≤ fuel) :
    ∃ marked, markReachableInstructions fuel f es = .ok marked := by
  have hentries : ∀ e ∈ es, CodeIndex f e := by
    intro e he
    obtain ⟨inst, next, hi, -⟩ := h e (subset_reachable he)
    exact codeIndex_of_readInst hf hi
  obtain ⟨r, hr⟩ := search_marks hfuel h
  refine ⟨r.visited, ?_⟩
  rw [markReachableInstructions, ensure_of hf.code_nonneg, ok_bind, checkIndices_eq_ok.mpr hentries,
    ok_bind, hr]
  rfl

/-- Where every reachable instruction decodes and has its successors in the code section,
    `mark_reachable_instructions` ends and marks exactly the addresses that finite paths from the
    entry points lead to. -/
theorem marks_exactly (hf : CodePlaced f) (h : ∀ o ∈ EntryReachable f es, Proceeds f o)
    (hfuel : es.length + (getCodeSize f).toNat ≤ fuel) : ∃ marked,
      markReachableInstructions fuel f es = .ok marked ∧ ∀ o, o ∈ marked ↔ o ∈ EntryReachable f es := by
  obtain ⟨marked, hok⟩ := markReachableInstructions_of hf h hfuel
  exact ⟨marked, hok, markReachableInstructions_ok hok⟩

/-- The addresses in `l` hold instructions whose successors are in `l` again. -/
def closedIn (f : Bytefile) (l : List ℤ) : Bool :=
  l.all fun o => match readInst f o with
    | .ok (inst, next) => (successorsFunctor next inst).all fun s => decide (s ∈ l)
    | .error _ => false

/-- Such a list that has the entry points has every reachable address. -/
theorem mem_of_closedIn {l : List ℤ} (h : closedIn f l = true) (hes : ∀ e ∈ es, e ∈ l) {o : ℤ}
    (ho : o ∈ EntryReachable f es) : ∃ inst next, o ∈ l ∧ readInst f o = .ok (inst, next) ∧
      ∀ s ∈ successorsFunctor next inst, s ∈ l := by
  have hread : ∀ o ∈ l, ∃ inst next, readInst f o = .ok (inst, next) ∧
      ∀ s ∈ successorsFunctor next inst, s ∈ l := by
    intro o ho
    have hcheck := List.all_eq_true.mp h o ho
    split at hcheck
    · rename_i inst next hi
      exact ⟨inst, next, hi, fun s hs => of_decide_eq_true (List.all_eq_true.mp hcheck s hs)⟩
    · cases hcheck
  have hclosed : Closed (Succeeds f) {o | o ∈ l} := by
    rintro v hv s ⟨inst, next, hi, hs⟩
    obtain ⟨inst', next', hi', hall⟩ := hread v hv
    rw [hi] at hi'
    cases hi'
    exact hall s hs
  have hmem : o ∈ l := hclosed.reachable_subset hes ho
  obtain ⟨inst, next, hi, hall⟩ := hread o hmem
  exact ⟨inst, next, hmem, hi, hall⟩

/-- `BEGIN 0 0; CJMPz 19; JMP 9; END`: a loop and the way out of it. -/
def loopCode : List UInt8 :=
  82 :: intBytes 0 ++ intBytes 0 ++ 80 :: intBytes 19 ++ 21 :: intBytes 9 ++ [22]

theorem marks_exactly_loopCode :
    ∃ marked, markReachableInstructions 21 (program 0 loopCode) [0] = .ok marked ∧
      ∀ o, o ∈ marked ↔ o ∈ EntryReachable (program 0 loopCode) [0] := by
  refine marks_exactly ⟨by decide, by decide, by decide, by decide⟩ (fun o ho => ?_) (by decide)
  obtain ⟨inst, next, -, hi, hss⟩ :=
    mem_of_closedIn (l := [0, 9, 14, 19]) (by decide +kernel) (by decide) ho
  refine ⟨inst, next, hi, fun s hs => ?_⟩
  have hin : ∀ s ∈ [0, 9, 14, 19], CodeIndex (program 0 loopCode) s := by decide
  exact hin s (hss s hs)

end Lama

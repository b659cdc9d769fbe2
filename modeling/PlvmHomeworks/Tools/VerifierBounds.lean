import PlvmHomeworks.Tools.Calls
import PlvmHomeworks.Tools.Contained
import PlvmHomeworks.Tools.ControlFlow

/-! The verifier on a whole file: exactly when all of its accesses are inside the code section. -/

namespace Lama
open Outcome Worklist Relation

/-- The search of the file comes to visit `ip`. -/
def SearchVisits (f : Bytefile) (es : List ℤ) (ip : ℤ) : Prop :=
  ∃ bodies, Worklist.Visits (visitReachable f) ⟨es, []⟩ es (es.map fun e => (e, ())) bodies ip ()

/-- The search starts at code, and each of its turns leads to code. -/
structure SearchContained (f : Bytefile) (es : List ℤ) : Prop where
  size : 0 ≤ getCodeSize f
  entries : ∀ e ∈ es, CodeIndex f e
  turns : ∀ ip, SearchVisits f es ip → TurnContained f ip

/-- The search of the file comes to its end and has found these bodies. -/
def FindsBodies (f : Bytefile) (es : List ℤ) (bodies : List ClosureEntry) : Prop :=
  ∃ r, Searches (visitReachable f) ⟨es, []⟩ es (es.map fun e => (e, ())) r ∧ r.state.all = bodies

/-- The size of a body that ends at `e`, as `verify_function` counts it. -/
def functionSize (begin e : ℤ) : ℤ := if begin = e then 2 else e - begin + 1

/-- `verify_function` lets the body pass: it is scanned to an `END`, searched through, and its jumps
    stay inside. -/
def BodyPasses (f : Bytefile) (body : ClosureEntry) : Prop :=
  ∃ e r, Scan f body.offset e ∧
    Searches (visitFunction f body.offset (functionSize body.offset e)) [] [body.offset]
      [(body.offset, initialLayout f body.captured (decide (body.captured ≥ 0)))] r ∧
    ∀ t ∈ r.state, body.offset ≤ t ∧ t ≤ body.offset + functionSize body.offset e

theorem BodyPasses.scanned {f : Bytefile} {body : ClosureEntry} (h : BodyPasses f body) :
    ∃ e, Scan f body.offset e := by
  obtain ⟨e, r, he, -⟩ := h
  exact ⟨e, he⟩

/-- The scans of the bodies stay inside, up to the first body that does not pass. -/
def BodiesContained (f : Bytefile) : List ClosureEntry → Prop
  | [] => True
  | body :: bodies => ScanContained f body.offset ∧ (BodyPasses f body → BodiesContained f bodies)

/-- `min_args_count` behind the last body: its entries are all 0. -/
def minArgsCounts (bodies : List ClosureEntry) : List (ℤ × ℤ) :=
  (bodies.map fun body => (body.offset, 0)).reverse

/-- The size of a body that ends at `e`, as `verify_calls` counts it. -/
def callsSize (begin e : ℤ) : ℤ := if e = begin then 1 else e - begin

/-- `verify_calls` on the body at `begin` comes to visit `ip`. -/
def CallsVisits (garbage : ℤ → ℤ → ℤ) (f : Bytefile) (found : List ClosureEntry) (begin ip : ℤ) : Prop :=
  ∃ e jumps layout, Scan f begin e ∧
    Worklist.Visits (visitCalls f begin (callsSize begin e) (garbage begin) (minArgsCounts found)) []
      [begin] [(begin, initialLayout f 0 false)] jumps ip layout

/-- `verify_calls` lets the body at `begin` pass. -/
def CallsPassed (garbage : ℤ → ℤ → ℤ) (f : Bytefile) (found : List ClosureEntry) (begin : ℤ) : Prop :=
  ∃ e r, Scan f begin e ∧
    Searches (visitCalls f begin (callsSize begin e) (garbage begin) (minArgsCounts found)) []
      [begin] [(begin, initialLayout f 0 false)] r

/-- The word that `verify_calls` looks up at a `CALL` is the address of a body. -/
def CallFound (f : Bytefile) (found : List ClosureEntry) (word ip : ℤ) : Prop :=
  ∀ ret offset argc next, readInst f ip = .ok (.call ret offset argc, next) →
    ∃ body ∈ found, body.offset = word

/-- Every `CALL` that `verify_calls` comes to finds its entry, up to the first body that does not
    pass. -/
def CallsContained (garbage : ℤ → ℤ → ℤ) (f : Bytefile) (found : List ClosureEntry) :
    List ClosureEntry → Prop
  | [] => True
  | body :: bodies =>
    (∀ ip, CallsVisits garbage f found body.offset ip →
      CallFound f found (garbage body.offset ip) ip) ∧
    (CallsPassed garbage f found body.offset → CallsContained garbage f found bodies)

/-- The publics that `get_entrypoints` reads are in the file, up to the first that fails. -/
def TableContained (f : Bytefile) : Prop :=
  ∀ pre i post, List.range f.publicSymbolsNumber.toNat = pre ++ i :: post →
    (∀ j : ℕ, j ∈ pre → ∃ o, getPublicOffset f j = .ok o) → 20 + 8 * i ≤ f.bytes.length

theorem lookup_minArgsCounts {found : List ClosureEntry} {key : ℤ} :
    (minArgsCounts found).lookup key ≠ none ↔ ∃ body ∈ found, body.offset = key := by
  rw [← Option.isSome_iff_ne_none, List.lookup_isSome_iff]
  constructor
  · rintro ⟨p, hp, hkey⟩
    obtain ⟨body, hbody, rfl⟩ := List.mem_map.mp (List.mem_reverse.mp hp)
    exact ⟨body, hbody, (beq_iff_eq.mp hkey).symm⟩
  · rintro ⟨body, hbody, rfl⟩
    exact ⟨(body.offset, 0), List.mem_reverse.mpr (List.mem_map.mpr ⟨body, hbody, rfl⟩),
      beq_self_eq_true _⟩

/-- The scan of `verify_calls` passes the instructions that the scan of `verify_function` passed. -/
theorem scanCalls_of_scan {g : Bytefile} {begin : ℤ} {ip e : ℤ} (h : Scan g ip e) :
    ∀ {fuel : ℕ} (size : ℤ), e - ip < fuel →
      scanCalls g begin fuel ip size = .ok (if e = ip then size else e - begin) := by
  induction h with
  | @done e he =>
    rintro (_ | fuel) size hfuel
    · omega
    · rw [scanCalls, he, ok_bind, if_pos rfl, if_pos rfl, pure_eq_ok]
  | @step a b e x y inst hx hend hi hy hp hs ih =>
    have hlt := (readInst_lt hi).2.1
    have hle := hs.le
    rintro (_ | fuel) size hfuel
    · omega
    · have hrest := @ih fuel (b - begin) (by push_cast at hfuel; omega)
      rw [scanCalls, hx, ok_bind, if_neg hend, hi, ok_bind, if_neg (by omega)]
      refine hrest.trans (congrArg Except.ok ?_)
      split
      · omega
      · rfl

/-- Where `verify_calls` looks in a scanned body. -/
theorem codeIndex_of_callsBody {f : Bytefile} {begin e ip : ℤ} (hbegin : CodeIndex f begin)
    (he : CodeIndex f e)
    (hip : ip ∈ Finset.Ico begin (begin + callsSize begin e)) : CodeIndex f ip := by
  obtain ⟨h1, h2⟩ := Finset.mem_Ico.mp hip
  unfold callsSize at h2
  unfold CodeIndex at *
  split at h2 <;> omega

theorem visitCalls_successors {g : Bytefile} {begin size : ℤ} {key : ℤ → ℤ} {m : List (ℤ × ℤ)}
    {jumps jumps' ss : List ℤ} {ip : ℤ} {layout layout' : StackLayout}
    (h : visitCalls g begin size key m jumps ip layout = .ok (jumps', layout', ss)) :
    ∀ s ∈ ss, s ∈ Finset.Ico begin (begin + size) := by
  have rest : (readInst g ip >>= fun r => stackDepthFunctor jumps layout r.1 >>= fun d =>
      (.ok (d.1, d.2, inBody begin size (successorsFunctor r.2 r.1)) : Except Stop _)) =
        .ok (jumps', layout', ss) → ∀ s ∈ ss, s ∈ Finset.Ico begin (begin + size) := by
    intro h s hs
    obtain ⟨r, -, h⟩ := bind_eq_ok.mp h
    obtain ⟨d, -, h⟩ := bind_eq_ok.mp h
    cases h
    exact mem_inBody hs
  obtain ⟨x, -, h⟩ := bind_eq_ok.mp h
  split at h
  · obtain ⟨r, -, h⟩ := bind_eq_ok.mp h
    obtain ⟨n, -, h⟩ := bind_eq_ok.mp h
    obtain ⟨u, -, h⟩ := bind_eq_ok.mp h
    exact rest h
  · exact rest h

/-- With fuel for the entry points and the code, the search that stays inside comes to its end just when
    it has a run that does. -/
theorem searchReachable_iff_findsBodies {f : Bytefile} {fuel : ℕ} {es : List ℤ} {bodies : List ClosureEntry}
    (hfuel : es.length + (getCodeSize f).toNat ≤ fuel) (h : SearchContained f es) :
    (∃ r, searchReachable fuel f es = .ok r ∧ r.state.all = bodies) ↔ FindsBodies f es bodies := by
  have hstart : searchReachable fuel f es = search (visitReachable f) .outOfFuel fuel ⟨es, []⟩ es
      (es.map fun e => (e, ())) := by
    rw [searchReachable, ensure_of h.size, ok_bind, checkIndices_eq_ok.mpr h.entries, ok_bind]
  rw [hstart]
  constructor
  · rintro ⟨r, hr, hbodies⟩
    exact ⟨r, searches_of_search hr, hbodies⟩
  · rintro ⟨r, hr, hbodies⟩
    refine ⟨r, hr.search_eq (U := Finset.Ico 0 (getCodeSize f)) (fun _ _ _ _ _ _ hv s hs => ?_)
      (entries_measure hfuel), hbodies⟩
    exact Finset.mem_Ico.mpr (visitReachable_successors hv s hs)

section
variable {f : Bytefile} (hf : CodePlaced f)
include hf

theorem searchReachable_errorsIn {fuel : ℕ} {es : List ℤ}
    (hfuel : es.length + (getCodeSize f).toNat ≤ fuel) :
    ErrorsIn Stop.IsFail (searchReachable fuel f.codeOnly es) ↔ SearchContained f es := by
  have hsearch : ErrorsIn Stop.IsFail (search (visitReachable f.codeOnly) .outOfFuel fuel ⟨es, []⟩ es
      (es.map fun e => (e, ()))) ↔ ∀ ip, SearchVisits f es ip → TurnContained f ip := by
    rw [search_errorsIn (U := Finset.Ico 0 (getCodeSize f)) (fun s u p s' p' ss hv v hmem => ?_)
      (entries_measure hfuel)]
    · constructor
      · rintro h ip ⟨bodies, hv⟩
        have turns : ∀ s u p, Worklist.Visits (visitReachable f.codeOnly) ⟨es, []⟩ es
            (es.map fun e => (e, ())) s u p → TurnContained f u :=
          fun s u p hs => (visitReachable_errorsIn hf s u).mp (h s u p hs)
        exact turns _ _ _ (Worklist.Visits.congr (Q := fun u _ => TurnContained f u)
          (fun s u p hu => visitReachable_codeOnly hf s p hu) turns hv)
      · intro h s u p hv
        have turns : ∀ s u p, Worklist.Visits (visitReachable f) ⟨es, []⟩ es (es.map fun e => (e, ())) s u p →
            TurnContained f u := fun s u p hs => h u ⟨s, hs⟩
        exact (visitReachable_errorsIn hf s u).mpr (turns _ _ _
          (Worklist.Visits.congr (Q := fun u _ => TurnContained f u)
            (fun s u p hu => (visitReachable_codeOnly hf s p hu).symm) turns hv))
    · exact Finset.mem_Ico.mpr (CodeIndex.codeOnly_iff.mp (visitReachable_successors hv v hmem))
  rw [searchReachable, errorsIn_bind, errorsIn_ensure, getCodeSize_codeOnly]
  constructor
  · rintro ⟨-, h⟩
    have hsize := hf.code_nonneg
    have h := errorsIn_bind.mp (h () (ensure_eq_ok.mpr hsize))
    rw [checkIndices_codeOnly, checkIndices_errorsIn] at h
    exact ⟨hsize, h.1, hsearch.mp (h.2 () (checkIndices_eq_ok.mpr h.1))⟩
  · intro h
    refine ⟨fun hs => absurd h.size hs, fun _ _ => errorsIn_bind.mpr ⟨?_, fun _ _ => ?_⟩⟩
    · rw [checkIndices_codeOnly]
      exact checkIndices_errorsIn.mpr h.entries
    · exact hsearch.mpr h.turns

theorem searchReachable_codeOnly {fuel : ℕ} {es : List ℤ} (h : SearchContained f es) :
    searchReachable fuel f.codeOnly es = searchReachable fuel f es := by
  have hsearch : search (visitReachable f) .outOfFuel fuel ⟨es, []⟩ es (es.map fun e => (e, ())) =
      search (visitReachable f.codeOnly) .outOfFuel fuel ⟨es, []⟩ es (es.map fun e => (e, ())) :=
    search_congr fun s u p hv => (visitReachable_codeOnly hf s p (h.turns u ⟨s, hv⟩)).symm
  simp only [searchReachable, getCodeSize_codeOnly, checkIndices_codeOnly, hsearch]

/-! ### The bodies -/

/-- With fuel for the code, `verify_function` returns for the bodies that have a run to let them pass. -/
theorem verifyFunction_iff_bodyPasses {fuel : ℕ} {body : ClosureEntry} (hbody : CodeIndex f body.offset)
    (hfuel : getCodeSize f + 2 ≤ fuel) :
    (∃ args, verifyFunction fuel f body.offset body.captured = .ok args) ↔ BodyPasses f body := by
  have hscanned : ∀ {e}, Scan f body.offset e →
      scanFunction f body.offset fuel body.offset 2 = .ok (functionSize body.offset e) ∧
        functionSize body.offset e + 1 ≤ fuel := by
    intro e he
    have hle : e - body.offset + 1 ≤ getCodeSize f + 1 := he.size_le hf hbody (Or.inr rfl)
    have hnonneg : 0 < getCodeSize f := by unfold CodeIndex at hbody; omega
    refine ⟨scanFunction_of_scan he (by omega), ?_⟩
    unfold functionSize
    split <;> omega
  constructor
  · rintro ⟨args, h⟩
    obtain ⟨⟨size, r⟩, hsearch, h⟩ := bind_eq_ok.mp h
    obtain ⟨u, hjumps, -⟩ := bind_eq_ok.mp h
    obtain ⟨size', hscan, hsearch⟩ := bind_eq_ok.mp hsearch
    obtain ⟨r', hr, hsearch⟩ := bind_eq_ok.mp hsearch
    cases hsearch
    obtain ⟨e, he, -⟩ := scan_of_scanFunction hscan
    obtain rfl : size = functionSize body.offset e := Except.ok.inj (hscan.symm.trans (hscanned he).1)
    exact ⟨e, r, he, searches_of_search hr, checkJumps_ok hjumps⟩
  · rintro ⟨e, r, he, hr, hjumps⟩
    obtain ⟨hscan, hsize⟩ := hscanned he
    have hmeasure : 1 + (Finset.Ico body.offset (body.offset + functionSize body.offset e) \
        [body.offset].toFinset).card ≤ fuel := body_measure (by have := hf.code_nonneg; omega) hsize
    refine ⟨_, bind_eq_ok.mpr ⟨(_, r), ?_, bind_eq_ok.mpr ⟨(), checkJumps_of hjumps, rfl⟩⟩⟩
    exact bind_eq_ok.mpr ⟨_, hscan, bind_eq_ok.mpr
      ⟨r, hr.search_eq (fun _ _ _ _ _ _ => visitFunction_successors) hmeasure, rfl⟩⟩

theorem verifyBodies_errorsIn {fuel : ℕ} (hfuel : getCodeSize f + 2 ≤ fuel) :
    ∀ {bodies : List ClosureEntry} {m : List (ℤ × ℤ)}, (∀ b ∈ bodies, CodeIndex f b.offset) →
      (ErrorsIn Stop.IsFail (verifyBodies fuel f.codeOnly bodies m) ↔ BodiesContained f bodies)
  | [], m, _ => iff_of_true errorsIn_ok trivial
  | body :: bodies, m, h => by
    have hbody := h body List.mem_cons_self
    rw [verifyBodies, errorsIn_bind, verifyFunction_errorsIn hf _ hbody hfuel, BodiesContained,
      ← verifyFunction_iff_bodyPasses hf hbody hfuel]
    refine and_congr_right fun hscan => ?_
    rw [verifyFunction_codeOnly hf _ hbody hscan]
    have ih : ∀ args, _ := fun args => verifyBodies_errorsIn hfuel
      (m := (body.offset, args) :: m) fun b (hb : b ∈ bodies) => h b (List.mem_cons_of_mem _ hb)
    constructor
    · rintro hall ⟨args, hargs⟩
      exact (ih args).mp (hall args hargs)
    · exact fun hrest args hargs => (ih args).mpr (hrest ⟨args, hargs⟩)

theorem verifyBodies_codeOnly {fuel : ℕ} (hfuel : getCodeSize f + 2 ≤ fuel) :
    ∀ {bodies : List ClosureEntry} {m : List (ℤ × ℤ)}, (∀ b ∈ bodies, CodeIndex f b.offset) →
      BodiesContained f bodies → verifyBodies fuel f.codeOnly bodies m = verifyBodies fuel f bodies m
  | [], _, _, _ => by rw [verifyBodies, verifyBodies]
  | body :: bodies, m, h, hc => by
    have hbody := h body List.mem_cons_self
    rw [verifyBodies, verifyBodies, verifyFunction_codeOnly hf _ hbody hc.1]
    cases hargs : verifyFunction fuel f body.offset body.captured with
    | error e => rw [error_bind, error_bind]
    | ok args =>
      have hpass := (verifyFunction_iff_bodyPasses hf hbody hfuel).mp ⟨args, hargs⟩
      rw [ok_bind, ok_bind]
      exact verifyBodies_codeOnly hfuel (fun b hb => h b (List.mem_cons_of_mem _ hb)) (hc.2 hpass)

/-- The bodies pass together, and leave an entry 0 for each of them. -/
theorem verifyBodies_eq_ok {fuel : ℕ} (hfuel : getCodeSize f + 2 ≤ fuel) :
    ∀ {bodies : List ClosureEntry} {m m' : List (ℤ × ℤ)}, (∀ b ∈ bodies, CodeIndex f b.offset) →
      (verifyBodies fuel f bodies m = .ok m' ↔
        (∀ b ∈ bodies, BodyPasses f b) ∧ m' = minArgsCounts bodies ++ m)
  | [], m, m', _ => by simp [verifyBodies, minArgsCounts, eq_comm]
  | body :: bodies, m, m', h => by
    have hpass := verifyFunction_iff_bodyPasses hf (h body List.mem_cons_self) hfuel
    have ih := @verifyBodies_eq_ok fuel hfuel bodies ((body.offset, 0) :: m) m' fun b hb =>
      h b (List.mem_cons_of_mem _ hb)
    have hcounts : minArgsCounts (body :: bodies) ++ m = minArgsCounts bodies ++ (body.offset, 0) :: m := by
      simp [minArgsCounts]
    rw [verifyBodies, bind_eq_ok, List.forall_mem_cons, ← hpass, hcounts, and_assoc, ← ih]
    constructor
    · rintro ⟨args, hargs, hrest⟩
      obtain rfl := verifyFunction_eq_zero hargs
      exact ⟨⟨0, hargs⟩, hrest⟩
    · rintro ⟨⟨args, hargs⟩, hrest⟩
      obtain rfl := verifyFunction_eq_zero hargs
      exact ⟨0, hargs, hrest⟩

/-! ### The calls -/

theorem codeIndex_of_rawByte {o : ℤ} {x : ℕ} (h0 : 0 ≤ o) (h : rawByte f o = .ok x) :
    CodeIndex f o := by
  obtain ⟨b, hb, -⟩ := bind_eq_ok.mp h
  rw [orStop_eq_ok, Bytefile.codeByte, Bytefile.bufferByte] at hb
  have hstart := hf.start
  have hcode := hf.code
  split at hb
  · obtain ⟨hlt, -⟩ := List.getElem?_eq_some_iff.mp hb
    simp only [sizeofBytefile, headerOffset] at hlt
    exact ⟨h0, by omega⟩
  · cases hb

/-- A scan that found its `END` passed code only. -/
theorem Scan.codeOnly {ip e : ℤ} (h : Scan f ip e) (hip : CodeIndex f ip) :
    Scan f.codeOnly ip e ∧ CodeIndex f e := by
  induction h with
  | done he => exact ⟨.done (by rw [rawByte_codeOnly hf hip]; exact he), hip⟩
  | @step a b e x y inst hx hend hi hy hp hs ih =>
    have hlt := (readInst_lt hi).2.1
    have hb : CodeIndex f b := codeIndex_of_rawByte hf (by unfold CodeIndex at hip; omega) hy
    obtain ⟨hscan, he⟩ := ih hb
    refine ⟨@Scan.step _ a b e x y inst ?_ hend ?_ ?_ hp hscan, he⟩
    · rw [rawByte_codeOnly hf hip]; exact hx
    · rw [readInst_codeOnly hf]; exact hi
    · rw [rawByte_codeOnly hf hb]; exact hy

theorem visitCalls_codeOnly {begin size : ℤ} {key : ℤ → ℤ} {m : List (ℤ × ℤ)} {jumps : List ℤ}
    {ip : ℤ} {layout : StackLayout} (hip : CodeIndex f ip) :
    visitCalls f.codeOnly begin size key m jumps ip layout =
      visitCalls f begin size key m jumps ip layout := by
  simp only [visitCalls, rawByte_codeOnly hf hip, readInst_codeOnly hf]

/-- One turn of `verify_calls` fails a check at most, unless the lookup finds nothing. -/
theorem visitCalls_errorsIn {begin size : ℤ} {key : ℤ → ℤ} {found : List ClosureEntry} {jumps : List ℤ}
    {ip : ℤ} {layout : StackLayout} (hip : CodeIndex f ip) :
    ErrorsIn Stop.IsFail (visitCalls f begin size key (minArgsCounts found) jumps ip layout) ↔
      CallFound f found (key ip) ip := by
  obtain ⟨x, hx, -⟩ := rawByte_of_codeIndex hf hip
  have rest : ErrorsIn Stop.IsFail (readInst f ip >>= fun r =>
      stackDepthFunctor jumps layout r.1 >>= fun d =>
        (.ok (d.1, d.2, inBody begin size (successorsFunctor r.2 r.1)) : Except Stop _)) :=
    errorsIn_bind.mpr ⟨readInst_errorsIn hf ip, fun _ _ =>
      errorsIn_bind.mpr ⟨stackDepthFunctor_errorsIn _ _ _, fun _ _ => errorsIn_ok⟩⟩
  rw [visitCalls, hx, ok_bind]
  by_cases hcall : x = opcodeCall
  · have hlookup : ((minArgsCounts found).lookup (key ip) = none →
        Stop.IsFail (.uncaught "std::out_of_range")) ↔ ∃ body ∈ found, body.offset = key ip :=
      lookup_minArgsCounts
    rw [if_pos hcall, errorsIn_bind]
    constructor
    · rintro ⟨-, h⟩ ret offset argc next hi
      have h := (errorsIn_bind.mp (h _ hi)).1
      rwa [atKey, errorsIn_orStop, hlookup] at h
    · intro h
      refine ⟨readInst_errorsIn hf ip, fun r hr => errorsIn_bind.mpr ⟨?_, fun _ _ => ?_⟩⟩
      · obtain ⟨inst, next⟩ := r
        obtain ⟨ret, offset, argc, rfl⟩ := (readInst_call_iff hr hx).mp hcall
        rw [atKey, errorsIn_orStop, hlookup]
        exact h ret offset argc next hr
      · exact errorsIn_bind.mpr ⟨errorsIn_ensure.mpr fun _ => trivial, fun _ _ => rest⟩
  · rw [if_neg hcall]
    refine iff_of_true rest fun ret offset argc next hi => ?_
    exact absurd ((readInst_call_iff hi hx).mpr ⟨ret, offset, argc, rfl⟩) hcall

/-- `verify_calls` on a scanned body does the same on the file and on its code, fails a check at most
    when each of its lookups finds an entry, and returns when it has a run that lets the body pass. -/
theorem verifyCalls_scanned {fuel : ℕ} (garbage : ℤ → ℤ → ℤ) {begin e : ℤ} (found : List ClosureEntry)
    (hbegin : CodeIndex f begin) (h : Scan f begin e) (hfuel : getCodeSize f + 2 ≤ fuel) :
    verifyCalls fuel garbage f.codeOnly begin (minArgsCounts found) =
        verifyCalls fuel garbage f begin (minArgsCounts found) ∧
      (ErrorsIn Stop.IsFail (verifyCalls fuel garbage f begin (minArgsCounts found)) ↔
        ∀ ip, CallsVisits garbage f found begin ip → CallFound f found (garbage begin ip) ip) ∧
      (verifyCalls fuel garbage f begin (minArgsCounts found) = .ok () ↔
        CallsPassed garbage f found begin) := by
  obtain ⟨hcut, he⟩ := h.codeOnly hf hbegin
  have hle := h.le
  have hlt : e - begin < fuel := by unfold CodeIndex at *; omega
  have hsize : scanCalls f begin fuel begin 1 = .ok (callsSize begin e) := scanCalls_of_scan h 1 hlt
  have hsize' : scanCalls f.codeOnly begin fuel begin 1 = .ok (callsSize begin e) :=
    scanCalls_of_scan hcut 1 hlt
  have inside : ∀ {s u p}, Worklist.Visits (visitCalls f begin (callsSize begin e) (garbage begin)
      (minArgsCounts found)) [] [begin] [(begin, initialLayout f 0 false)] s u p → CodeIndex f u := by
    intro s u p hv
    refine hv.payload_inv (P := fun u _ => CodeIndex f u) (fun _ _ _ _ _ _ _ hturn v hmem => ?_) ?_
    · exact codeIndex_of_callsBody hbegin he (visitCalls_successors hturn v hmem)
    · rintro e he
      rw [List.mem_singleton.mp he]
      exact hbegin
  have hmeasure : 1 + (Finset.Ico begin (begin + callsSize begin e) \ [begin].toFinset).card ≤ fuel :=
    body_measure (by unfold CodeIndex at *; omega) (by unfold CodeIndex callsSize at *; split <;> omega)
  refine ⟨?_, ?_, ?_⟩
  · have hlayout : initialLayout f.codeOnly 0 false = initialLayout f 0 false := rfl
    rw [verifyCalls, verifyCalls, hsize, hsize', ok_bind, ok_bind, hlayout,
      search_congr fun s u p hv => (visitCalls_codeOnly hf (inside hv)).symm]
  · rw [verifyCalls, hsize, ok_bind, errorsIn_bind,
      search_errorsIn (fun _ _ _ _ _ _ hturn => visitCalls_successors hturn) hmeasure]
    constructor
    · rintro ⟨hall, -⟩ ip ⟨e', jumps, layout, he', hv⟩
      obtain rfl := h.unique he'
      exact (visitCalls_errorsIn hf (inside hv)).mp (hall _ _ _ hv)
    · intro hall
      refine ⟨fun s u p hv => ?_, fun _ _ => errorsIn_ok⟩
      exact (visitCalls_errorsIn hf (inside hv)).mpr (hall u ⟨e, s, p, h, hv⟩)
  · rw [verifyCalls, hsize, ok_bind]
    constructor
    · intro hok
      obtain ⟨r, hr, -⟩ := bind_eq_ok.mp hok
      exact ⟨e, r, h, searches_of_search hr⟩
    · rintro ⟨e', r, he', hr⟩
      obtain rfl := h.unique he'
      exact bind_eq_ok.mpr
        ⟨r, hr.search_eq (fun _ _ _ _ _ _ hturn => visitCalls_successors hturn) hmeasure, rfl⟩

theorem verifyAllCalls_scanned {fuel : ℕ} (garbage : ℤ → ℤ → ℤ) (found : List ClosureEntry)
    (hfuel : getCodeSize f + 2 ≤ fuel) : ∀ {bodies : List ClosureEntry},
      (∀ b ∈ bodies, CodeIndex f b.offset ∧ ∃ e, Scan f b.offset e) →
        verifyAllCalls fuel garbage f.codeOnly (minArgsCounts found) bodies =
            verifyAllCalls fuel garbage f (minArgsCounts found) bodies ∧
          (ErrorsIn Stop.IsFail (verifyAllCalls fuel garbage f (minArgsCounts found) bodies) ↔
            CallsContained garbage f found bodies)
  | [], _ => ⟨by rw [verifyAllCalls, verifyAllCalls], iff_of_true errorsIn_ok trivial⟩
  | body :: bodies, h => by
    obtain ⟨hbody, e, he⟩ := h body List.mem_cons_self
    obtain ⟨heq, herr, hok⟩ := verifyCalls_scanned hf garbage found hbody he hfuel
    obtain ⟨heqs, herrs⟩ := verifyAllCalls_scanned garbage found hfuel
      (fun b hb => h b (List.mem_cons_of_mem _ hb))
    rw [verifyAllCalls, verifyAllCalls, heq, heqs, errorsIn_bind, herr, CallsContained, ← hok, ← herrs]
    refine ⟨rfl, and_congr_right fun _ => ?_⟩
    exact ⟨fun hall hpass => hall () hpass, fun hall _ hpass => hall hpass⟩

/-- The bodies that a search which stays inside has found are in the code. -/
theorem FindsBodies.codeIndex {es : List ℤ} {bodies : List ClosureEntry} (hc : SearchContained f es)
    (h : FindsBodies f es bodies) : ∀ b ∈ bodies, CodeIndex f b.offset := by
  obtain ⟨r, hr, rfl⟩ := (searchReachable_iff_findsBodies le_rfl hc).mpr h
  rw [← searchReachable_codeOnly hf hc] at hr
  obtain ⟨u, -, hr⟩ := bind_eq_ok.mp hr
  obtain ⟨u, -, hr⟩ := bind_eq_ok.mp hr
  have hs := searches_of_search hr
  have looked : ∀ {o : ℤ} {x : ℕ}, rawByte f.codeOnly o = .ok x → CodeIndex f o := by
    intro o x hx
    refine (rawByte_errorsIn_iff hf).mp ?_
    rw [hx]
    exact errorsIn_ok
  have inv := hs.state_inv (I := fun b => (∀ o ∈ b.begins, CodeIndex f o) ∧
      ∀ c ∈ b.cbegins, CodeIndex f c.offset) (fun st u p st' p' ss hst hv => by
    obtain ⟨⟨inst, next⟩, -, hv⟩ := bind_eq_ok.mp hv
    obtain ⟨bodies, hb, hv⟩ := bind_eq_ok.mp hv
    obtain ⟨u, -, hv⟩ := bind_eq_ok.mp hv
    cases hv
    cases inst
    case call r o a =>
      obtain ⟨x, hx, hb⟩ := bind_eq_ok.mp hb
      obtain ⟨u, -, hb⟩ := bind_eq_ok.mp hb
      cases hb
      refine ⟨fun o' ho' => ?_, hst.2⟩
      rcases List.mem_append.mp ho' with ho' | ho'
      · exact hst.1 o' ho'
      · rw [List.mem_singleton.mp ho']; exact looked hx
    case closure o c =>
      obtain ⟨x, hx, hb⟩ := bind_eq_ok.mp hb
      obtain ⟨u, -, hb⟩ := bind_eq_ok.mp hb
      cases hb
      refine ⟨hst.1, fun c' hc' => ?_⟩
      rcases List.mem_append.mp hc' with hc' | hc'
      · exact hst.2 c' hc'
      · rw [List.mem_singleton.mp hc']; exact looked hx
    all_goals cases hb; exact hst) ⟨hc.entries, by simp⟩
  intro b hb
  rcases List.mem_append.mp hb with hb | hb
  · obtain ⟨o, ho, rfl⟩ := List.mem_map.mp hb
    exact inv.1 o ho
  · exact inv.2 b hb

end

/-! ### The publics, and the whole verifier -/

theorem length_of_readFile {bytes : List UInt8} {f : Bytefile} (h : readFile bytes = .ok f) :
    12 ≤ bytes.length := by
  obtain ⟨u, -, h⟩ := bind_eq_ok.mp h
  obtain ⟨u, -, h⟩ := bind_eq_ok.mp h
  obtain ⟨a, -, h⟩ := bind_eq_ok.mp h
  obtain ⟨b, -, h⟩ := bind_eq_ok.mp h
  obtain ⟨c, hc, -⟩ := bind_eq_ok.mp h
  rw [orStop_eq_ok, Bytefile.bufferInt] at hc
  simp only [Option.bind_eq_bind, Option.bind_eq_some_iff] at hc
  obtain ⟨_, -, _, -, _, -, x, hx, -⟩ := hc
  rw [Bytefile.bufferByte] at hx
  split at hx
  · obtain ⟨hlt, -⟩ := List.getElem?_eq_some_iff.mp hx
    simp only [sizeofBytefile, headerOffset] at hlt
    omega
  · cases hx

/-- The int at a non-negative offset of the buffer is there when its last byte is. -/
theorem bufferInt_eq_none_iff {f : Bytefile} {o : ℤ} (ho : 0 ≤ o) :
    f.bufferInt o = none ↔ ¬ o + 16 ≤ f.bytes.length := by
  have byte : ∀ k, 0 ≤ k → f.bufferByte (o + k) = f.bytes[(o + k + 12).toNat]? := by
    intro k hk
    rw [Bytefile.bufferByte, if_pos (by simp only [sizeofBytefile, headerOffset]; omega)]
    simp only [sizeofBytefile, headerOffset, Int.reduceSub]
  have b0 := byte 0 (by decide)
  have b1 := byte 1 (by decide)
  have b2 := byte 2 (by decide)
  have b3 := byte 3 (by decide)
  rw [Int.add_zero] at b0
  constructor
  · intro h hle
    have get : ∀ k : ℕ, k < f.bytes.length → ∃ b, f.bytes[k]? = some b :=
      fun k hk => ⟨_, List.getElem?_eq_getElem hk⟩
    obtain ⟨x0, h0⟩ := get (o + 12).toNat (by omega)
    obtain ⟨x1, h1⟩ := get (o + 1 + 12).toNat (by omega)
    obtain ⟨x2, h2⟩ := get (o + 2 + 12).toNat (by omega)
    obtain ⟨x3, h3⟩ := get (o + 3 + 12).toNat (by omega)
    simp [Bytefile.bufferInt, b0, b1, b2, b3, h0, h1, h2, h3] at h
  · intro hle
    have h3 : f.bytes[(o + 3 + 12).toNat]? = none := List.getElem?_eq_none (by omega)
    cases h : f.bufferInt o with
    | none => rfl
    | some n =>
      simp only [Bytefile.bufferInt, Option.bind_eq_bind, Option.bind_eq_some_iff, b3, h3] at h
      obtain ⟨_, -, _, -, _, -, _, h, -⟩ := h
      cases h

theorem getPublicOffset_errorsIn {f : Bytefile} {i : ℕ} (hi : i < f.publicSymbolsNumber) :
    ErrorsIn Stop.IsFail (getPublicOffset f i) ↔ 20 + 8 * i ≤ f.bytes.length := by
  have hread : (f.bufferInt (8 * i + 4) = none → Stop.IsFail (.undefined "public_ptr")) ↔
      20 + 8 * i ≤ f.bytes.length := by
    rw [bufferInt_eq_none_iff (by omega)]
    simp only [Stop.IsFail, imp_false, not_not]
    omega
  have hcheck : ensure ((i : ℤ) ≥ 0) (Stop.fail "Negative public symbol index %d" [(i : ℤ)]) =
      .ok () := ensure_eq_ok.mpr (by omega)
  rw [getPublicOffset, hcheck, ok_bind, ensure_eq_ok (u := ()).mpr hi, ok_bind, errorsIn_bind,
    errorsIn_orStop, hread]
  exact and_iff_left fun _ _ =>
    errorsIn_bind.mpr ⟨errorsIn_ensure.mpr fun _ => trivial, fun _ _ => errorsIn_ok⟩

theorem getEntrypoints_errorsIn (f : Bytefile) :
    ErrorsIn Stop.IsFail (getEntrypoints f) ↔ TableContained f := by
  have small : ∀ {pre : List ℕ} {i : ℕ} {post : List ℕ},
      List.range f.publicSymbolsNumber.toNat = pre ++ i :: post → (i : ℤ) < f.publicSymbolsNumber := by
    intro pre i post h
    have hmem : i ∈ List.range f.publicSymbolsNumber.toNat := by rw [h]; simp
    have := List.mem_range.mp hmem
    omega
  rw [getEntrypoints, errorsIn_mapM]
  constructor
  · exact fun h pre i post hr hpre =>
      (getPublicOffset_errorsIn (small hr)).mp (h pre i post hr hpre)
  · exact fun h pre i post hr hpre =>
      (getPublicOffset_errorsIn (small hr)).mpr (h pre i post hr hpre)

/-- Where the publics could be read, a code section of some size is the end of the file. -/
theorem codePlaced_of_entrypoints {bytes : List UInt8} {f : Bytefile} {es : List ℤ}
    (h : readFile bytes = .ok f) (hes : getEntrypoints f = .ok es) (hsize : 0 ≤ getCodeSize f) :
    CodePlaced f := by
  have hlen := length_of_readFile h
  obtain ⟨hload, hpos, -, rfl⟩ := (readFile_eq_ok hlen).mp h
  have hload' := hload
  obtain ⟨hs, hp, hg⟩ := hpos
  have htable : 12 + 8 * publicSymbolsNumber bytes ≤ bytes.length := by
    by_cases hzero : publicSymbolsNumber bytes = 0
    · omega
    obtain ⟨n, hn⟩ : ∃ n : ℕ, publicSymbolsNumber bytes = n + 1 :=
      ⟨(publicSymbolsNumber bytes - 1).toNat, by omega⟩
    have hnum : (describe bytes).publicSymbolsNumber = n + 1 := by simpa only [describe] using hn
    obtain ⟨o, -, ho⟩ := (mapM_eq_ok hes).2 n (List.mem_range.mpr (by rw [hnum]; omega))
    have hread : ErrorsIn Stop.IsFail (getPublicOffset (describe bytes) n) := by
      rw [ho]; exact errorsIn_ok
    have := (getPublicOffset_errorsIn (by rw [hnum]; omega)).mp hread
    simp only [describe] at this
    omega
  have hint := fileInt_isInt bytes 0
  unfold IsInt at hint
  unfold Loadable at hload
  have hstr : stringtabSize bytes = fileInt bytes 0 := by rw [stringtabSize]
  have hcode : getCodeSize (describe bytes) = bytes.length - codeOffset bytes := by
    rw [getCodeSize_describe]
    unfold codeOffset
    exact toInt32_of_isInt ⟨by omega, by omega⟩
  refine (sections_describe hload' ⟨hs, hp, hg⟩ (by omega)).codePlaced ?_
  simp only [describe]
  exact toInt32_of_isInt ⟨by omega, hload⟩

/-- The verifier returns or stops on a failed check, and does so on the code section alone: no bitmap
    is indexed outside its size, and no byte outside the code is read through an instruction
    pointer. -/
def StaysInside (fuel : ℕ) (garbage : ℤ → ℤ → ℤ) (f : Bytefile) : Prop :=
  ErrorsIn Stop.IsFail (getEntrypoints f >>= verifyReachableInstructions fuel garbage f.codeOnly) ∧
    (getEntrypoints f >>= verifyReachableInstructions fuel garbage f.codeOnly) =
      (getEntrypoints f >>= verifyReachableInstructions fuel garbage f)

/-- What the file must be like: its publics, each instruction that the search comes to, each body that
    these name, and each call in the bodies. -/
structure VerifierContained (garbage : ℤ → ℤ → ℤ) (f : Bytefile) : Prop where
  table : TableContained f
  search : ∀ es, getEntrypoints f = .ok es → SearchContained f es
  bodies : ∀ es found, getEntrypoints f = .ok es → FindsBodies f es found → BodiesContained f found
  calls : ∀ es found, getEntrypoints f = .ok es → FindsBodies f es found →
    (∀ body ∈ found, BodyPasses f body) → CallsContained garbage f found found

section
variable {f : Bytefile} (hf : CodePlaced f) {fuel : ℕ} {garbage : ℤ → ℤ → ℤ} {es : List ℤ}
  (hfuel : es.length + getCodeSize f + 2 ≤ fuel)
include hf hfuel

theorem verifyReachableInstructions_errorsIn :
    ErrorsIn Stop.IsFail (verifyReachableInstructions fuel garbage f.codeOnly es) ↔
      SearchContained f es ∧ ∀ found, FindsBodies f es found →
        BodiesContained f found ∧ ((∀ body ∈ found, BodyPasses f body) →
          CallsContained garbage f found found) := by
  have hsize := hf.code_nonneg
  rw [verifyReachableInstructions, errorsIn_bind, searchReachable_errorsIn hf (by omega)]
  refine and_congr_right fun hs => ?_
  rw [searchReachable_codeOnly hf hs]
  -- what the verifier does behind the search depends on the bodies alone
  have after : ∀ found, FindsBodies f es found →
      (ErrorsIn Stop.IsFail (verifyBodies fuel f.codeOnly found [] >>= fun m =>
          verifyAllCalls fuel garbage f.codeOnly m found) ↔
        BodiesContained f found ∧ ((∀ body ∈ found, BodyPasses f body) →
          CallsContained garbage f found found)) := by
    intro found hfound
    have hin := hfound.codeIndex hf hs
    rw [errorsIn_bind, verifyBodies_errorsIn hf (by omega) hin]
    refine and_congr_right fun hb => ?_
    rw [verifyBodies_codeOnly hf (by omega) hin hb]
    constructor
    · intro h hpass
      have hscanned : ∀ b ∈ found, CodeIndex f b.offset ∧ ∃ e, Scan f b.offset e := fun b hb =>
        ⟨hin b hb, (hpass b hb).scanned⟩
      obtain ⟨heq, herr⟩ := @verifyAllCalls_scanned _ hf fuel garbage found (by omega) _ hscanned
      have h := h _ ((verifyBodies_eq_ok hf (by omega) hin).mpr ⟨hpass, rfl⟩)
      rwa [List.append_nil, heq, herr] at h
    · intro h m hm
      obtain ⟨hpass, rfl⟩ := (verifyBodies_eq_ok hf (by omega) hin).mp hm
      have hscanned : ∀ b ∈ found, CodeIndex f b.offset ∧ ∃ e, Scan f b.offset e := fun b hb =>
        ⟨hin b hb, (hpass b hb).scanned⟩
      obtain ⟨heq, herr⟩ := @verifyAllCalls_scanned _ hf fuel garbage found (by omega) _ hscanned
      rw [List.append_nil, heq, herr]
      exact h hpass
  constructor
  · intro h found hfound
    obtain ⟨r, hr, rfl⟩ : ∃ r, searchReachable fuel f es = .ok r ∧ r.state.all = found :=
      (searchReachable_iff_findsBodies (by omega) hs).mpr hfound
    exact (after _ hfound).mp (h r hr)
  · intro h r hr
    have hfound := (searchReachable_iff_findsBodies (by omega) hs).mp ⟨r, hr, rfl⟩
    exact (after _ hfound).mpr (h _ hfound)

theorem verifyReachableInstructions_codeOnly (hs : SearchContained f es)
    (hb : ∀ found, FindsBodies f es found → BodiesContained f found) :
    verifyReachableInstructions fuel garbage f.codeOnly es =
      verifyReachableInstructions fuel garbage f es := by
  have hsize := hf.code_nonneg
  rw [verifyReachableInstructions, verifyReachableInstructions, searchReachable_codeOnly hf hs]
  cases hr : searchReachable fuel f es with
  | error e => rw [error_bind, error_bind]
  | ok r =>
    have hfound := (searchReachable_iff_findsBodies (by omega) hs).mp ⟨r, hr, rfl⟩
    have hin := hfound.codeIndex hf hs
    rw [ok_bind, ok_bind, verifyBodies_codeOnly hf (by omega) hin (hb _ hfound)]
    cases hm : verifyBodies fuel f r.state.all [] with
    | error e => rw [error_bind, error_bind]
    | ok m =>
      obtain ⟨hpass, rfl⟩ := (verifyBodies_eq_ok hf (by omega) hin).mp hm
      rw [ok_bind, ok_bind, List.append_nil]
      exact (@verifyAllCalls_scanned _ hf fuel garbage _ (by omega) _ fun b hb =>
        ⟨hin b hb, (hpass b hb).scanned⟩).1

end

/-- A bitmap of negative size makes the search throw. -/
theorem searchReachable_negative {f : Bytefile} {fuel : ℕ} {es : List ℤ} (h : getCodeSize f < 0) :
    ¬ ErrorsIn Stop.IsFail (searchReachable fuel f.codeOnly es) := by
  intro hfail
  have := (errorsIn_bind.mp hfail).1
  rw [errorsIn_ensure, getCodeSize_codeOnly] at this
  exact this (by omega)

/-- A file with one public symbol at offset `-1`, and a code section of one byte. -/
def strayPublic : List UInt8 :=
  [0, 0, 0, 0, 0, 0, 0, 0, 1, 0, 0, 0, 0, 0, 0, 0, 255, 255, 255, 255, 22]

/-- The verifier of a file that `read_file` accepted stays inside its buffers exactly when the
    addresses it takes from the file do. -/
theorem verifier_stays_inside_iff {bytes : List UInt8} {f : Bytefile} (h : readFile bytes = .ok f)
    (garbage : ℤ → ℤ → ℤ) (fuel : ℕ) (hfuel : f.publicSymbolsNumber + getCodeSize f + 2 ≤ fuel) :
    StaysInside fuel garbage f ↔ VerifierContained garbage f := by
  cases hes : getEntrypoints f with
  | error e =>
    have htable := getEntrypoints_errorsIn f
    rw [hes] at htable
    rw [StaysInside, hes, error_bind, error_bind, eq_self_iff_true, and_true]
    constructor
    · exact fun he => ⟨htable.mp fun e' he' => he e' (by cases he'; rfl),
        fun _ h => by simp [hes] at h, fun _ _ h => by simp [hes] at h,
        fun _ _ h => by simp [hes] at h⟩
    · exact fun hc e' he' => htable.mpr hc.table e' (by cases he'; rfl)
  | ok es =>
    have htable : TableContained f := by
      rw [← getEntrypoints_errorsIn, hes]
      exact errorsIn_ok
    have hlen : (es.length : ℤ) ≤ f.publicSymbolsNumber.toNat := by
      rw [(mapM_eq_ok hes).1, List.length_range]
    rw [StaysInside, hes, ok_bind, ok_bind]
    by_cases hsize : 0 ≤ getCodeSize f
    · have hf := codePlaced_of_entrypoints h hes hsize
      have hnum : 0 ≤ f.publicSymbolsNumber := by
        obtain ⟨-, ⟨-, hp, -⟩, -, rfl⟩ := (readFile_eq_ok (length_of_readFile h)).mp h
        simpa only [describe] using hp
      have hfuel' : (es.length : ℤ) + getCodeSize f + 2 ≤ fuel := by omega
      rw [verifyReachableInstructions_errorsIn hf hfuel']
      constructor
      · rintro ⟨⟨hs, hb⟩, -⟩
        refine ⟨htable, fun es' h' => ?_, fun es' found h' hfound => ?_,
          fun es' found h' hfound hpass => ?_⟩ <;>
          obtain rfl := Except.ok.inj (hes.symm.trans h')
        · exact hs
        · exact (hb found hfound).1
        · exact (hb found hfound).2 hpass
      · intro hc
        have hs := hc.search es hes
        have hb := fun found hfound => hc.bodies es found hes hfound
        exact ⟨⟨hs, fun found hfound => ⟨hb found hfound, hc.calls es found hes hfound⟩⟩,
          verifyReachableInstructions_codeOnly hf hfuel' hs hb⟩
    · constructor
      · rintro ⟨he, -⟩
        exact absurd (errorsIn_bind.mp he).1 (searchReachable_negative (by omega))
      · exact fun hc => absurd (hc.search es hes).size hsize

theorem verifier_stays_inside_iff_decideThenCall :
    VerifierContained (fun _ _ => 69) (program 0 decideThenCall) := by
  have hload : loadProgram 100 (fun _ _ => 69) (programBytes 0 decideThenCall) =
      .ok (program 0 decideThenCall, 0) := by decide +kernel
  have hfile : readFile (programBytes 0 decideThenCall) = .ok (program 0 decideThenCall) :=
    readFile_of_loadProgram hload
  have hcut : (getEntrypoints (program 0 decideThenCall) >>=
      verifyReachableInstructions 100 (fun _ _ => 69) (program 0 decideThenCall).codeOnly) = .ok () := by
    decide +kernel
  have hwhole : (getEntrypoints (program 0 decideThenCall) >>=
      verifyReachableInstructions 100 (fun _ _ => 69) (program 0 decideThenCall)) = .ok () := by
    decide +kernel
  refine (verifier_stays_inside_iff hfile _ 100 (by decide +kernel)).mp ⟨?_, hcut.trans hwhole.symm⟩
  rw [hcut]
  exact errorsIn_ok

/-- The public offset is below the size of the file, so `get_public_offset` lets it pass, and the
    search marks bit `-1` of its bitmap. -/
theorem stray_public_indexed : ∃ f, readFile strayPublic = .ok f ∧
    ∀ fuel garbage, ¬ StaysInside fuel garbage f := by
  refine ⟨describe strayPublic,
    (readFile_eq_ok (by decide)).mpr ⟨by decide, by decide, by decide, rfl⟩, ?_⟩
  rintro fuel garbage ⟨h, -⟩
  have hes : getEntrypoints (describe strayPublic) = .ok [-1] := by decide +kernel
  rw [hes, ok_bind, verifyReachableInstructions, errorsIn_bind, searchReachable, errorsIn_bind] at h
  have hidx := (errorsIn_bind.mp (h.1.2 () (ensure_eq_ok.mpr (by decide)))).1
  rw [checkIndices_errorsIn] at hidx
  exact absurd (hidx (-1) (by decide)) (by decide)

end Lama

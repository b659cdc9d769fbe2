import PlvmHomeworks.Lib.Tables
import PlvmHomeworks.Tools.Grammar
import PlvmHomeworks.Tools.Jumps
import Mathlib.Data.Int.SuccPred
import Mathlib.Order.Bounds.Defs

/-! What the verifier knows about arguments: the number that `verify_function` returns for a body,
    and the number that `verify_calls` compares at a call.

    `verify_function` returns the `args` of the layout that its loop copies, and no copy writes back.
    `verify_calls` looks its number up under an offset that `GetCallOffset` never sets. -/

namespace Lama
open Outcome Tables Worklist

variable {fuel : ℕ} {f : Bytefile} {begin captured args size e : ℤ}
  {r : Result ℤ StackLayout (List ℤ)}

/-! ### The result of `verify_function` -/

/-- An instruction that `verify_function` visits accesses argument `i`. -/
def AccessesArg (f : Bytefile) (r : Result ℤ StackLayout (List ℤ)) (i : ℤ) : Prop :=
  ∃ u ∈ r.visited, ∃ inst next, readInst f u = .ok (inst, next) ∧
    ∃ l ∈ inst.locations, l.location = some .arg ∧ l.index = i

/-- The numbers of arguments that a body asks for: the operand `argc` of its prologue, and what each
    access to an argument needs. -/
def ArgsNeeded (f : Bytefile) (r : Result ℤ StackLayout (List ℤ)) (argc : ℤ) : Set ℤ :=
  insert argc {n | ∃ i, AccessesArg f r i ∧ n = 1 + i}

/-- No copy of the layout writes its `args` back. -/
theorem verifyFunction_eq_zero (h : verifyFunction fuel f begin captured = .ok args) : args = 0 := by
  obtain ⟨⟨size, r⟩, -, h⟩ := bind_eq_ok.mp h
  obtain ⟨u, -, h⟩ := bind_eq_ok.mp h
  cases h
  rfl

/-- `verify_function` returns the most that an accepted body asks for if and only if this is nothing:
    the operand of the prologue is not positive, no argument from `A(0)` on is accessed, and one of
    the two asks for 0. -/
theorem returns_needed_iff (h : verifyFunction fuel f begin captured = .ok args)
    (_ : searchFunction fuel f begin captured = .ok (size, r)) {inst : Inst} {next argc locc : ℤ}
    (_ : readInst f begin = .ok (inst, next))
    (_ : inst = .begin argc locc ∨ inst = .cbegin argc locc) :
    IsGreatest (ArgsNeeded f r argc) args ↔
      argc ≤ 0 ∧ (∀ i, AccessesArg f r i → i < 0) ∧ (argc = 0 ∨ AccessesArg f r (-1)) := by
  rw [verifyFunction_eq_zero h]
  constructor
  · rintro ⟨hmem, hub⟩
    refine ⟨hub (Or.inl rfl), fun i hacc => ?_, ?_⟩
    · have := hub (Or.inr ⟨i, hacc, rfl⟩)
      omega
    · rcases hmem with hz | ⟨i, hacc, hz⟩
      · exact Or.inl hz.symm
      · obtain rfl : i = -1 := by omega
        exact Or.inr hacc
  · rintro ⟨hargc, haccess, hone⟩
    refine ⟨?_, ?_⟩
    · rcases hone with rfl | hacc
      · exact Or.inl rfl
      · exact Or.inr ⟨-1, hacc, by omega⟩
    · rintro n (rfl | ⟨i, hacc, rfl⟩)
      · exact hargc
      · have := haccess i hacc
        omega

/-- `BEGIN 1 0; LD A(0); END`. -/
def oneArgument : List UInt8 := 82 :: intBytes 1 ++ intBytes 0 ++ 34 :: intBytes 0 ++ [22]

theorem returns_needed_iff_oneArgument :
    ∃ size r, searchFunction 30 (program 0 oneArgument) 0 (-1) = .ok (size, r) ∧
      (IsGreatest (ArgsNeeded (program 0 oneArgument) r 1) 0 ↔
        (1 : ℤ) ≤ 0 ∧ (∀ i, AccessesArg (program 0 oneArgument) r i → i < 0) ∧
          ((1 : ℤ) = 0 ∨ AccessesArg (program 0 oneArgument) r (-1))) := by
  have hs : (searchFunction 30 (program 0 oneArgument) 0 (-1)).map Prod.fst = .ok 15 := by
    decide +kernel
  have h : verifyFunction 30 (program 0 oneArgument) 0 (-1) = .ok 0 := by decide +kernel
  have hi : readInst (program 0 oneArgument) 0 = .ok (.begin 1 0, 9) := by decide +kernel
  obtain ⟨⟨size, r⟩, hs, -⟩ := exists_of_map_eq_ok hs
  exact ⟨size, r, hs, returns_needed_iff h hs hi (Or.inl rfl)⟩

/-- The body asks for an argument in its prologue and accesses it; 0 is returned. -/
theorem oneArgument_forgotten :
    ∃ size r, verifyFunction 30 (program 0 oneArgument) 0 (-1) = .ok 0 ∧
      searchFunction 30 (program 0 oneArgument) 0 (-1) = .ok (size, r) ∧
      readInst (program 0 oneArgument) 0 = .ok (.begin 1 0, 9) ∧
      AccessesArg (program 0 oneArgument) r 0 ∧
      ¬ IsGreatest (ArgsNeeded (program 0 oneArgument) r 1) 0 := by
  have hs : (searchFunction 30 (program 0 oneArgument) 0 (-1)).map (·.2.visited) =
      .ok [14, 9, 0] := by decide +kernel
  obtain ⟨⟨size, r⟩, hs, hvis⟩ := exists_of_map_eq_ok hs
  have hload : readInst (program 0 oneArgument) 9 = .ok (.ld ⟨2, 0⟩, 14) := by decide +kernel
  have hacc : AccessesArg (program 0 oneArgument) r 0 :=
    ⟨9, by rw [hvis]; decide, _, _, hload, ⟨2, 0⟩, List.mem_cons_self, rfl, rfl⟩
  refine ⟨size, r, by decide +kernel, hs, by decide +kernel, hacc, fun h => ?_⟩
  have : (1 : ℤ) ≤ 0 := h.2 (Or.inl rfl)
  omega

/-! ### The calls of a body -/

/-- A turn of `verify_calls` without the check of a `CALL`. -/
def visitDepth (f : Bytefile) (begin size : ℤ) (jumps : List ℤ) (ip : ℤ) (layout : StackLayout) :
    Except Stop (List ℤ × StackLayout × List ℤ) := do
  let (inst, next) ← readInst f ip
  let (jumps, layout) ← stackDepthFunctor jumps layout inst
  return (jumps, layout, inBody begin size (successorsFunctor next inst))

/-- The instructions that `verify_calls` reaches, each with the layout recorded on arrival. -/
def searchDepths (fuel : ℕ) (f : Bytefile) (begin : ℤ) : Except Stop (Result ℤ StackLayout (List ℤ)) := do
  let size ← scanCalls f begin fuel begin 1
  search (visitDepth f begin size) .outOfFuel fuel [] [begin] [(begin, initialLayout f 0 false)]

/-- The check of a `CALL` at `ip` against the entry under `key ip`. -/
def checkCall (f : Bytefile) (key : ℤ → ℤ) (minArgsCount : List (ℤ × ℤ)) (ip : ℤ)
    (layout : StackLayout) : Except Stop Unit := do
  let b ← rawByte f ip
  if b = opcodeCall then
    let _ ← readInst f ip
    let minArgs ← atKey minArgsCount (key ip)
    ensure (¬ layout.locals < minArgs) (.fail "Stack underflow at offset 0x%.8x" [ip])

theorem visitCalls_eq {key : ℤ → ℤ} {m : List (ℤ × ℤ)} :
    visitCalls f begin size key m = fun jumps ip layout =>
      checkCall f key m ip layout >>= fun _ => visitDepth f begin size jumps ip layout := by
  funext jumps ip layout
  unfold visitCalls checkCall
  cases rawByte f ip with
  | error stop => rfl
  | ok b =>
    simp only [ok_bind]
    split
    · cases hi : readInst f ip with
      | error stop => rfl
      | ok i =>
        cases atKey m (key ip) with
        | error stop => rfl
        | ok minArgs =>
          simp only [ok_bind, visitDepth, hi]
    · rfl

/-- At every `CALL` reached, the map has an entry under this key that is not above the depth recorded
    on arrival. -/
def CallsPass (f : Bytefile) (m : List (ℤ × ℤ)) (key : ℤ → ℤ → ℤ)
    (r : Result ℤ StackLayout (List ℤ)) : Prop :=
  ∀ u layout ret offset argc next, (u, layout) ∈ r.log →
    readInst f u = .ok (.call ret offset argc, next) →
    ∃ n, m.lookup (key u offset) = some n ∧ n ≤ layout.locals

/-- The key the comment of `verify_calls` is about: the function the call enters. -/
def ownOffset : ℤ → ℤ → ℤ := fun _ offset => offset

/-- A search came to a `CALL` at `u` of the function at `offset`, with this depth recorded. -/
def CallSite (f : Bytefile) (r : Result ℤ StackLayout (List ℤ)) (u offset depth : ℤ) : Prop :=
  ∃ layout ret argc next, (u, layout) ∈ r.log ∧ layout.locals = depth ∧
    readInst f u = .ok (.call ret offset argc, next)

/-- What the calls ask of the map, each under its key. -/
def callDemands (f : Bytefile) (r : Result ℤ StackLayout (List ℤ)) (key : ℤ → ℤ → ℤ) : Set (ℤ × ℤ) :=
  {p | ∃ u offset depth, CallSite f r u offset depth ∧ p = (key u offset, depth)}

/-- The words found at the calls of a verified body, each with the depth that `verify_function`
    recorded, stand for the functions that the calls enter: every function entered is looked up at a
    call with no greater depth, and every word looked up is a function entered with no greater depth. -/
structure StandIn (f : Bytefile) (r : Result ℤ StackLayout (List ℤ)) (word : ℤ → ℤ) : Prop where
  checked : ∀ u offset depth, CallSite f r u offset depth →
    ∃ u' offset' depth', CallSite f r u' offset' depth' ∧ word u' = offset ∧ depth' ≤ depth
  found : ∀ u offset depth, CallSite f r u offset depth →
    ∃ u' depth', CallSite f r u' (word u) depth' ∧ depth' ≤ depth

/-- The words are the offsets of the calls themselves. -/
theorem StandIn.of_own {word : ℤ → ℤ} (h : ∀ u offset depth, CallSite f r u offset depth → word u = offset) :
    StandIn f r word :=
  ⟨fun u offset depth hu => ⟨u, offset, depth, hu, h u offset depth hu, le_rfl⟩,
    fun u offset depth hu => ⟨u, depth, (h u offset depth hu).symm ▸ hu, le_rfl⟩⟩

theorem callsPass_iff {m : List (ℤ × ℤ)} {key : ℤ → ℤ → ℤ} :
    CallsPass f m key r ↔ Meets m (callDemands f r key) := by
  constructor
  · rintro h - ⟨u, offset, depth, ⟨layout, ret, argc, next, hu, rfl, hi⟩, rfl⟩
    exact h u layout ret offset argc next hu hi
  · intro h u layout ret offset argc next hu hi
    exact h _ ⟨u, offset, layout.locals, ⟨layout, ret, argc, next, hu, rfl, hi⟩, rfl⟩

/-- A search comes to finitely many calls. -/
theorem callDemands_finite (key : ℤ → ℤ → ℤ) : (callDemands f r key).Finite := by
  let callee : ℤ → ℤ := fun u =>
    match readInst f u with
    | .ok (.call _ offset _, _) => offset
    | _ => 0
  refine ((List.finite_toSet r.log).image fun e => (key e.1 (callee e.1), e.2.locals)).subset ?_
  rintro - ⟨u, offset, depth, ⟨layout, ret, argc, next, hu, rfl, hi⟩, rfl⟩
  refine ⟨(u, layout), hu, ?_⟩
  simp only [callee, hi]

/-- Words that stand for the callees ask the same of every map. -/
theorem standIn_iff {word : ℤ → ℤ} : StandIn f r word ↔
    Covers (callDemands f r fun u _ => word u) (callDemands f r ownOffset) ∧
      Covers (callDemands f r ownOffset) (callDemands f r fun u _ => word u) := by
  constructor
  · rintro ⟨hchecked, hfound⟩
    refine ⟨?_, ?_⟩
    · rintro - ⟨u, offset, depth, hu, rfl⟩
      obtain ⟨u', offset', depth', hu', hword, hle⟩ := hchecked u offset depth hu
      exact ⟨_, ⟨u', offset', depth', hu', rfl⟩, hword, hle⟩
    · rintro - ⟨u, offset, depth, hu, rfl⟩
      obtain ⟨u', depth', hu', hle⟩ := hfound u offset depth hu
      exact ⟨_, ⟨u', word u, depth', hu', rfl⟩, rfl, hle⟩
  · rintro ⟨hchecked, hfound⟩
    refine ⟨fun u offset depth hu => ?_, fun u offset depth hu => ?_⟩
    · obtain ⟨-, ⟨u', offset', depth', hu', rfl⟩, hword, hle⟩ := hchecked _ ⟨u, offset, depth, hu, rfl⟩
      exact ⟨u', offset', depth', hu', hword, hle⟩
    · obtain ⟨-, ⟨u', offset', depth', hu', rfl⟩, hword, hle⟩ := hfound _ ⟨u, offset, depth, hu, rfl⟩
      obtain rfl : offset' = word u := hword
      exact ⟨u', depth', hu', hle⟩

theorem readInst_call_iff {ip next : ℤ} {inst : Inst} {b : ℕ} (h : readInst f ip = .ok (inst, next))
    (hb : rawByte f ip = .ok b) : b = opcodeCall ↔ ∃ ret offset argc, inst = .call ret offset argc := by
  obtain ⟨-, -, x, hx, h⟩ := readInst_iff.mp h
  have hbx : b = x.toNat := by
    obtain ⟨y, hy, hb⟩ := bind_eq_ok.mp hb
    rw [orStop_eq_ok, hx] at hy
    cases hy
    cases hb
    rfl
  rw [hbx]
  constructor
  · intro h86
    have h86 : x.toNat = 86 := h86
    rw [h86] at h
    obtain ⟨⟨o, mid⟩, -, h⟩ := bind_eq_ok.mp h
    obtain ⟨⟨a, mid'⟩, -, h⟩ := bind_eq_ok.mp h
    cases h
    exact ⟨_, _, _, rfl⟩
  · rintro ⟨ret, offset, argc, rfl⟩
    rcases opcodeInst_taken h with ⟨hop, -⟩ | ⟨-, hno, -⟩ | ⟨-, _, _, hno, -⟩
    · exact hop
    · cases hno
    · cases hno

/-- What the check of an instruction that can be read comes to. -/
theorem checkCall_eq_ok {key : ℤ → ℤ} {m : List (ℤ × ℤ)} {u next : ℤ} {layout : StackLayout}
    {inst : Inst} (h : readInst f u = .ok (inst, next)) :
    checkCall f key m u layout = .ok () ↔
      ((∃ ret offset argc, inst = .call ret offset argc) →
        ∃ n, m.lookup (key u) = some n ∧ n ≤ layout.locals) := by
  obtain ⟨x, hx⟩ : ∃ x, rawByte f u = .ok x := by
    obtain ⟨-, -, x, hx, -⟩ := readInst_iff.mp h
    exact ⟨x.toNat, by rw [rawByte, hx]; rfl⟩
  rw [← readInst_call_iff h hx, checkCall, hx, ok_bind]
  by_cases hcall : x = opcodeCall
  · rw [if_pos hcall, h, ok_bind]
    simp only [atKey, bind_eq_ok, orStop_eq_ok, ensure_eq_ok, not_lt, hcall, true_imp_iff]
  · rw [if_neg hcall]
    exact ⟨fun _ h => absurd h hcall, fun _ => rfl⟩

/-- The size scan of `verify_calls` ends where that of `verify_function` does, with a size that leaves
    `END` out. -/
theorem scanCalls_of_scanFunction : ∀ {fuel : ℕ} {ip size s : ℤ},
    scanFunction f begin fuel ip size = .ok s → ∀ size',
      ∃ e, Scan f ip e ∧ scanCalls f begin fuel ip size' = .ok (if ip = e then size' else e - begin)
  | 0, _, _, _, h, _ => by cases h
  | fuel + 1, ip, size, s, h, size' => by
    obtain ⟨x, hx, h⟩ := bind_eq_ok.mp h
    rw [scanCalls, hx, ok_bind]
    by_cases hend : x = opcodeEnd
    · exact ⟨ip, .done (hend ▸ hx), by simp [hend]⟩
    · rw [if_neg hend] at h ⊢
      obtain ⟨⟨inst, next⟩, hi, h⟩ := bind_eq_ok.mp h
      obtain ⟨y, hy, h⟩ := bind_eq_ok.mp h
      obtain ⟨u, hp, h⟩ := bind_eq_ok.mp h
      rw [ensure_eq_ok] at hp
      obtain ⟨e, he, hscan⟩ := scanCalls_of_scanFunction h (next - begin)
      have hlt := (readInst_lt hi).2.1
      have hle := he.le
      refine ⟨e, .step hx hend hi hy hp he, ?_⟩
      rw [hi, ok_bind, if_neg (show ip ≠ e by omega)]
      refine hscan.trans ?_
      split
      · next heq => rw [heq]
      · rfl

/-- The jump vector is only appended to. -/
theorem stackDepthFunctor_jumps {jumps jumps' : List ℤ} {layout layout' : StackLayout} {inst : Inst}
    (h : stackDepthFunctor jumps layout inst = .ok (jumps', layout')) (other : List ℤ) :
    ∃ other', stackDepthFunctor other layout inst = .ok (other', layout') := by
  obtain ⟨layout₁, h₁, h⟩ := bind_eq_ok.mp h
  cases h
  exact ⟨_, bind_eq_ok.mpr ⟨layout₁, h₁, rfl⟩⟩

/-- After a prologue the layouts of the two searches are the same. -/
theorem stackDepthFunctor_prologue {inst : Inst} (hp : inst.isPrologue = true) (jumps : List ℤ)
    (c c' : ℤ) (b b' : Bool) :
    stackDepthFunctor jumps (initialLayout f c b) inst =
      stackDepthFunctor jumps (initialLayout f c' b') inst := by
  cases inst <;> first | rfl | cases hp

theorem inBody_end {begin e : ℤ} (ss : List ℤ) :
    inBody begin (e - begin) ss = (inBody begin (e - begin + 1) ss).filter fun v => decide ¬ v = e := by
  rw [inBody, inBody, List.filter_filter]
  refine List.filter_congr fun v _ => ?_
  rw [← Bool.decide_and]
  exact decide_eq_decide.mpr ⟨fun h => by omega, fun h => by omega⟩

/-- The search of `verify_calls` goes through a verified body: it meets what `verify_function` met,
    but for the `END`, and comes to the calls with the same depths. -/
theorem searchDepths_ok (h : searchFunction fuel f begin captured = .ok (size, r)) {inst : Inst} {next : ℤ}
    (hi : readInst f begin = .ok (inst, next)) (hp : inst.isPrologue = true) :
    ∃ r', searchDepths fuel f begin = .ok r' ∧
      ∀ u offset depth, CallSite f r' u offset depth ↔ CallSite f r u offset depth := by
  obtain ⟨size', hscan, h⟩ := bind_eq_ok.mp h
  obtain ⟨r₁, hsearch, h⟩ := bind_eq_ok.mp h
  cases h
  cases fuel with
  | zero => cases hscan
  | succ fuel =>
    obtain ⟨e, he, hcalls⟩ := scanCalls_of_scanFunction hscan 1
    have hbegin : begin ≠ e := by
      rintro rfl
      rw [(readInst_end_iff hi he.rawByte_end).mpr rfl] at hp
      cases hp
    have hsize : size = e - begin + 1 := by
      obtain ⟨e', he', hsize⟩ := scan_of_scanFunction hscan
      rw [he.unique he'] at hbegin ⊢
      rcases hsize with ⟨heq, -⟩ | hsize
      · exact absurd heq.symm hbegin
      · exact hsize
    subst hsize
    rw [if_neg hbegin] at hcalls
    -- the first turn, which the prologue makes the same
    obtain ⟨⟨jumps, layout, ss⟩, hv, hsearch⟩ := bind_eq_ok.mp hsearch
    obtain ⟨r₂, hrest, hsearch⟩ := bind_eq_ok.mp hsearch
    cases hsearch
    obtain ⟨inst', next', hi', hd, -, rfl⟩ := visitFunction_ok hv
    rw [hi] at hi'
    cases hi'
    rw [stackDepthFunctor_prologue hp [] captured 0 _ false] at hd
    -- the other turns
    obtain ⟨hpush, hmarks⟩ := push_alive (fun v => v = e) layout
      (inBody begin (e - begin + 1) (successorsFunctor next inst)) [begin] [begin] []
      (fun _ _ => Iff.rfl)
    have hdead : ∀ s u p s' p' ss, u = e →
        visitFunction f begin (e - begin + 1) s u p = .ok (s', p', ss) → ss = [] := by
      rintro s u p s' p' ss rfl hv
      obtain ⟨inst, next, hi, -, -, rfl⟩ := visitFunction_ok hv
      rw [(readInst_end_iff hi he.rawByte_end).mpr rfl]
      rfl
    have hlive : ∀ s t u p s' p' ss, ¬ u = e →
        visitFunction f begin (e - begin + 1) s u p = .ok (s', p', ss) →
        ∃ t', visitDepth f begin (e - begin) t u p =
          .ok (t', p', ss.filter fun v => decide ¬ v = e) := by
      intro s t u p s' p' ss _ hv
      obtain ⟨inst, next, hi, hd, -, rfl⟩ := visitFunction_ok hv
      obtain ⟨t', ht'⟩ := stackDepthFunctor_jumps hd t
      rw [← inBody_end]
      exact ⟨t', bind_eq_ok.mpr ⟨_, hi, bind_eq_ok.mpr ⟨_, ht', rfl⟩⟩⟩
    obtain ⟨r', hr', hlog⟩ := search_alive (fun v => v = e) hdead hlive (t := jumps) hrest hmarks
    rw [hpush, ← inBody_end] at hr'
    have hfirst : visitDepth f begin (e - begin) [] begin (initialLayout f 0 false) =
        .ok (jumps, layout, inBody begin (e - begin) (successorsFunctor next inst)) :=
      bind_eq_ok.mpr ⟨_, hi, bind_eq_ok.mpr ⟨_, hd, rfl⟩⟩
    refine ⟨_, bind_eq_ok.mpr ⟨_, hcalls, bind_eq_ok.mpr ⟨_, hfirst, bind_eq_ok.mpr ⟨_, hr', rfl⟩⟩⟩,
      fun u offset depth => ?_⟩
    -- a call is neither the prologue nor the `END`
    have hcall : ∀ {layout layout' : StackLayout} {ret argc next' : ℤ},
        readInst f u = .ok (.call ret offset argc, next') →
        ((u, layout) ∈ (begin, layout') :: alive (fun v => v = e) r₂.log ↔
          (u, layout) ∈ (begin, initialLayout f captured (decide (captured ≥ 0))) :: r₂.log) := by
      intro layout layout' ret argc next' hu
      have hne : u ≠ begin := by
        rintro rfl
        rw [hi] at hu
        cases hu
        cases hp
      have hne' : u ≠ e := by
        rintro rfl
        cases (readInst_end_iff hu he.rawByte_end).mpr rfl
      simp [alive, hne, hne']
    constructor
    · rintro ⟨layout, ret, argc, next', hmem, hdepth, hu⟩
      rw [hlog] at hmem
      exact ⟨layout, ret, argc, next', (hcall hu).mp hmem, hdepth, hu⟩
    · rintro ⟨layout, ret, argc, next', hmem, hdepth, hu⟩
      refine ⟨layout, ret, argc, next', ?_, hdepth, hu⟩
      rw [hlog]
      exact (hcall hu).mpr hmem

theorem standIn_congr {r' : Result ℤ StackLayout (List ℤ)} {word : ℤ → ℤ}
    (h : ∀ u offset depth, CallSite f r' u offset depth ↔ CallSite f r u offset depth) :
    StandIn f r' word ↔ StandIn f r word := by
  simp only [standIn_iff, callDemands, h]

/-- `verify_calls` ends well exactly when every `CALL` it reaches passes the check it makes. -/
theorem verifyCalls_iff {garbage : ℤ → ℤ → ℤ} {m : List (ℤ × ℤ)} (h : searchDepths fuel f begin = .ok r) :
    verifyCalls fuel garbage f begin m = .ok () ↔ CallsPass f m (fun u _ => garbage begin u) r := by
  obtain ⟨size, hsize, h⟩ := bind_eq_ok.mp h
  have hread : ∀ e ∈ r.log, ∃ inst next, readInst f e.1 = .ok (inst, next) := by
    intro e he
    obtain ⟨_, _, _, _, hv, -⟩ := (searches_of_search h).processed (R := fun _ _ => True)
      (fun _ => trivial) (fun _ _ _ _ _ => trivial) (fun _ _ _ _ _ _ _ => trivial) e he
    obtain ⟨⟨inst, next⟩, hi, -⟩ := bind_eq_ok.mp hv
    exact ⟨inst, next, hi⟩
  have hguard := search_guard (checkCall f (garbage begin) m) h
  rw [← visitCalls_eq] at hguard
  constructor
  · intro hv u layout ret offset argc next hmem hi
    obtain ⟨size', hsize', hv⟩ := bind_eq_ok.mp hv
    rw [hsize, Except.ok.injEq] at hsize'
    subst hsize'
    obtain ⟨r', hr', -⟩ := bind_eq_ok.mp hv
    exact (checkCall_eq_ok hi).mp (hguard.mp ⟨r', hr'⟩ _ hmem) ⟨ret, offset, argc, rfl⟩
  · intro hpass
    obtain ⟨r', hr'⟩ := hguard.mpr fun e he => by
      obtain ⟨inst, next, hi⟩ := hread e he
      refine (checkCall_eq_ok hi).mpr ?_
      rintro ⟨ret, offset, argc, rfl⟩
      exact hpass e.1 e.2 ret offset argc next he hi
    exact bind_eq_ok.mpr ⟨size, hsize, bind_eq_ok.mpr ⟨r', hr', rfl⟩⟩

/-- In an accepted body, `verify_calls` ends well, whatever the entries under the call targets are,
    exactly when every `CALL` it reaches has the arguments of its own callee, if and only if the words
    that the uninitialised offset holds at the calls stand for the functions that the calls enter. -/
theorem calls_checked_iff (h : verifyFunction fuel f begin captured = .ok args) {inst : Inst} {next : ℤ}
    (hi : readInst f begin = .ok (inst, next)) (hp : inst.isPrologue = true) (garbage : ℤ → ℤ → ℤ) :
    ∃ size r r', searchFunction fuel f begin captured = .ok (size, r) ∧
      searchDepths fuel f begin = .ok r' ∧
      ((∀ m : List (ℤ × ℤ), (∀ u offset depth, CallSite f r' u offset depth → m.lookup offset ≠ none) →
          (verifyCalls fuel garbage f begin m = .ok () ↔ CallsPass f m ownOffset r')) ↔
        StandIn f r (garbage begin)) := by
  obtain ⟨size, r, hs, -⟩ := bodyVerified_of_verifyFunction h
  obtain ⟨r', hr', hsites⟩ := searchDepths_ok hs hi hp
  refine ⟨size, r, r', hs, hr', ?_⟩
  rw [← standIn_congr hsites, standIn_iff,
    ← meets_iff_meets_iff (callDemands_finite _) (callDemands_finite _)]
  refine forall_congr' fun m => ?_
  rw [verifyCalls_iff hr', callsPass_iff, callsPass_iff]
  refine imp_congr_left ⟨?_, fun hm u offset depth hu => hm _ ⟨u, offset, depth, hu, rfl⟩⟩
  rintro hm - ⟨u, offset, depth, hu, rfl⟩
  exact hm u offset depth hu

/-- `BEGIN 0 0; CALL 0 0; END`: a function that calls itself. -/
def callSelf : List UInt8 :=
  82 :: intBytes 0 ++ intBytes 0 ++ 86 :: intBytes 0 ++ intBytes 0 ++ [22]

/-- The word is the offset of the call itself. -/
theorem calls_checked_iff_callSelf :
    ∃ r', searchDepths 30 (program 0 callSelf) 0 = .ok r' ∧
      ∀ m : List (ℤ × ℤ), (∀ u offset depth, CallSite (program 0 callSelf) r' u offset depth →
          m.lookup offset ≠ none) →
        (verifyCalls 30 (fun _ _ => 0) (program 0 callSelf) 0 m = .ok () ↔
          CallsPass (program 0 callSelf) m ownOffset r') := by
  have h : verifyFunction 30 (program 0 callSelf) 0 (-1) = .ok 0 := by decide +kernel
  have hi : readInst (program 0 callSelf) 0 = .ok (.begin 0 0, 9) := by decide +kernel
  have hs : (searchFunction 30 (program 0 callSelf) 0 (-1)).map (fun q => q.2.log.map Prod.fst) =
      .ok [0, 9, 18] := by decide +kernel
  obtain ⟨size, r, r', hr, hr', hiff⟩ := calls_checked_iff h hi rfl fun _ _ => 0
  refine ⟨r', hr', hiff.mpr (.of_own ?_)⟩
  rintro u offset depth ⟨layout, ret, argc, next, hu, -, hcall⟩
  have hlog : r.log.map Prod.fst = [0, 9, 18] := by
    rw [hr] at hs
    exact Except.ok.inj hs
  have hmem : u ∈ [0, 9, 18] := hlog ▸ List.mem_map_of_mem (f := Prod.fst) hu
  have hbegin : readInst (program 0 callSelf) 0 = .ok (.begin 0 0, 9) := by decide +kernel
  have hself : readInst (program 0 callSelf) 9 = .ok (.call 18 0 0, 18) := by decide +kernel
  have hend : readInst (program 0 callSelf) 18 = .ok (.end_, 19) := by decide +kernel
  simp only [List.mem_cons, List.not_mem_nil, or_false] at hmem
  rcases hmem with rfl | rfl | rfl
  · rw [hbegin] at hcall
    cases hcall
  · rw [hself] at hcall
    cases hcall
    rfl
  · rw [hend] at hcall
    cases hcall

/-- What the only call of `callSelf` needs to pass. -/
theorem callSelf_pass_iff {r : Result ℤ StackLayout (List ℤ)}
    (h : r.log.map (fun e => (e.1, e.2.locals)) = [(0, 0), (9, 0)]) {m : List (ℤ × ℤ)}
    {key : ℤ → ℤ → ℤ} :
    CallsPass (program 0 callSelf) m key r ↔ ∃ n, m.lookup (key 9 0) = some n ∧ n ≤ 0 := by
  have hcall : readInst (program 0 callSelf) 9 = .ok (.call 18 0 0, 18) := by decide +kernel
  have hbegin : readInst (program 0 callSelf) 0 = .ok (.begin 0 0, 9) := by decide +kernel
  constructor
  · intro hpass
    have hmem : ((9 : ℤ), (0 : ℤ)) ∈ r.log.map fun e => (e.1, e.2.locals) := by rw [h]; decide
    obtain ⟨⟨u, layout⟩, hlog, heq⟩ := List.mem_map.mp hmem
    rw [Prod.mk.injEq] at heq
    obtain ⟨rfl, hlocals⟩ := heq
    obtain ⟨n, hn, hle⟩ := hpass _ layout _ _ _ _ hlog hcall
    exact ⟨n, hn, hlocals ▸ hle⟩
  · rintro ⟨n, hn, hle⟩ u layout ret offset argc next hlog hi
    have hmem : (u, layout.locals) ∈ r.log.map fun e => (e.1, e.2.locals) :=
      List.mem_map.mpr ⟨_, hlog, rfl⟩
    rw [h, List.mem_cons, List.mem_singleton, Prod.mk.injEq, Prod.mk.injEq] at hmem
    rcases hmem with ⟨rfl, -⟩ | ⟨rfl, hlocals⟩
    · rw [hbegin] at hi
      cases hi
    · rw [hcall] at hi
      cases hi
      exact ⟨n, hn, hlocals ▸ hle⟩

/-- With an entry for the callee that the call meets, the check throws when the uninitialised word is
    no key; with an entry that the call does not meet, it passes when the word is the key of another. -/
theorem callSelf_misjudged :
    ∃ r, verifyFunction 30 (program 0 callSelf) 0 (-1) = .ok 0 ∧
      searchDepths 30 (program 0 callSelf) 0 = .ok r ∧
      (CallsPass (program 0 callSelf) [(0, 0)] ownOffset r ∧
        verifyCalls 30 (fun _ _ => 5) (program 0 callSelf) 0 [(0, 0)] =
          .error (.uncaught "std::out_of_range")) ∧
      ¬ CallsPass (program 0 callSelf) [(5, 0), (0, 1)] ownOffset r ∧
        verifyCalls 30 (fun _ _ => 5) (program 0 callSelf) 0 [(5, 0), (0, 1)] = .ok () := by
  have hs : (searchDepths 30 (program 0 callSelf) 0).map (fun r =>
      r.log.map fun e => (e.1, e.2.locals)) = .ok [(0, 0), (9, 0)] := by decide +kernel
  obtain ⟨r, hr, hlog⟩ := exists_of_map_eq_ok hs
  refine ⟨r, by decide +kernel, hr, ⟨?_, by decide +kernel⟩, ?_, by decide +kernel⟩
  · exact (callSelf_pass_iff hlog).mpr ⟨0, rfl, le_rfl⟩
  · intro hpass
    obtain ⟨n, hn, hle⟩ := (callSelf_pass_iff hlog).mp hpass
    have hone : some (1 : ℤ) = some n := hn
    cases hone
    omega

end Lama

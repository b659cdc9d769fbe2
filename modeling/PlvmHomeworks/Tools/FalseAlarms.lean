import PlvmHomeworks.Tools.ControlFlow
import PlvmHomeworks.Tools.Jumps
import PlvmHomeworks.Tools.Transfer
import Mathlib.Data.Int.Interval
import Mathlib.Data.Set.Card

/-! When `verify_function` accepts: a body that never takes more operands than it has, and whose calls
    do not enter it in its middle.

    The search keeps one depth per instruction, that of the first path to it. Its depths are above
    the true ones, since the operands that `CALL`, `CALLC`, `SEXP` and `BARRAY` consume are not
    counted, and grow by at most two for each instruction dequeued. What can mislead it is the edge
    from a `CALL` or `CLOSURE` to its target, when the target lies in the body. -/

namespace Lama
open Outcome Worklist Relation

/-- Control flow in a frame of the function at `begin` comes to `u` with `d` operands above the
    locals. -/
inductive TrueDepth (f : Bytefile) (begin : ℤ) : ℤ → ℤ → Prop
  | prologue {inst : Inst} {next : ℤ} : readInst f begin = .ok (inst, next) →
      inst.isPrologue = true → TrueDepth f begin next 0
  | step {u d v next : ℤ} {inst : Inst} : TrueDepth f begin u d → readInst f u = .ok (inst, next) →
      inst.isPrologue = false → v ∈ inst.frameSuccessors next →
      TrueDepth f begin v (d + (inst.leaves - inst.takes))

/-- The index of a global or a local is in range, and a captured variable is named in a closure. -/
def LocationEntry.InRange (globals locals : ℤ) (closure : Bool) (l : LocationEntry) : Prop :=
  (l.location = some .global → 0 ≤ l.index ∧ l.index < globals) ∧
    (l.location = some .local_ → 0 ≤ l.index ∧ l.index < locals) ∧
    (l.location = some .captured → closure = true)

instance {globals locals : ℤ} {closure : Bool} {l : LocationEntry} :
    Decidable (l.InRange globals locals closure) :=
  inferInstanceAs (Decidable (_ ∧ _ ∧ _))

/-- The prologue of a function or of a closure. -/
def prologueInst (closure : Bool) (argc locc : ℤ) : Inst :=
  if closure then .cbegin argc locc else .begin argc locc

/-- A body that a compiler may produce: it decodes up to its first `END`, its jumps lead to its own
    instructions, no path takes operands that are not there, and its variables exist. -/
structure CleanBody (f : Bytefile) (begin e : ℤ) (closure : Bool) (argc locc : ℤ) : Prop where
  scan : Scan f begin e
  end_ : readInst f e = .ok (.end_, e + 1)
  prologue : ∃ next, readInst f begin = .ok (prologueInst closure argc locc, next)
  locals_nonneg : 0 ≤ locc
  small : locc + 2 * {u | BodyStart f begin u}.ncard < 2 ^ 31
  jumps : ∀ u inst next, BodyStart f begin u → readInst f u = .ok (inst, next) →
    ∀ t ∈ inst.jumpTargets, BodyStart f begin t
  depth : ∀ u d, TrueDepth f begin u d → 0 ≤ d
  locations : ∀ u inst next, BodyStart f begin u → readInst f u = .ok (inst, next) →
    ∀ l ∈ inst.locations, l.InRange f.globalAreaSize locc closure

/-- The function that a `CALL` or a `CLOSURE` names. -/
def Inst.callTargets : Inst → List ℤ
  | .call _ target _ | .closure target _ => [target]
  | _ => []

/-- No `CALL` and no `CLOSURE` that control flow comes to has its target strictly inside the body. -/
def NoInnerEntry (f : Bytefile) (begin e : ℤ) : Prop :=
  ∀ u d inst next, TrueDepth f begin u d → readInst f u = .ok (inst, next) →
    ∀ t ∈ inst.callTargets, ¬ (begin < t ∧ t ≤ e)

variable {f : Bytefile} {begin e argc locc : ℤ} {closure : Bool}

/-! ### One instruction -/

theorem leaves_le_counted (inst : Inst) (hp : inst.isPrologue = false) :
    (inst.leaves : ℤ) - inst.takes ≤ inst.counted ∧ inst.counted ≤ 2 := by
  cases inst
  case patt p => cases p <;> simp [Inst.leaves, Inst.takes, Inst.counted, Inst.pushes, Inst.pops]
  case begin => cases hp
  case cbegin => cases hp
  all_goals
    simp only [Inst.leaves, Inst.takes, Inst.counted, Inst.pushes, Inst.pops]
    omega

/-- What the search follows besides control flow are the targets of calls. -/
theorem successors_cases {inst : Inst} {next s : ℤ} (h : s ∈ successorsFunctor next inst) :
    s ∈ inst.frameSuccessors next ∨ s ∈ inst.callTargets := by
  cases inst <;> simp_all [successorsFunctor, Inst.frameSuccessors, Inst.callTargets] <;> tauto

/-- An instruction without a successor in its frame leaves the depth alone. -/
theorem counted_of_no_successor {inst : Inst} {next : ℤ} (h : inst.frameSuccessors next = []) :
    inst.counted = 0 := by
  cases inst <;> first | rfl | cases h

theorem loadLocation_of_checked {layout : StackLayout} {l : LocationEntry}
    (h : LocationChecked layout l) : ∃ layout', loadLocation layout l = .ok layout' := by
  obtain ⟨hg, hl, hc⟩ := h
  unfold loadLocation
  split
  · next heq =>
    have := hg heq
    exact ⟨_, by rw [ensure_of (by omega)]; rfl⟩
  · next heq =>
    have := hl heq
    exact ⟨_, by rw [ensure_of (by omega)]; rfl⟩
  · exact ⟨_, rfl⟩
  · next heq => exact ⟨_, by rw [ensure_of (hc heq)]; rfl⟩
  · exact ⟨_, rfl⟩

theorem loadLocations_of_checked : ∀ {ls : List LocationEntry} {layout : StackLayout},
    (∀ l ∈ ls, LocationChecked layout l) → ∃ layout', loadLocations layout ls = .ok layout'
  | [], layout, _ => ⟨layout, rfl⟩
  | l :: ls, layout, h => by
    obtain ⟨layout₁, h₁⟩ := loadLocation_of_checked (h l List.mem_cons_self)
    obtain ⟨⟨hg, hlo, hc⟩, -⟩ := loadLocation_ok h₁
    have hls : ∀ k ∈ ls, LocationChecked layout₁ k := fun k hk => by
      have := h k (List.mem_cons_of_mem _ hk)
      rwa [LocationChecked, hg, hlo, hc]
    obtain ⟨layout₂, h₂⟩ := loadLocations_of_checked hls
    exact ⟨layout₂, by rw [loadLocations, h₁]; exact h₂⟩

/-- A turn of the body search goes well when the locations pass and the depth stays above 0. -/
theorem visitFunction_of {size u next : ℤ} {jumps : List ℤ} {layout : StackLayout} {inst : Inst}
    (hi : readInst f u = .ok (inst, next)) (hl : ∀ l ∈ inst.locations, LocationChecked layout l)
    (hd : 0 ≤ depthAfter layout.locals inst) :
    ∃ v, visitFunction f begin size jumps u layout = .ok v := by
  obtain ⟨layout₁, h₁⟩ := loadLocations_of_checked hl
  obtain ⟨⟨jumps', layout'⟩, hsd⟩ : ∃ p, stackDepthFunctor jumps layout inst = .ok p :=
    ⟨_, bind_eq_ok.mpr ⟨layout₁, h₁, rfl⟩⟩
  have hlocals := (stackDepthFunctor_ok hsd).2.2.1
  refine ⟨_, bind_eq_ok.mpr ⟨_, hi, bind_eq_ok.mpr ⟨_, hsd, bind_eq_ok.mpr ⟨(), ?_, rfl⟩⟩⟩⟩
  exact ensure_of (by rw [hlocals]; omega)

/-! ### The turns of the search -/

namespace CleanBody

variable (h : CleanBody f begin e closure argc locc)
include h

theorem starts_finite : {u | BodyStart f begin u}.Finite :=
  (Set.finite_Icc begin e).subset fun _ hu => ⟨(h.scan.bodyStart hu).1, (h.scan.bodyStart hu).2.1⟩

theorem decoded {u : ℤ} (hu : BodyStart f begin u) : ∃ inst next, readInst f u = .ok (inst, next) := by
  rcases (h.scan.bodyStart hu).2.2.1 with rfl | ⟨next, ⟨inst, hi, -⟩, -⟩
  · exact ⟨_, _, h.end_⟩
  · exact ⟨inst, next, hi⟩

theorem not_prologue {u next : ℤ} {inst : Inst} (hu : BodyStart f begin u) (hne : u ≠ begin)
    (hi : readInst f u = .ok (inst, next)) : inst.isPrologue = false := by
  obtain ⟨y, hy, hp⟩ := (h.scan.bodyStart hu).2.2.2 hne
  exact Bool.eq_false_iff.mpr fun hpro => hp ((readInst_prologue_iff hi hy).mp hpro)

/-- The successor of an instruction in its frame starts an instruction of the body. -/
theorem successor_start {u next s : ℤ} {inst : Inst} (hu : BodyStart f begin u)
    (hi : readInst f u = .ok (inst, next)) (hs : s ∈ inst.frameSuccessors next) :
    BodyStart f begin s := by
  rcases frameSuccessors_cases hs with ⟨rfl, hend⟩ | ht
  · exact hu.tail ⟨inst, hi, hend⟩
  · exact h.jumps u inst next hu hi s ht

end CleanBody

/-- What the `k`-th turn of the search of a clean body starts from: the first instruction, or one that
    control flow comes to, with a depth between the true one and what `k` turns can add up to. -/
def TurnOk (f : Bytefile) (begin : ℤ) (closure : Bool) (locc : ℤ) (k : ℕ) (u : ℤ)
    (layout : StackLayout) : Prop :=
  layout.globals = f.globalAreaSize ∧ BodyStart f begin u ∧
    (u = begin ∨ layout.isClosure = closure ∧ layout.locals ≤ locc + 2 * k ∧
      ∃ d, TrueDepth f begin u d ∧ locc + d ≤ layout.locals)

theorem TurnOk.mono {k : ℕ} {u : ℤ} {layout : StackLayout} (h : TurnOk f begin closure locc k u layout) :
    TurnOk f begin closure locc (k + 1) u layout := by
  obtain ⟨hg, hu, rfl | ⟨hc, hub, hd⟩⟩ := h
  · exact ⟨hg, hu, Or.inl rfl⟩
  · exact ⟨hg, hu, Or.inr ⟨hc, by omega, hd⟩⟩

/-- The depth after an instruction that control flow comes to: no wrap, and still between the bounds. -/
theorem CleanBody.depthAfter_bounds (h : CleanBody f begin e closure argc locc) {k : ℕ} {u d next locals : ℤ}
    {inst : Inst} (hk : k < {u | BodyStart f begin u}.ncard) (hub : locals ≤ locc + 2 * k)
    (hd : TrueDepth f begin u d) (hlb : locc + d ≤ locals) (hi : readInst f u = .ok (inst, next))
    (hp : inst.isPrologue = false) :
    0 ≤ depthAfter locals inst ∧ depthAfter locals inst ≤ locc + 2 * (k + 1) ∧
      locc + (d + (inst.leaves - inst.takes)) ≤ depthAfter locals inst := by
  have hpos := h.locals_nonneg
  have hsmall := h.small
  have hdpos := h.depth u d hd
  have hk3 := (@counted_le inst).1
  obtain ⟨hle, h2⟩ := leaves_le_counted inst hp
  have hint : IsInt locals := ⟨by omega, by omega⟩
  have hint' : IsInt (locals + inst.counted) := ⟨by omega, by omega⟩
  rw [depthAfter_eq hint hp, toInt32_of_isInt hint']
  refine ⟨?_, by omega, by omega⟩
  cases hs : inst.frameSuccessors next with
  | nil =>
    rw [counted_of_no_successor hs]
    omega
  | cons v vs =>
    have := h.depth v _ (hd.step hi hp (hs ▸ List.mem_cons_self))
    omega

/-- One turn: it goes well, and hands on what the next turns start from. -/
theorem CleanBody.turn (h : CleanBody f begin e closure argc locc) (hin : NoInnerEntry f begin e) {k : ℕ}
    {u : ℤ} {layout : StackLayout} (hk : k < {u | BodyStart f begin u}.ncard)
    (hok : TurnOk f begin closure locc k u layout) (jumps : List ℤ) :
    (∃ v, visitFunction f begin (e - begin + 1) jumps u layout = .ok v) ∧
      ∀ jumps' layout' ss, visitFunction f begin (e - begin + 1) jumps u layout =
        .ok (jumps', layout', ss) → ∀ s ∈ ss, TurnOk f begin closure locc (k + 1) s layout' := by
  obtain ⟨hg, hu, hcase⟩ := hok
  by_cases hub : u = begin
  · subst hub
    obtain ⟨next, hi⟩ := h.prologue
    have hdepth : depthAfter layout.locals (prologueInst closure argc locc) = locc := by
      cases closure <;> rfl
    have hlocs : (prologueInst closure argc locc).locations = [] := by cases closure <;> rfl
    refine ⟨visitFunction_of hi (by rw [hlocs]; exact fun l hl => absurd hl List.not_mem_nil)
      (by rw [hdepth]; exact h.locals_nonneg), ?_⟩
    intro jumps' layout' ss hv s hs
    obtain ⟨inst', next', hi', hd, -, rfl⟩ := visitFunction_ok hv
    rw [hi] at hi'
    cases hi'
    have hclosure : layout'.isClosure = closure := by cases closure <;> cases hd <;> rfl
    have hlayout := stackDepthFunctor_ok hd
    have hnext : s = next := by
      have := (List.mem_filter.mp hs).1
      cases closure <;> exact List.mem_singleton.mp this
    subst hnext
    have hpro : (prologueInst closure argc locc).isPrologue = true := by cases closure <;> rfl
    have hstep : LinearStep f u s := ⟨_, hi, by cases closure <;> exact Inst.noConfusion⟩
    refine ⟨hlayout.2.1.trans hg, hu.tail hstep, Or.inr ⟨hclosure, ?_, 0, .prologue hi hpro, ?_⟩⟩
    · rw [hlayout.2.2.1, hdepth]
      omega
    · rw [hlayout.2.2.1, hdepth]
      omega
  · obtain ⟨hc, hle, d, hd, hge⟩ := hcase.resolve_left hub
    obtain ⟨inst, next, hi⟩ := h.decoded hu
    have hp := h.not_prologue hu hub hi
    obtain ⟨h0, h1, h2⟩ := h.depthAfter_bounds hk hle hd hge hi hp
    have hdpos := h.depth u d hd
    have hlocs : ∀ l ∈ inst.locations, LocationChecked layout l := by
      intro l hl
      obtain ⟨hglob, hloc, hcap⟩ := h.locations u inst next hu hi l hl
      refine ⟨fun heq => ?_, fun heq => ?_, fun heq => ?_⟩
      · have := hglob heq
        omega
      · have := hloc heq
        omega
      · rw [hc, hcap heq]
    refine ⟨visitFunction_of hi hlocs h0, ?_⟩
    intro jumps' layout' ss hv s hs
    obtain ⟨inst', next', hi', hsd, -, rfl⟩ := visitFunction_ok hv
    rw [hi] at hi'
    cases hi'
    obtain ⟨-, hg', hl', hc', -⟩ := stackDepthFunctor_ok hsd
    obtain ⟨hmem, hrange⟩ := List.mem_filter.mp hs
    have hrange := of_decide_eq_true hrange
    rcases successors_cases hmem with hframe | htarget
    · refine ⟨hg'.trans hg, h.successor_start hu hi hframe, Or.inr ⟨(hc' hp).trans hc, ?_, _,
        hd.step hi hp hframe, ?_⟩⟩
      · rw [hl']
        omega
      · rw [hl']
        exact h2
    · -- a call into the body enters it at its start, which is visited
      have hno := hin u d inst next hd hi s htarget
      obtain rfl : s = begin := by omega
      exact ⟨hg'.trans hg, .refl, Or.inl rfl⟩

/-! ### Bodies given by a list -/

/-- The instruction at the first component is harmless at the depth that is the second one, its jumps
    lead to instructions of the body, the instruction after it is listed, and so are those that
    control flow leads to, with the depth it leaves. -/
def ListedAt (f : Bytefile) (begin : ℤ) (closure : Bool) (locc : ℤ) (depths : List (ℤ × ℤ)) (p : ℤ × ℤ) :
    Prop :=
  0 ≤ p.2 ∧ ∀ r ∈ (readInst f p.1).toOption,
    (∀ t ∈ r.1.jumpTargets, t ∈ linearStarts f depths.length begin) ∧
      (∀ l ∈ r.1.locations, l.InRange f.globalAreaSize locc closure) ∧
      (r.1 = .end_ ∨ ∃ q ∈ depths, q.1 = r.2) ∧
      ∀ v ∈ r.1.frameSuccessors r.2, (v, p.2 + (r.1.leaves - r.1.takes)) ∈ depths

instance {depths : List (ℤ × ℤ)} {p : ℤ × ℤ} : Decidable (ListedAt f begin closure locc depths p) :=
  inferInstanceAs (Decidable (_ ∧ _))

section
variable {depths : List (ℤ × ℤ)} (hall : ∀ p ∈ depths, ListedAt f begin closure locc depths p)
  (hbegin : (begin, 0) ∈ depths)
include hall

theorem listed_at {p : ℤ × ℤ} (hp : p ∈ depths) {inst : Inst} {next : ℤ}
    (hi : readInst f p.1 = .ok (inst, next)) :
    (∀ t ∈ inst.jumpTargets, t ∈ linearStarts f depths.length begin) ∧
      (∀ l ∈ inst.locations, l.InRange f.globalAreaSize locc closure) ∧
      (inst = .end_ ∨ ∃ q ∈ depths, q.1 = next) ∧
      ∀ v ∈ inst.frameSuccessors next, (v, p.2 + (inst.leaves - inst.takes)) ∈ depths :=
  (hall p hp).2 (inst, next) (by rw [hi]; rfl)

include hbegin

theorem BodyStart.listed {u : ℤ} (hu : BodyStart f begin u) : ∃ d, (u, d) ∈ depths := by
  induction hu with
  | refl => exact ⟨0, hbegin⟩
  | tail _ hstep ih =>
    obtain ⟨d, hd⟩ := ih
    obtain ⟨inst, hi, hend⟩ := hstep
    obtain ⟨q, hq, rfl⟩ := (listed_at hall hd hi).2.2.1.resolve_left hend
    exact ⟨q.2, hq⟩

theorem TrueDepth.listed {u d : ℤ} (hd : TrueDepth f begin u d) : (u, d) ∈ depths := by
  induction hd with
  | @prologue inst next hi hp =>
    have hnext := (listed_at hall hbegin hi).2.2.2 next
    cases inst <;> first | exact hnext List.mem_cons_self | cases hp
  | step _ hi _ hs ih => exact (listed_at hall ih hi).2.2.2 _ hs

/-- The calls of the listed instructions do not enter the body in its middle. -/
theorem noInnerEntry_of_listed (hcalls : ∀ p ∈ depths, ∀ r ∈ (readInst f p.1).toOption,
    ∀ t ∈ r.1.callTargets, ¬ (begin < t ∧ t ≤ e)) : NoInnerEntry f begin e := by
  intro u d inst next hd hi t ht
  exact hcalls _ (hd.listed hall hbegin) (inst, next) (by rw [hi]; rfl) t ht

/-- A body is clean when a list of its instructions with their depths says so. -/
theorem CleanBody.of_listed {fuel : ℕ} (hscan : scanFunction f begin fuel begin 2 = .ok (e - begin + 1))
    (hne : e ≠ begin + 1) (hend : readInst f e = .ok (.end_, e + 1))
    (hpro : ∃ next, readInst f begin = .ok (prologueInst closure argc locc, next))
    (hlocc : 0 ≤ locc) (hsmall : locc + 2 * depths.length < 2 ^ 31) :
    CleanBody f begin e closure argc locc where
  scan := by
    obtain ⟨e', he', ⟨-, hsize⟩ | hsize⟩ := scan_of_scanFunction hscan
    · omega
    · obtain rfl : e' = e := by omega
      exact he'
  end_ := hend
  prologue := hpro
  locals_nonneg := hlocc
  small := by
    have hsub : {u | BodyStart f begin u} ⊆ ((depths.map Prod.fst).toFinset : Set ℤ) := by
      intro u hu
      obtain ⟨d, hd⟩ := BodyStart.listed hall hbegin hu
      exact List.mem_toFinset.mpr (List.mem_map.mpr ⟨_, hd, rfl⟩)
    have hcard := Set.ncard_le_ncard hsub (Finset.finite_toSet _)
    rw [Set.ncard_coe_finset] at hcard
    have hlen := (depths.map Prod.fst).toFinset_card_le
    rw [List.length_map] at hlen
    omega
  jumps u inst next hu hi t ht := by
    obtain ⟨d, hd⟩ := BodyStart.listed hall hbegin hu
    exact bodyStart_of_mem ((listed_at hall hd hi).1 t ht)
  depth u d hd := (hall _ (TrueDepth.listed hall hbegin hd)).1
  locations u inst next hu hi := by
    obtain ⟨d, hd⟩ := BodyStart.listed hall hbegin hu
    exact (listed_at hall hd hi).2.1

end

/-! ### The whole of `verify_function` -/

/-- The search of a clean body comes to its end. -/
theorem CleanBody.search_ok (h : CleanBody f begin e closure argc locc) (hin : NoInnerEntry f begin e)
    {fuel : ℕ} (hfuel : e - begin < fuel) (captured : ℤ) :
    ∃ r, search (visitFunction f begin (e - begin + 1)) .outOfFuel fuel [] [begin]
        [(begin, initialLayout f captured (decide (captured ≥ 0)))] = .ok r ∧
      ∀ v ∈ r.log, BodyStart f begin v.1 := by
  have hle := h.scan.le
  -- every turn starts from an instruction of the body
  have turns : ∀ s u p, Worklist.Visits (visitFunction f begin (e - begin + 1)) [] [begin]
      [(begin, initialLayout f captured (decide (captured ≥ 0)))] s u p →
      ∃ k, k < {u | BodyStart f begin u}.ncard ∧ TurnOk f begin closure locc k u p := by
    intro s u p hv
    have hmem : begin ∈ h.starts_finite.toFinset := h.starts_finite.mem_toFinset.mpr .refl
    refine hv.payload_count (P := TurnOk f begin closure locc) (U := h.starts_finite.toFinset)
      (fun k u p hok => hok.mono) ?_ 0 ?_ ?_
    · intro k st u p st' p' ss hk hok hturn s hs
      have hnext := (h.turn hin hk hok st).2 st' p' ss hturn s hs
      exact ⟨h.starts_finite.mem_toFinset.mpr hnext.2.1, hnext⟩
    · have hcard := Finset.card_erase_add_one hmem
      rw [List.toFinset_cons, List.toFinset_nil, insert_empty_eq, Finset.sdiff_singleton_eq_erase,
        List.length_singleton, Set.ncard_eq_toFinset_card _ h.starts_finite]
      omega
    · intro v hv
      rw [List.mem_singleton.mp hv]
      exact ⟨rfl, .refl, Or.inl rfl⟩
  -- so none of them fails, and the fuel is enough for all bytes of the body
  have hU : ∀ s u p s' p' ss, visitFunction f begin (e - begin + 1) s u p = .ok (s', p', ss) →
      ∀ v ∈ ss, v ∈ Finset.Icc begin e := by
    intro s u p s' p' ss hv v hmem
    obtain ⟨inst, next, -, -, -, rfl⟩ := visitFunction_ok hv
    have := of_decide_eq_true (List.mem_filter.mp hmem).2
    exact Finset.mem_Icc.mpr ⟨by omega, by omega⟩
  have hnofail : ErrorsIn (fun _ => False) (search (visitFunction f begin (e - begin + 1)) .outOfFuel
      fuel [] [begin] [(begin, initialLayout f captured (decide (captured ≥ 0)))]) := by
    refine (search_errorsIn hU ?_).mpr fun s u p hv => ?_
    · have hmem : begin ∈ Finset.Icc begin e := Finset.mem_Icc.mpr ⟨le_rfl, hle⟩
      have hcard := Finset.card_erase_add_one hmem
      rw [Int.card_Icc] at hcard
      rw [List.toFinset_cons, List.toFinset_nil, insert_empty_eq, Finset.sdiff_singleton_eq_erase,
        List.length_singleton]
      omega
    · obtain ⟨k, hk, hok⟩ := turns s u p hv
      obtain ⟨⟨v, hv⟩, -⟩ := h.turn hin hk hok s
      rw [hv]
      exact errorsIn_ok
  cases hr : search (visitFunction f begin (e - begin + 1)) .outOfFuel fuel [] [begin]
      [(begin, initialLayout f captured (decide (captured ≥ 0)))] with
  | error stop => exact absurd hr fun hr => hnofail stop hr
  | ok r =>
    refine ⟨r, rfl, fun v hv => ?_⟩
    obtain ⟨s, hvisit⟩ := (searches_of_search hr).visits_of_logged v hv
    obtain ⟨k, -, hok⟩ := turns s v.1 v.2 hvisit
    exact hok.2.1

/-- The jumps that a search collects are those of the instructions it dequeued. -/
theorem jumps_of_searches {size : ℤ} {jumps vis : List ℤ} {q : List (ℤ × StackLayout)}
    {r : Result ℤ StackLayout (List ℤ)} (h : Searches (visitFunction f begin size) jumps vis q r) :
    ∀ t ∈ r.state, t ∈ jumps ∨ ∃ v ∈ r.log, ∃ inst next, readInst f v.1 = .ok (inst, next) ∧
      t ∈ inst.jumpTargets := by
  induction h with
  | done => exact fun t ht => Or.inl ht
  | @step st st' vis u p p' ss q r hv hs ih =>
    intro t ht
    obtain ⟨inst, next, hi, hd, -, -⟩ := visitFunction_ok hv
    rcases ih t ht with ht | ⟨v, hv, hrest⟩
    · rw [(stackDepthFunctor_ok hd).1] at ht
      rcases List.mem_append.mp ht with ht | ht
      · exact Or.inl ht
      · exact Or.inr ⟨(u, p), List.mem_cons_self, inst, next, hi, ht⟩
    · exact Or.inr ⟨v, List.mem_cons_of_mem _ hv, hrest⟩

/-- On a clean body that no call enters in its middle, `verify_function` returns. -/
theorem no_false_alarm (h : CleanBody f begin e closure argc locc) (hin : NoInnerEntry f begin e)
    {fuel : ℕ} (hfuel : e - begin < fuel) (captured : ℤ) :
    verifyFunction fuel f begin captured = .ok 0 := by
  obtain ⟨r, hr, hlog⟩ := h.search_ok hin hfuel captured
  obtain ⟨next, hpro⟩ := h.prologue
  have hne : begin ≠ e := by
    intro heq
    have hend := h.end_
    rw [← heq, hpro] at hend
    cases closure <;> cases hend
  have hscan := @scanFunction_of_scan f begin begin e h.scan fuel 2 hfuel
  rw [if_neg hne] at hscan
  have hjumps : checkJumps begin (e - begin + 1) r.state = .ok () := by
    refine checkJumps_of fun t ht => ?_
    rcases jumps_of_searches (searches_of_search hr) t ht with hnil | ⟨v, hv, inst, next, hi, ht⟩
    · exact absurd hnil List.not_mem_nil
    · have := (h.scan.bodyStart (h.jumps v.1 inst next (hlog v hv) hi t ht)).2.1
      have := BodyStart.le (h.jumps v.1 inst next (hlog v hv) hi t ht)
      omega
  have hs : searchFunction fuel f begin captured = .ok (e - begin + 1, r) :=
    bind_eq_ok.mpr ⟨_, hscan, bind_eq_ok.mpr ⟨_, hr, rfl⟩⟩
  exact bind_eq_ok.mpr ⟨_, hs, bind_eq_ok.mpr ⟨(), hjumps, rfl⟩⟩

/-- The instructions of `countDown`, each with its depth. -/
def countDownDepths : List (ℤ × ℤ) :=
  [(0, 0), (9, 0), (14, 1), (19, 1), (20, 0), (25, 1), (30, 0), (35, 1), (40, 2), (41, 1), (46, 1), (47, 0),
    (52, 0), (57, 1)]

theorem no_false_alarm_countDown :
    CleanBody (program 0 countDown) 0 57 false 0 1 ∧ NoInnerEntry (program 0 countDown) 0 57 ∧
      verifyFunction 60 (program 0 countDown) 0 (-1) = .ok 0 := by
  have hall : ∀ p ∈ countDownDepths, ListedAt (program 0 countDown) 0 false 1 countDownDepths p := by
    decide +kernel
  have hscan : scanFunction (program 0 countDown) 0 60 0 2 = .ok 58 := by decide +kernel
  have hclean : CleanBody (program 0 countDown) 0 57 false 0 1 :=
    .of_listed hall (by decide) hscan (by decide) (by decide +kernel) ⟨9, by decide +kernel⟩ (by decide)
      (by decide)
  have hin : NoInnerEntry (program 0 countDown) 0 57 :=
    noInnerEntry_of_listed hall (by decide) (by decide +kernel)
  exact ⟨hclean, hin, no_false_alarm hclean hin (by decide) (-1)⟩

/-- `BEGIN 0 0; CALL 19 0; CONST 82; CONST -1; END`. From byte 19 on, the operands of the two `CONST`
    read as a `BEGIN` with -1 locals. -/
def callIntoConst : List UInt8 :=
  82 :: intBytes 0 ++ intBytes 0 ++ 86 :: intBytes 19 ++ intBytes 0 ++ 16 :: intBytes 82 ++
    [16, 255, 255, 255, 255, 22]

/-- The search goes on at the target of the `CALL`, in the middle of a `CONST`. -/
theorem callIntoConst_alarm :
    CleanBody (program 0 callIntoConst) 0 28 false 0 0 ∧
      Reported (verifyFunction 40 (program 0 callIntoConst) 0 (-1)) := by
  have hall : ∀ p ∈ [(0, 0), (9, 0), (18, 1), (23, 2), (28, 3)], ListedAt (program 0 callIntoConst) 0 false 0
      [(0, 0), (9, 0), (18, 1), (23, 2), (28, 3)] p := by decide +kernel
  have hscan : scanFunction (program 0 callIntoConst) 0 40 0 2 = .ok 29 := by decide +kernel
  exact ⟨.of_listed hall (by decide) hscan (by decide) (by decide +kernel) ⟨9, by decide +kernel⟩ (by decide)
    (by decide), "Stack underflow at offset 0x%.8x", [19], by decide +kernel⟩

end Lama

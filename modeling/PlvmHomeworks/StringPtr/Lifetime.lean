import PlvmHomeworks.StringPtr.Ownership

/-! Lifetimes of CStrings.

    No sequence of operations on StringPtrs uses a deleted CString, deletes one twice or makes
    dec_ref_count throw. A CString is deleted by the operation in which its last owner lets it go,
    unless its counter has been saturated: then it stays for good. -/

namespace StringPtr
open Holders

variable {L : ℕ} {s t : State} {c : ℕ} {ops : List Op}

/-- The CString is deleted in an operation of the run, before which it has one owner and after which
    it has none. -/
def LetGo (L c : ℕ) (ops : List Op) : Prop :=
  ∃ before o after u v p, ops = before ++ o :: after ∧
    Events.exec (step L) (.ok (init L)) before = some (.ok u) ∧ step L (.ok u) o = some (.ok v) ∧
    owners u c = {p} ∧ owners v c = ∅ ∧ c ∉ u.deleted ∧ c ∈ v.deleted

/-- At some moment of the run the counter of the CString was saturated. -/
def EverSaturated (L c : ℕ) (ops : List Op) : Prop :=
  Events.Since (step L) (.ok (init L)) (fun _ => False) (fun r => ∃ u x, r = .ok u ∧
    u.strings c = some x ∧ x.refCount L = REF_COUNT_SATURATION L) ops

/-- The CStrings after the operations of a run. -/
structure Sound (L : ℕ) (ops : List Op) (s : State) : Prop where
  alive : ∀ p c, s.cstr p = some c → c ∉ s.deleted ∧ ∃ x, s.strings c = some x
  once : s.deleted.Nodup
  gone : ∀ c ∈ s.deleted, s.strings c = none
  last : ∀ c ∈ s.deleted, LetGo L c ops
  null : nullString ∉ s.deleted
  counts : ∀ c x, s.strings c = some x → x.refCount L < REF_COUNT_SATURATION L →
    (owners s c).encard = (x.refCount L).toNat + 1
  prompt : ∀ c < s.next, ¬ EverSaturated L c ops → owners s c = ∅ → c ∈ s.deleted
  address : ∀ before after u, ops = before ++ after →
    Events.exec (step L) (.ok (init L)) before = some (.ok u) →
    ∀ c x y, u.strings c = some x → s.strings c = some y → y.cStr L = x.cStr L

/-- At first there is null_string only. -/
theorem init_strings {x : CString} : (init L).strings c = some x ↔
    c = nullString ∧ x = CString.construct L none := by
  by_cases hc : c = nullString
  · subst hc
    simp [init, eq_comm]
  · simp [init, hc]

theorem refCount_construct_none :
    (CString.construct L none).refCount L = REF_COUNT_SATURATION L :=
  and_mask_of_le (BitVec.le_refl _)

theorem Inv.init (L : ℕ) : Inv L (init L) where
  null := ⟨_, init_strings.mpr ⟨rfl, rfl⟩, refCount_construct_none⟩
  born c x hx := by
    rw [(init_strings.mp hx).1]
    exact Nat.one_pos
  alive _ _ hp := by cases hp
  counts c x hx hne := by
    rw [(init_strings.mp hx).2] at hne
    exact absurd refCount_construct_none hne
  once := List.nodup_nil
  gone c := by
    refine ⟨fun hc => absurd hc List.not_mem_nil, fun ⟨hlt, hnone⟩ => ?_⟩
    obtain rfl : c = nullString := Nat.lt_one_iff.mp hlt
    rw [init_strings.mpr ⟨rfl, rfl⟩] at hnone
    cases hnone

/-- An operation that is enabled ends without a fault, and keeps the counters. -/
theorem run_effect {o : Op} (h : Inv L s) (hL : 1 ≤ L) (hsptr : s.cstr .sptr = none)
    (henabled : o.Enabled L s) : ∃ t f dels, o.run L s = .ok t ∧ Effect L s f dels t ∧
      f .sptr = none := by
  have hidle : ∀ {n v}, Function.update s.cstr (.var n) v .sptr = none := fun {n v} =>
    (Function.update_of_ne (by simp) ..).trans hsptr
  have hlive : ∀ {n}, s.cstr (.var n) ≠ none → ∃ c, s.cstr (.var n) = some c :=
    fun hn => Option.ne_none_iff_exists'.mp hn
  cases o with
  | construct n => exact ⟨_, _, _, rfl, construct_effect h henabled, hidle⟩
  | constructFrom n str =>
    exact ⟨_, _, _, rfl, constructFrom_effect h henabled.1 henabled.2, hidle⟩
  | copyConstruct n m =>
    obtain ⟨d, hd⟩ := hlive henabled.2
    obtain ⟨t, ht, heffect⟩ := copyConstruct_effect h henabled.1 hd
    exact ⟨t, _, _, ht, heffect, hidle⟩
  | moveConstruct n m =>
    obtain ⟨d, hd⟩ := hlive henabled.2
    obtain ⟨t, ht, heffect⟩ := moveConstruct_effect h henabled.1 hd
    exact ⟨t, _, _, ht, heffect, (Function.update_of_ne (by simp) ..).trans hidle⟩
  | copyAssign n m =>
    obtain ⟨c, hc⟩ := hlive henabled.1
    obtain ⟨d, hd⟩ := hlive henabled.2
    obtain ⟨t, dels, ht, heffect⟩ := copyAssign_effect h hL hc hsptr hd
    exact ⟨t, _, dels, ht, heffect, hidle⟩
  | moveAssign n m =>
    obtain ⟨c, hc⟩ := hlive henabled.1
    obtain ⟨d, hd⟩ := hlive henabled.2
    by_cases hne : Place.var n = .var m
    · exact ⟨s, s.cstr, [], if_pos hne, ⟨h, .refl L s, rfl, (List.append_nil _).symm, by simp⟩,
        hsptr⟩
    · obtain ⟨t, dels, ht, heffect⟩ := moveAssign_effect h hL hc hd hne
      exact ⟨t, _, dels, ht, heffect, (Function.update_of_ne (by simp) ..).trans hidle⟩
  | assign n str =>
    obtain ⟨c, hc⟩ := hlive henabled.1
    obtain ⟨t, dels, ht, heffect⟩ := assign_effect h hL hc hsptr henabled.2
    exact ⟨t, _, dels, ht, heffect, hidle⟩
  | destroy n =>
    obtain ⟨c, hc⟩ := hlive henabled
    obtain ⟨t, dels, ht, -, heffect⟩ := destroy_effect h hL hc
    exact ⟨t, _, dels, ht, heffect, hidle⟩

/-- Between two operations the invariant holds and the local variable is out of scope. -/
def Settled (L : ℕ) (r : Except Fault State) : Prop :=
  ∃ s, r = .ok s ∧ Inv L s ∧ s.cstr .sptr = none

theorem Settled.step {r r' : Except Fault State} {o : Op} (h : Settled L r) (hL : 1 ≤ L)
    (hstep : step L r o = some r') : ∃ s t f dels, r = .ok s ∧ r' = .ok t ∧
      Effect L s f dels t ∧ Settled L r' := by
  obtain ⟨s, rfl, hinv, hsptr⟩ := h
  obtain ⟨henabled, hrun⟩ := Option.ite_some_none_eq_some.mp hstep
  obtain ⟨t, f, dels, ht, heffect, hf⟩ := run_effect hinv hL hsptr henabled
  obtain rfl : Except.ok t = r' := ht.symm.trans hrun
  exact ⟨s, t, f, dels, rfl, rfl, heffect, t, rfl, heffect.inv, heffect.cstr ▸ hf⟩

theorem Settled.init (L : ℕ) : Settled L (.ok (init L)) := ⟨_, rfl, .init L, rfl⟩

section
variable {ok : Except Fault State → Op → Prop} {r r' : Except Fault State}

theorem Settled.run (h : Events.Run (StringPtr.step L) ok (.ok (StringPtr.init L)) ops r)
    (hL : 1 ≤ L) : Settled L r :=
  h.invariant (.init L) fun _ _ _ ha _ hstep => by
    obtain ⟨_, _, _, _, -, -, -, hsettled⟩ := ha.step hL hstep
    exact hsettled

/-- From one moment of a run to a later one the CStrings keep their addresses. -/
theorem Kept.run (h : Events.Run (step L) ok (.ok s) ops r) (hL : 1 ≤ L)
    (hs : Settled L (.ok s)) : ∃ t, r = .ok t ∧ Settled L r ∧ Kept L s t := by
  refine h.invariant (I := fun r => ∃ t, r = .ok t ∧ Settled L r ∧ Kept L s t)
    ⟨s, rfl, hs, .refl L s⟩ fun a e b ha _ hstep => ?_
  obtain ⟨u, rfl, hu, hkept⟩ := ha
  obtain ⟨u', v, f, dels, hu', rfl, heffect, hsettled⟩ := hu.step hL hstep
  obtain rfl := Except.ok.inj hu'
  exact ⟨v, rfl, hsettled, hkept.trans heffect.kept⟩

/-- Every CString that is deleted has been let go. -/
theorem letGo_run (h : Events.Run (step L) ok (.ok (init L)) ops r) (hL : 1 ≤ L) :
    ∀ s, r = .ok s → ∀ c ∈ s.deleted, LetGo L c ops := by
  refine h.history (I := fun ops r => ∀ s, r = .ok s → ∀ c ∈ s.deleted, LetGo L c ops) ?_ ?_
  · intro s hs c hc
    rw [← Except.ok.inj hs] at hc
    exact absurd hc List.not_mem_nil
  · rintro ops a o b hrun ha - hstep t rfl c hc
    obtain ⟨s, t', f, dels, rfl, ht, heffect, -⟩ := (Settled.run hrun hL).step hL hstep
    obtain rfl := Except.ok.inj ht
    by_cases hold : c ∈ s.deleted
    · obtain ⟨before, o', after, u, v, p, hops, hu, hv, hrest⟩ := ha s rfl c hold
      exact ⟨before, o', after ++ [o], u, v, p, by simp [hops], hu, hv, hrest⟩
    · have hdels : c ∈ dels := by
        rw [heffect.deleted, List.mem_append] at hc
        exact hc.resolve_left hold
      obtain ⟨p, hp⟩ := heffect.sole c hdels
      refine ⟨ops, o, [], s, t, p, rfl, hrun.exec, hstep, hp, ?_, hold, hc⟩
      refine holders_eq_empty_iff.mpr fun q hq => ?_
      obtain ⟨x, hx⟩ := heffect.inv.alive q c hq
      rw [((heffect.inv.gone c).mp hc).2] at hx
      cases hx

end

/-- Whatever the operations on StringPtrs do, every CString is there as long as a StringPtr points to
    it, and is deleted when the last one lets go unless its counter has been saturated. -/
theorem strings_owned (hL : 1 ≤ L) {r : Except Fault State}
    (h : Events.Run (step L) (fun _ _ => True) (.ok (init L)) ops r) :
    (∃ s, r = .ok s ∧ Sound L ops s) ∧ ∀ x : CString, (x.incRefCount L).cStr L = x.cStr L ∧
      ∀ y, x.decRefCount L = .ok y → y.cStr L = x.cStr L := by
  obtain ⟨s, rfl, hinv, hsptr⟩ := Settled.run h hL
  refine ⟨⟨s, rfl, fun p c hp => ?_, hinv.once, fun c hc => ((hinv.gone c).mp hc).2,
    letGo_run h hL s rfl, fun hnull => ?_, fun c x hx hlt => hinv.counts c x hx (BitVec.ne_of_lt hlt),
    fun c hc hnever hnone => ?_, fun before after u hops hu c x y hx hy => ?_⟩,
    fun x => ⟨CString.cStr_incRefCount, fun y => CString.cStr_decRefCount⟩⟩
  · obtain ⟨x, hx⟩ := hinv.alive p c hp
    refine ⟨fun hc => ?_, x, hx⟩
    rw [((hinv.gone c).mp hc).2] at hx
    cases hx
  · obtain ⟨x, hx, -⟩ := hinv.null
    rw [((hinv.gone _).mp hnull).2] at hx
    cases hx
  · refine (hinv.gone c).mpr ⟨hc, ?_⟩
    cases hx : s.strings c with
    | none => rfl
    | some x =>
      have hne : x.refCount L ≠ REF_COUNT_SATURATION L := fun hsat =>
        hnever (Events.Since.now h.exec ⟨s, x, rfl, hx, hsat⟩)
      have hcount := hinv.counts c x hx hne
      rw [hnone, Set.encard_empty] at hcount
      exact absurd hcount (add_pos_of_right zero_lt_one _).ne
  · subst hops
    have hexec := h.exec
    rw [Events.exec_append, hu, Option.bind_some] at hexec
    obtain ⟨t, ht, -, hkept⟩ := Kept.run (Events.run_of_exec_true hexec) hL
      (Settled.run (Events.run_of_exec_true hu) hL)
    obtain rfl := Except.ok.inj ht
    obtain ⟨u', hu', huinv, -⟩ := Settled.run (Events.run_of_exec_true hu) hL
    obtain rfl := Except.ok.inj hu'
    obtain ⟨x', hx', haddr⟩ := hkept.old c (huinv.born c x hx) y hy
    rw [hx, Option.some.injEq] at hx'
    exact hx' ▸ haddr

/-- A string is made, moved to a second variable and into a third, assigned to itself and let go. -/
def handOver : List Op :=
  [.constructFrom 0 (some 16), .construct 1, .moveAssign 1 0, .moveConstruct 2 1, .copyAssign 2 2,
    .assign 2 (some 32), .copyConstruct 3 2, .destroy 0]

/-- The first string is deleted in the assignment of the second one, which is saturated then. -/
theorem strings_owned_handOver : ∃ s, Events.exec (step 1) (.ok (init 1)) handOver = some (.ok s) ∧
    s.deleted = [1] ∧ Sound 1 handOver s := by
  obtain ⟨r, hr⟩ : ∃ r, Events.exec (step 1) (.ok (init 1)) handOver = some r :=
    Option.isSome_iff_exists.mp (by decide)
  obtain ⟨⟨s, rfl, hsound⟩, -⟩ := strings_owned (by decide) (Events.run_of_exec_true hr)
  have hdeleted : (Events.exec (step 1) (.ok (init 1)) handOver).map
    (fun r => r.toOption.map State.deleted) = some (some [1]) := by decide
  rw [hr, Option.map_some, Option.some.injEq] at hdeleted
  exact ⟨s, hr, Option.some.inj hdeleted, hsound⟩

end StringPtr

import Mathlib.Data.Set.Insert
import PlvmHomeworks.Lib.Linear
import PlvmHomeworks.NonBlockingPool.Ownership

/-! Linearizability of the lock-free registry.

    An add takes effect with the exchange that succeeds and a remove with its store. An add that
    fails has looked at the slots one by one: it can fail although a slot was free at every moment.
    Where no slot has been freed behind the scan of an add that fails, it takes effect with its last
    exchange, and the calls are a history of a set of free slots. -/

namespace NonBlockingPool

variable {s t : State} {i j k q q' : ℕ}

/-- The operations on a set of free slots, with their results. -/
inductive Op
  | take (pool slot : ℕ)
  | refuse (pool : ℕ)
  | release (pool slot : ℕ)
  deriving DecidableEq

def Op.pool : Op → ℕ
  | .take q _ | .refuse q | .release q _ => q

/-- The sequential registry: add takes some free slot and is refused only where none is free. -/
def Spec (free : Set ℕ) : Op → Set ℕ → Prop
  | .take _ k, free' => k ∈ free ∧ free' = free \ {k}
  | .refuse _, free' => free = ∅ ∧ free' = free
  | .release _ k, free' => k < POOL_LIMIT ∧ k ∉ free ∧ free' = insert k free

/-- The slots that no pool owns. -/
def free (s : State) : Set ℕ := {k | k < POOL_LIMIT ∧ ∀ q, (s.life q).slot ≠ some k}

/-- Every slot is owned by a pool. -/
def Full (s : State) : Prop := ∀ k < POOL_LIMIT, ∃ q, (s.life q).slot = some k

/-- The operation that takes effect with an event. -/
def point (s : State) : Event → Option Op
  | .go i =>
    match s.pc i with
    | .scan q k =>
      if (s.knownPools k).begin = 0 then some (.take q k)
      else if k + 1 < POOL_LIMIT then none
      else some (.refuse q)
    | .clear q k => some (.release q k)
    | _ => none
  | _ => none

/-- The operations of a run, in the order in which they take effect. -/
def ops (es : List Event) : List Op := Linear.points step point init es

/-- The thread calls add. -/
def StartsAdd (i : ℕ) : Event → Prop
  | .add j _ _ => j = i
  | _ => False

/-- What the operations about a pool say of it: each call takes effect once, after it is called and
    before it returns, and with the result that it returns. -/
structure Reflects (s : State) (ops : List Op) (q : ℕ) : Prop where
  fresh : s.life q = .fresh → ops = []
  scanning : ∀ i k, s.pc i = .scan q k → ops = []
  refused : ∀ i, s.pc i = .failed q → ops = [.refuse q]
  added : ∀ k, (s.life q).slot = some k → ops = [.take q k]
  gone : s.life q = .gone → ops = [.refuse q] ∨ ∃ k, ops = [.take q k, .release q k]

/-- The registry after the events of a run is that of a sequential history of the same calls. -/
structure Linearizable (es : List Event) (s : State) : Prop where
  exclusive : ∀ q q' k, (s.life q).slot = some k → (s.life q').slot = some k → q = q'
  full : ∀ i q, s.pc i = .failed q → Events.Since step init (StartsAdd i) Full es
  legal : Linear.Legal Spec {k | k < POOL_LIMIT} (ops es) (free s)
  reflects : ∀ q, Reflects s ((ops es).filter fun o => o.pool = q) q

/-- An add whose last exchange fails has had no slot freed behind its scan. -/
def ScanStands (s : State) : Event → Prop
  | .go i =>
    match s.pc i with
    | .scan _ k => k + 1 = POOL_LIMIT → (s.knownPools k).begin ≠ 0 → s.passed i = false
    | _ => True
  | _ => True

instance (s : State) (e : Event) : Decidable (ScanStands s e) := by
  unfold ScanStands
  split
  · cases s.pc _ <;> infer_instance
  · infer_instance

theorem mem_free_iff (h : Slots s) : k ∈ free s ↔ k < POOL_LIMIT ∧ (s.knownPools k).begin = 0 := by
  refine and_congr_right fun _ => ⟨fun hnone => ?_, fun hzero q hq => ?_⟩
  · by_contra hbegin
    obtain ⟨q, hq⟩ := h.begun k hbegin
    exact hnone q hq
  · exact h.begin_ne_zero_iff.mpr ⟨q, hq⟩ hzero

/-- The slots behind a scan are taken, as long as none has been freed behind it. -/
def Scanned (s : State) : Prop :=
  ∀ i q k, s.pc i = .scan q k → s.passed i = false → ∀ j < k, (s.knownPools j).begin ≠ 0

theorem free_goto (s : State) (i : ℕ) (pc : Pc) {l : Life} (hslot : l.slot = (s.life q).slot) :
    free (s.goto i pc q l) = free s := by
  have hsame : ∀ q', ((s.goto i pc q l).life q').slot = (s.life q').slot := fun q' => by
    rcases s.goto_life i pc q l q' with ⟨rfl, hl⟩ | ⟨-, hl⟩ <;> rw [hl]
    exact hslot
  simp only [free, hsame]

theorem free_take (s : State) (i : ℕ) (pc : Pc) (k : ℕ)
    (hslot : (s.life q).slot = none) : free (s.goto i pc q (.taken k)) = free s \ {k} := by
  ext j
  constructor
  · rintro ⟨hlt, hnone⟩
    refine ⟨⟨hlt, fun q' hq' => hnone q' ?_⟩, fun heq => hnone q ?_⟩
    · have hne : q' ≠ q := fun heq => by
        rw [heq, hslot] at hq'
        cases hq'
      rw [State.goto_life_of_ne _ _ _ _ _ hne]
      exact hq'
    · rw [State.goto_life_self, Set.mem_singleton_iff.mp heq]
      rfl
  · rintro ⟨⟨hlt, hnone⟩, hne⟩
    refine ⟨hlt, fun q' hq' => ?_⟩
    rcases s.goto_life i pc q (.taken k) q' with ⟨-, hl⟩ | ⟨-, hl⟩ <;> rw [hl] at hq'
    · exact hne (Option.some.inj hq').symm
    · exact hnone q' hq'

theorem free_release (h : Slots s) (i : ℕ) (pc : Pc) (hlife : s.life q = .leaving k) :
    free (s.goto i pc q .gone) = insert k (free s) := by
  have hslot : (s.life q).slot = some k := by rw [hlife]; rfl
  ext j
  constructor
  · rintro ⟨hlt, hnone⟩
    by_cases hj : j = k
    · exact .inl hj
    · refine .inr ⟨hlt, fun q' hq' => hnone q' ?_⟩
      have hne : q' ≠ q := fun heq => hj (Option.some.inj ((heq ▸ hq').symm.trans hslot))
      rw [State.goto_life_of_ne _ _ _ _ _ hne]
      exact hq'
  · rintro (rfl | ⟨hlt, hnone⟩)
    · refine ⟨(h.owned q j hslot).1, fun q' hq' => ?_⟩
      rcases s.goto_life i pc q .gone q' with ⟨-, hl⟩ | ⟨hne, hl⟩ <;> rw [hl] at hq'
      · cases hq'
      · exact h.ne_of_slot hslot hne hq'
    · refine ⟨hlt, fun q' hq' => ?_⟩
      rcases s.goto_life i pc q .gone q' with ⟨-, hl⟩ | ⟨-, hl⟩ <;> rw [hl] at hq'
      · cases hq'
      · exact hnone q' hq'

/-- Where the last exchange of a scan fails and the scan stands, no slot is free. -/
theorem free_eq_empty (h : Slots s) (hscanned : Scanned s) (hpc : s.pc i = .scan q k)
    (hbusy : (s.knownPools k).begin ≠ 0) (hlast : ¬ k + 1 < POOL_LIMIT)
    (hstands : s.passed i = false) : free s = ∅ := by
  refine Set.eq_empty_of_forall_notMem fun j hj => ?_
  obtain ⟨hlt, hzero⟩ := (mem_free_iff h).mp hj
  by_cases hjk : j = k
  · exact hbusy (hjk ▸ hzero)
  · exact hscanned i q k hpc hstands j (by omega) hzero

/-- Every step does to the set of free slots what its operation says. -/
theorem takes_step {e : Event} (h : Inv s) (hscanned : Scanned s) (hok : ScanStands s e)
    (hstep : step s e = some t) : Linear.Takes Spec (free s) (point s e) (free t) := by
  cases e with
  | add i q r =>
    obtain ⟨⟨-, hfresh, -⟩, rfl⟩ := Option.ite_some_none_eq_some.mp hstep
    exact free_goto (s.map i q r) i _ (congrArg Life.slot hfresh).symm
  | remove i q =>
    simp only [step] at hstep
    split at hstep
    next k hlive =>
      obtain ⟨-, rfl⟩ := Option.ite_some_none_eq_some.mp hstep
      exact free_goto s i _ (congrArg Life.slot hlive).symm
    next => cases hstep
  | fault p =>
    simp only [step] at hstep
    split at hstep
    · cases hstep
    · obtain rfl := Option.some.inj hstep
      rfl
  | handle =>
    obtain ⟨handler, rfl⟩ := handle_cases hstep
    rfl
  | go i =>
    have hjob := h.jobs.job i
    simp only [step] at hstep
    cases hpc : s.pc i <;> simp only [next, point, ScanStands, hpc] at hstep hjob hok ⊢
    case out => cases hstep
    case scan q k =>
      have hlife : s.life q = .adding := hjob q _ rfl
      have hslot : Life.adding.slot = (s.life q).slot := (congrArg Life.slot hlife).symm
      split at hstep
      next hfree =>
        obtain rfl := Option.some.inj hstep
        rw [if_pos hfree]
        have hmem : k ∈ free s := (mem_free_iff h.slots).mpr ⟨h.slots.scan_lt i q k hpc, hfree⟩
        exact ⟨hmem, free_take s i (.store q k) k hslot.symm⟩
      next hbusy =>
        rw [if_neg hbusy]
        split at hstep <;> obtain rfl := Option.some.inj hstep
        next hlt =>
          rw [if_pos hlt]
          exact free_goto s i _ hslot
        next hlast =>
          rw [if_neg hlast]
          have hlt := h.slots.scan_lt i q k hpc
          have hempty := free_eq_empty h.slots hscanned hpc hbusy hlast
            (hok (by omega) hbusy)
          exact ⟨hempty, free_goto s i _ hslot⟩
    case store q k =>
      obtain rfl := Option.some.inj hstep
      exact free_goto (s.setEnd k (s.region q).end_ (some q)) i _
        (congrArg Life.slot (hjob q _ rfl)).symm
    case failed q =>
      obtain rfl := Option.some.inj hstep
      exact free_goto s i _ (congrArg Life.slot (hjob q _ rfl)).symm
    case clear q k =>
      obtain rfl := Option.some.inj hstep
      have hlife : s.life q = .leaving k := hjob q _ rfl
      have hslot : (s.life q).slot = some k := congrArg Life.slot hlife
      exact ⟨(h.slots.owned q k hslot).1, fun hmem => hmem.2 q hslot,
        free_release h.slots i (.unmap q) hlife⟩
    case unmap q =>
      obtain rfl := Option.some.inj hstep
      exact free_goto { s with mapped := s.mapped.erase q } i _
        (congrArg Life.slot (hjob q _ rfl)).symm

/-- A step that writes no begin, of a thread that is then not further in its scan. -/
theorem scanned_keep (h : Scanned s) {u : State} {pc : Pc} {l : Life} (hpc : u.pc = s.pc)
    (hknown : ∀ j, (u.knownPools j).begin = (s.knownPools j).begin)
    (hpassed : ∀ j, j ≠ i → u.passed j = s.passed j)
    (hi : ∀ q k, pc = .scan q k → u.passed i = false → ∀ j < k, (s.knownPools j).begin ≠ 0) :
    Scanned (u.goto i pc q l) := by
  intro j q' k' hj hstands j' hj'
  refine fun hzero => ?_
  have hzero' : (s.knownPools j').begin = 0 := (hknown j').symm.trans hzero
  rcases u.goto_pc i pc q l j with ⟨rfl, heq⟩ | ⟨hne, heq⟩ <;> rw [heq] at hj
  · exact hi q' k' hj hstands j' hj' hzero'
  · exact h j q' k' (hpc ▸ hj) ((hpassed j hne).symm.trans hstands) j' hj' hzero'

theorem scanned_step {e : Event} (h : Inv s) (hscanned : Scanned s)
    (hstep : step s e = some t) : Scanned t := by
  cases e with
  | add i q r =>
    obtain ⟨-, rfl⟩ := Option.ite_some_none_eq_some.mp hstep
    refine scanned_keep (u := s.map i q r) hscanned rfl (fun _ => rfl)
      (fun j hj => Function.update_of_ne hj ..) fun q' k' heq _ j hj => ?_
    cases heq
    exact absurd hj (Nat.not_lt_zero j)
  | remove i q =>
    simp only [step] at hstep
    split at hstep
    next k hlive =>
      obtain ⟨-, rfl⟩ := Option.ite_some_none_eq_some.mp hstep
      exact scanned_keep hscanned rfl (fun _ => rfl) (fun _ _ => rfl) fun _ _ heq => by cases heq
    next => cases hstep
  | fault p =>
    simp only [step] at hstep
    split at hstep
    · cases hstep
    · obtain rfl := Option.some.inj hstep
      exact hscanned
  | handle =>
    obtain ⟨handler, rfl⟩ := handle_cases hstep
    exact hscanned
  | go i =>
    have hjob := h.jobs.job i
    simp only [step] at hstep
    cases hpc : s.pc i <;> simp only [next, hpc] at hstep hjob
    case out => cases hstep
    case scan q k =>
      split at hstep
      next hfree =>
        obtain rfl := Option.some.inj hstep
        have hpos : 0 < (s.region q).begin := h.slots.positive q (by simp [hjob q _ rfl])
        intro j q' k' hj hstands j' hj' hzero
        have hk : j' ≠ k := by
          rintro rfl
          have hself := s.setBegin_self j' (s.region q).begin (some q)
          exact absurd (hself.symm.trans hzero) (Nat.ne_of_gt hpos)
        have hzero' : (s.knownPools j').begin = 0 :=
          (s.setBegin_of_ne k (s.region q).begin (some q) hk).symm.trans hzero
        rcases State.goto_pc (s.setBegin k (s.region q).begin (some q)) i (.store q k) q (.taken k)
          j with ⟨-, heq⟩ | ⟨-, heq⟩ <;> rw [heq] at hj
        · cases hj
        · exact hscanned j q' k' hj hstands j' hj' hzero'
      next hbusy =>
        split at hstep <;> obtain rfl := Option.some.inj hstep
        next =>
          refine scanned_keep hscanned rfl (fun _ => rfl) (fun _ _ => rfl)
            fun q' k' heq hstands j hj => ?_
          cases heq
          rcases Nat.lt_succ_iff_lt_or_eq.mp hj with hlt | rfl
          · exact hscanned i q k hpc hstands j hlt
          · exact hbusy
        next =>
          exact scanned_keep hscanned rfl (fun _ => rfl) (fun _ _ => rfl) fun _ _ heq => by cases heq
    case store q k =>
      obtain rfl := Option.some.inj hstep
      exact scanned_keep hscanned rfl (s.setEnd_begin k _ (some q)) (fun _ _ => rfl)
        fun _ _ heq => by cases heq
    case failed q =>
      obtain rfl := Option.some.inj hstep
      exact scanned_keep hscanned rfl (fun _ => rfl) (fun _ _ => rfl) fun _ _ heq => by cases heq
    case clear q k =>
      obtain rfl := Option.some.inj hstep
      intro j q' k' hj hstands j' hj' hzero
      rcases State.goto_pc ((s.passScans k).setBegin k 0 none) i (.unmap q) q .gone
        j with ⟨-, heq⟩ | ⟨-, heq⟩ <;> rw [heq] at hj
      · cases hj
      · have hpassed : (s.passed j || match s.pc j with
          | .scan _ k' => decide (k < k')
          | _ => false) = false := hstands
        rw [show s.pc j = .scan q' k' from hj] at hpassed
        simp only [Bool.or_eq_false_iff, decide_eq_false_iff_not, not_lt] at hpassed
        have hk : j' ≠ k := by omega
        have hzero' : (s.knownPools j').begin = 0 :=
          ((s.passScans k).setBegin_of_ne k 0 none hk).symm.trans hzero
        exact hscanned j q' k' hj hpassed.1 j' hj' hzero'
    case unmap q =>
      obtain rfl := Option.some.inj hstep
      exact scanned_keep hscanned rfl (fun _ => rfl) (fun _ _ => rfl) fun _ _ heq => by cases heq

/-- Thread i goes on with pool q: what the operations say of the other pools stays. -/
theorem reflects_goto {old new : ℕ → List Op} {pc : Pc} {l : Life}
    (h : ∀ q', Reflects s (old q') q') (hsame : ∀ q', q' ≠ q → new q' = old q')
    (hpc : pc.job = some (q, l) ∨ pc.job = none)
    (hfree : ∀ j, j ≠ i → ∀ l, (s.pc j).job ≠ some (q, l)) (hfresh : l ≠ .fresh)
    (hscan : ∀ k, pc = .scan q k → new q = []) (hrefused : pc = .failed q → new q = [.refuse q])
    (hadded : ∀ k, l.slot = some k → new q = [.take q k])
    (hgone : l = .gone → new q = [.refuse q] ∨ ∃ k, new q = [.take q k, .release q k]) :
    ∀ q', Reflects (s.goto i pc q l) (new q') q' := by
  intro q'
  have hnot : ∀ {q'' l'}, q'' ≠ q → pc.job ≠ some (q'', l') := fun hne hjob => by
    rcases hpc with hpc | hpc
    · exact hne (congrArg Prod.fst (Option.some.inj (hjob.symm.trans hpc)))
    · cases hpc.symm.trans hjob
  by_cases hq : q' = q
  · subst hq
    have hother : ∀ {j pc'}, (s.goto i pc q' l).pc j = pc' → (∃ l', pc'.job = some (q', l')) →
        pc = pc' := fun {j pc'} hj hjob => by
      rcases s.goto_pc i pc q' l j with ⟨-, heq⟩ | ⟨hne, heq⟩
      · exact heq.symm.trans hj
      · obtain ⟨l', hjob⟩ := hjob
        exact absurd ((congrArg Pc.job (heq.symm.trans hj)).trans hjob) (hfree j hne l')
    have hlife : (s.goto i pc q' l).life q' = l := State.goto_life_self ..
    refine ⟨fun hl => absurd (hlife.symm.trans hl) hfresh, fun j k hj => ?_, fun j hj => ?_,
      fun k hk => hadded k (by rwa [hlife] at hk), fun hl => hgone (hlife.symm.trans hl)⟩
    · exact hscan k (hother hj ⟨_, rfl⟩)
    · exact hrefused (hother hj ⟨_, rfl⟩)
  · have hother : ∀ {j pc'}, (s.goto i pc q l).pc j = pc' → (∃ l', pc'.job = some (q', l')) →
        s.pc j = pc' := fun {j pc'} hj hjob => by
      rcases s.goto_pc i pc q l j with ⟨-, heq⟩ | ⟨-, heq⟩
      · obtain ⟨l', hjob⟩ := hjob
        exact absurd ((congrArg Pc.job (heq.symm.trans hj)).trans hjob) (hnot hq)
      · exact heq.symm.trans hj
    have hlife : (s.goto i pc q l).life q' = s.life q' := State.goto_life_of_ne _ _ _ _ _ hq
    rw [hsame q' hq]
    exact ⟨fun hl => (h q').fresh (hlife.symm.trans hl),
      fun j k hj => (h q').scanning j k (hother hj ⟨_, rfl⟩),
      fun j hj => (h q').refused j (hother hj ⟨_, rfl⟩),
      fun k hk => (h q').added k (by rwa [hlife] at hk),
      fun hl => (h q').gone (hlife.symm.trans hl)⟩

theorem Reflects.congr {l : List Op} {u : State} (h : Reflects s l q) (hlife : u.life = s.life)
    (hpc : u.pc = s.pc) : Reflects u l q where
  fresh hl := h.fresh (hlife ▸ hl)
  scanning j k hj := h.scanning j k (hpc ▸ hj)
  refused j hj := h.refused j (hpc ▸ hj)
  added k hk := h.added k (hlife ▸ hk)
  gone hl := h.gone (hlife ▸ hl)

/-- The part of an operation that is about a pool. -/
def Op.about (o : Option Op) (q : ℕ) : List Op := o.toList.filter fun o => o.pool = q

theorem Op.about_pool (o : Op) : Op.about (some o) o.pool = [o] := by
  simp [Op.about]

theorem Op.about_of_ne {o : Op} (h : o.pool ≠ q) : Op.about (some o) q = [] := by
  simp [Op.about, h]

/-- A call that takes effect does so once; all other operations stay as they are. -/
theorem reflects_step {e : Event} {old : ℕ → List Op} (h : Inv s)
    (hold : ∀ q, Reflects s (old q) q) (hstep : step s e = some t) :
    ∀ q, Reflects t (old q ++ Op.about (point s e) q) q := by
  have hkeep : ∀ q, old q ++ Op.about none q = old q := fun q => List.append_nil _
  cases e with
  | add i q r =>
    obtain ⟨⟨-, hfresh, -⟩, rfl⟩ := Option.ite_some_none_eq_some.mp hstep
    refine reflects_goto (s := s.map i q r) (fun q' => (hold q').congr rfl rfl)
      (fun q' _ => hkeep q') (.inl rfl) (fun j _ l hj => ?_) (by simp)
      (fun _ _ => (hkeep q).trans ((hold q).fresh hfresh)) (fun heq => by cases heq)
      (fun _ heq => by cases heq) fun heq => by cases heq
    have hl := h.jobs.job j q l hj
    rw [hfresh] at hl
    subst hl
    cases hpc : s.pc j <;> simp [State.map, hpc, Pc.job] at hj
  | remove i q =>
    simp only [step] at hstep
    split at hstep
    next k hlive =>
      obtain ⟨-, rfl⟩ := Option.ite_some_none_eq_some.mp hstep
      refine reflects_goto hold (fun q' _ => hkeep q') (.inl rfl) (fun j _ l hj => ?_)
        (by simp) (fun _ heq => by cases heq) (fun heq => by cases heq) (fun k' hk' => ?_)
        fun heq => by cases heq
      · have hl := h.jobs.job j q l hj
        rw [hlive] at hl
        subst hl
        cases hpc : s.pc j <;> simp [hpc, Pc.job] at hj
      · exact (hkeep q).trans ((hold q).added k' ((congrArg Life.slot hlive).trans hk'))
    next => cases hstep
  | fault p =>
    simp only [step] at hstep
    split at hstep
    · cases hstep
    · obtain rfl := Option.some.inj hstep
      exact fun q => (hkeep q).symm ▸ (hold q).congr rfl rfl
  | handle =>
    obtain ⟨handler, rfl⟩ := handle_cases hstep
    exact fun q => (hkeep q).symm ▸ (hold q).congr rfl rfl
  | go i =>
    have hjob := h.jobs.job i
    have halone : ∀ {q : ℕ} {l : Life}, (s.pc i).job = some (q, l) →
        ∀ j, j ≠ i → ∀ l', (s.pc j).job ≠ some (q, l') := fun hi j hj l' hj' =>
      hj (h.jobs.alone j i _ _ _ hj' hi)
    have hscanning := fun q => (hold q).scanning i
    have hrefused := fun q => (hold q).refused i
    simp only [step] at hstep
    cases hpc : s.pc i <;> simp only [next, point, hpc] at hstep hjob halone hscanning hrefused ⊢
    case out => cases hstep
    case scan q k =>
      have hempty : old q = [] := hscanning q k rfl
      split at hstep
      next hfree =>
        obtain rfl := Option.some.inj hstep
        rw [if_pos hfree]
        have hnew : old q ++ Op.about (some (.take q k)) q = [.take q k] := by
          rw [hempty]
          exact Op.about_pool (.take q k)
        refine reflects_goto (s := s.setBegin k (s.region q).begin (some q))
          (fun q' => (hold q').congr rfl rfl) (fun q' hq' => ?_) (.inl rfl) (halone rfl) (by simp)
          (fun _ heq => by cases heq) (fun heq => by cases heq) (fun k' hk' => ?_)
          fun heq => by cases heq
        · rw [Op.about_of_ne (Ne.symm hq'), List.append_nil]
        · obtain rfl := Option.some.inj hk'
          exact hnew
      next hbusy =>
        rw [if_neg hbusy]
        split at hstep <;> obtain rfl := Option.some.inj hstep
        next hlt =>
          rw [if_pos hlt]
          exact reflects_goto hold (fun q' _ => hkeep q') (.inl rfl) (halone rfl) (by simp)
            (fun _ _ => (hkeep q).trans hempty) (fun heq => by cases heq)
            (fun _ heq => by cases heq) fun heq => by cases heq
        next hlast =>
          rw [if_neg hlast]
          refine reflects_goto hold (fun q' hq' => ?_) (.inl rfl) (halone rfl) (by simp)
            (fun _ heq => by cases heq) (fun _ => ?_) (fun _ heq => by cases heq)
            fun heq => by cases heq
          · rw [Op.about_of_ne (Ne.symm hq'), List.append_nil]
          · rw [hempty]
            exact Op.about_pool (.refuse q)
    case store q k =>
      obtain rfl := Option.some.inj hstep
      refine reflects_goto (s := s.setEnd k (s.region q).end_ (some q))
        (fun q' => (hold q').congr rfl rfl) (fun q' _ => hkeep q') (.inr rfl) (halone rfl) (by simp)
        (fun _ heq => by cases heq) (fun heq => by cases heq) (fun k' hk' => ?_)
        fun heq => by cases heq
      exact (hkeep q).trans ((hold q).added k' ((congrArg Life.slot (hjob q _ rfl)).trans hk'))
    case failed q =>
      obtain rfl := Option.some.inj hstep
      exact reflects_goto hold (fun q' _ => hkeep q') (.inr rfl) (halone rfl) (by simp)
        (fun _ heq => by cases heq) (fun heq => by cases heq) (fun _ heq => by cases heq)
        fun _ => .inl ((hkeep q).trans (hrefused q rfl))
    case clear q k =>
      obtain rfl := Option.some.inj hstep
      have htake : old q = [.take q k] := (hold q).added k (congrArg Life.slot (hjob q _ rfl))
      refine reflects_goto (s := (s.passScans k).setBegin k 0 none)
        (fun q' => (hold q').congr rfl rfl) (fun q' hq' => ?_) (.inl rfl) (halone rfl) (by simp)
        (fun _ heq => by cases heq) (fun heq => by cases heq) (fun _ heq => by cases heq)
        fun _ => .inr ⟨k, ?_⟩
      · rw [Op.about_of_ne (Ne.symm hq'), List.append_nil]
      · rw [htake]
        exact congrArg ([Op.take q k] ++ ·) (Op.about_pool (.release q k))
    case unmap q =>
      obtain rfl := Option.some.inj hstep
      exact reflects_goto (s := { s with mapped := s.mapped.erase q })
        (fun q' => (hold q').congr rfl rfl) (fun q' _ => hkeep q') (.inr rfl) (halone rfl) (by simp)
        (fun _ heq => by cases heq) (fun heq => by cases heq) (fun _ heq => by cases heq)
        fun _ => (hkeep q).symm ▸ (hold q).gone (hjob q _ rfl)

theorem full_of_free (h : free s = ∅) : Full s := by
  intro k hk
  by_contra hnone
  have hmem : k ∈ free s := ⟨hk, fun q hq => hnone ⟨q, hq⟩⟩
  rw [h] at hmem
  exact hmem

/-- A thread comes past the last slot when its exchange on it fails. -/
theorem failed_cases {e : Event} (hstep : step s e = some t) (hi : t.pc i = .failed q) :
    ¬ StartsAdd i e ∧ (s.pc i = .failed q ∨ ∃ k, e = .go i ∧ s.pc i = .scan q k ∧
      (s.knownPools k).begin ≠ 0 ∧ ¬ k + 1 < POOL_LIMIT) := by
  have hgoto : ∀ {u : State} {j : ℕ} {pc : Pc} {q' : ℕ} {l : Life}, u.pc = s.pc →
      u.goto j pc q' l = t → pc ≠ .failed q → s.pc i = .failed q := fun {u j pc q' l} hu ht hne => by
    subst ht
    rcases u.goto_pc j pc q' l i with ⟨-, heq⟩ | ⟨-, heq⟩
    · exact absurd (heq.symm.trans hi) hne
    · rw [← hu, ← heq]
      exact hi
  cases e with
  | add j q' r =>
    obtain ⟨⟨hout, -⟩, ht⟩ := Option.ite_some_none_eq_some.mp hstep
    have hfailed := hgoto (u := s.map j q' r) rfl ht (by simp)
    refine ⟨fun hji => ?_, .inl hfailed⟩
    rw [show j = i from hji, hfailed] at hout
    cases hout
  | remove j q' =>
    refine ⟨id, .inl ?_⟩
    simp only [step] at hstep
    split at hstep
    next => exact hgoto rfl (Option.ite_some_none_eq_some.mp hstep).2 (by simp)
    next => cases hstep
  | fault p =>
    refine ⟨id, .inl ?_⟩
    simp only [step] at hstep
    split at hstep
    · cases hstep
    · obtain rfl := Option.some.inj hstep
      exact hi
  | handle =>
    refine ⟨id, .inl ?_⟩
    obtain ⟨handler, rfl⟩ := handle_cases hstep
    exact hi
  | go j =>
    refine ⟨id, ?_⟩
    simp only [step] at hstep
    cases hpc : s.pc j <;> simp only [next, hpc] at hstep
    case out => cases hstep
    case scan q' k =>
      split at hstep
      next =>
        exact .inl (hgoto (u := s.setBegin k (s.region q').begin (some q')) rfl
          (Option.some.inj hstep) (by simp))
      next hbusy =>
        split at hstep
        next => exact .inl (hgoto rfl (Option.some.inj hstep) (by simp))
        next hlast =>
          obtain rfl := Option.some.inj hstep
          rcases s.goto_pc j (.failed q') q' .adding i with ⟨rfl, heq⟩ | ⟨-, heq⟩
          · obtain rfl := Pc.failed.inj (heq.symm.trans hi)
            exact .inr ⟨k, rfl, hpc, hbusy, hlast⟩
          · exact .inl (heq.symm.trans hi)
    case store q' k =>
      exact .inl (hgoto (u := s.setEnd k (s.region q').end_ (some q')) rfl (Option.some.inj hstep)
        (by simp))
    case failed q' => exact .inl (hgoto rfl (Option.some.inj hstep) (by simp))
    case clear q' k =>
      exact .inl (hgoto (u := (s.passScans k).setBegin k 0 none) rfl (Option.some.inj hstep)
        (by simp))
    case unmap q' =>
      exact .inl (hgoto (u := { s with mapped := s.mapped.erase q' }) rfl (Option.some.inj hstep)
        (by simp))

theorem scanned_run {es : List Event} (h : Events.Run step ScanStands init es s) : Scanned s :=
  h.history (I := fun _ a => Scanned a) (fun _ _ _ hi => by simp [init] at hi)
    fun _ _ _ _ hrun ha _ hstep => scanned_step (Inv.run hrun) ha hstep

theorem ops_snoc {es : List Event} (h : Events.exec step init es = some s) (e : Event) :
    ops (es ++ [e]) = ops es ++ (point s e).toList :=
  Linear.points_snoc h e

theorem free_init : free init = {k | k < POOL_LIMIT} := by
  ext k
  exact ⟨fun h => h.1, fun h => ⟨h, fun q hq => by cases hq⟩⟩

/-- Any number of threads, any sequence of calls and any interleaving in which an add whose last
    exchange fails has had no slot freed behind its scan. -/
theorem registry_linearizable {es : List Event} (h : Events.Run step ScanStands init es s) :
    Linearizable es s := by
  refine ⟨fun q q' k => (Inv.run h).slots.exclusive, ?_, ?_, ?_⟩
  · -- the moment at which all slots are owned is that of the last exchange
    refine h.history (I := fun es a => ∀ i q, a.pc i = .failed q →
      Events.Since step init (StartsAdd i) Full es) (fun i q hi => by simp [init] at hi) ?_
    intro es a e b hrun ha hok hstep i q hi
    obtain ⟨hstart, hfailed | ⟨k, rfl, hpc, hbusy, hlast⟩⟩ := failed_cases hstep hi
    · exact (ha i q hfailed).snoc hstart
    · have hstands : k + 1 = POOL_LIMIT → (a.knownPools k).begin ≠ 0 → a.passed i = false := by
        simpa only [ScanStands, hpc] using hok
      have hlt := (Inv.run hrun).slots.scan_lt i q k hpc
      have hempty := free_eq_empty (Inv.run hrun).slots (scanned_run hrun) hpc hbusy hlast
        (hstands (by omega) hbusy)
      exact (Events.Since.now hrun.exec (full_of_free hempty)).snoc hstart
  · rw [← free_init]
    exact Linear.legal_of_run (I := fun a => Inv a ∧ Scanned a) h
      (fun es a hrun => ⟨Inv.run hrun, scanned_run hrun⟩)
      fun a e b ha hok hstep => takes_step ha.1 ha.2 hok hstep
  · refine h.history (I := fun es a => ∀ q, Reflects a ((ops es).filter fun o => o.pool = q) q)
      (fun q => ?_) fun es a e b hrun ha _ hstep q => ?_
    · exact ⟨fun _ => rfl, fun _ _ _ => rfl, fun _ hi => (by simp [init] at hi),
        fun _ hk => (by cases hk), fun hl => (by cases hl)⟩
    · rw [ops_snoc hrun.exec, List.filter_append]
      exact reflects_step (Inv.run hrun) ha hstep q

def page (q : ℕ) : Region := ⟨4096 * (q + 1), 4096 * (q + 2)⟩

/-- Two pools are added, the first is removed and a third takes its slot. -/
def reuse : List Event :=
  [.add 0 0 (page 0), .go 0, .go 0, .add 1 1 (page 1), .go 1, .go 1, .go 1, .remove 0 0, .go 0, .go 0,
    .add 1 2 (page 2), .go 1, .go 1]

theorem registry_linearizable_reuse :
    ∃ s, Events.exec step init reuse = some s ∧ s.life 1 = .live 1 ∧ s.life 2 = .live 0 ∧
      Linearizable reuse s := by
  obtain ⟨s, hs⟩ : ∃ s, Events.exec step init reuse = some s :=
    Option.isSome_iff_exists.mp (by decide)
  have hlife : (Events.exec step init reuse).map (fun s => (s.life 1, s.life 2)) =
    some (.live 1, .live 0) := by decide
  simp only [hs, Option.map_some, Option.some.injEq, Prod.mk.injEq] at hlife
  exact ⟨s, hs, hlife.1, hlife.2, registry_linearizable (Events.run_of_exec hs (by decide))⟩

/-- Adds n pools, one after the other. -/
def fill : ℕ → List Event
  | 0 => []
  | n + 1 => fill n ++ (.add 0 n (page n) :: List.replicate (n + 2) (.go 0))

/-- The first n slots are owned by pools that no thread is busy with, the others are free. -/
structure Filled (n : ℕ) (s : State) : Prop where
  out : ∀ i, s.pc i = .out
  live : ∀ q < n, s.life q = .live q
  fresh : ∀ q, n ≤ q → s.life q = .fresh
  busy : ∀ k < n, (s.knownPools k).begin ≠ 0
  free : ∀ k, n ≤ k → (s.knownPools k).begin = 0
  region : ∀ q < n, s.region q = page q
  mapped : ∀ q ∈ s.mapped, q < n

theorem goto_eq_self {pc : Pc} {l : Life} (hpc : s.pc i = pc) (hlife : s.life q = l) :
    s.goto i pc q l = s := by
  subst hpc hlife
  simp [State.goto]

theorem goto_goto {pc pc' : Pc} {l l' : Life} :
    (s.goto i pc q l).goto i pc' q l' = s.goto i pc' q l' := by
  simp [State.goto]

theorem step_scan_busy (hpc : s.pc i = .scan q k) (hbusy : (s.knownPools k).begin ≠ 0)
    (hk : k + 1 < POOL_LIMIT) : step s (.go i) = some (s.goto i (.scan q (k + 1)) q .adding) := by
  simp [step, next, hpc, hbusy, hk]

/-- A scan goes past the slots that it finds taken. -/
theorem exec_scan {m : ℕ} (hpc : s.pc i = .scan q k) (hlife : s.life q = .adding)
    (hbusy : ∀ j, k ≤ j → j < k + m → (s.knownPools j).begin ≠ 0) (hm : k + m < POOL_LIMIT) :
    Events.exec step s (List.replicate m (.go i)) =
      some (s.goto i (.scan q (k + m)) q .adding) := by
  induction m generalizing s k with
  | zero => exact congrArg some (goto_eq_self hpc hlife).symm
  | succ m ih =>
    rw [List.replicate_succ, Events.exec,
      step_scan_busy hpc (hbusy k (Nat.le_refl k) (by omega)) (by omega), Option.bind_some,
      ih (State.goto_pc_self ..) (State.goto_life_self ..)
        (fun j hj hlt => hbusy j (by omega) (by omega)) (by omega), goto_goto]
    congr 3
    omega

theorem page_disjoint (h : q ≠ q') : (page q).Disjoint (page q') := by
  simp only [Region.Disjoint, page]
  omega

/-- A thread that is out of the registry calls add with a pool of its own. -/
theorem step_add (hout : s.pc i = .out) (hfresh : s.life q = .fresh)
    (hdisjoint : ∀ q' ∈ s.mapped, (page q).Disjoint (s.region q')) :
    step s (.add i q (page q)) =
      some ((s.map i q (page q)).goto i (.scan q 0) q .adding) := by
  have hpos : 0 < (page q).begin ∧ (page q).begin < (page q).end_ := by
    simp only [page]
    omega
  exact if_pos ⟨hout, hfresh, hpos.1, hpos.2, hdisjoint⟩

/-- An add of a thread that is alone takes the first free slot. -/
theorem Filled.add {n : ℕ} (h : Filled n s) (hn : n < POOL_LIMIT) :
    ∃ t, Events.exec step s (.add 0 n (page n) :: List.replicate (n + 2) (.go 0)) = some t ∧
      Filled (n + 1) t := by
  have hadd := step_add (h.out 0) (h.fresh n le_rfl) fun q' hq' => by
    rw [h.region q' (h.mapped q' hq')]
    exact page_disjoint (Nat.ne_of_gt (h.mapped q' hq'))
  have hscan := exec_scan (s := (s.map 0 n (page n)).goto 0 (.scan n 0) n .adding) (m := n)
    (State.goto_pc_self ..) (State.goto_life_self ..) (fun j _ hj => h.busy j (by omega)) (by omega)
  rw [goto_goto, Nat.zero_add] at hscan
  set u := s.map 0 n (page n)
  set v := (u.setBegin n (page n).begin (some n)).setEnd n (page n).end_ (some n)
  have hregion : ∀ {q}, q ≠ n → v.region q = s.region q := fun hq => Function.update_of_ne hq ..
  have hself : v.region n = page n := Function.update_self ..
  have hbegin : ∀ {k}, k ≠ n → (v.knownPools k).begin = (s.knownPools k).begin := fun {k} hk =>
    (State.setEnd_begin _ n _ _ k).trans (u.setBegin_of_ne n _ _ hk)
  have htaken : (v.knownPools n).begin = (page n).begin :=
    (State.setEnd_begin _ n _ _ n).trans (u.setBegin_self n _ _)
  refine ⟨v.goto 0 .out n (.live n), ?_, fun i => ?_, fun q hq => ?_, fun q hq => ?_,
    fun k hk => ?_, fun k hk => ?_, fun q hq => ?_, fun q hq => ?_⟩
  · rw [Events.exec, hadd, Option.bind_some, List.replicate_add, Events.exec_append, hscan,
      Option.bind_some]
    simp [List.replicate, Events.exec, step, next, State.goto, State.setBegin, State.map, h.free n,
      State.setEnd, u, v]
  · rcases v.goto_pc 0 .out n (.live n) i with ⟨-, heq⟩ | ⟨-, heq⟩ <;> rw [heq]
    exact h.out i
  · rcases v.goto_life 0 .out n (.live n) q with ⟨rfl, heq⟩ | ⟨hne, heq⟩ <;> rw [heq]
    exact h.live q (by omega)
  · rw [State.goto_life_of_ne _ _ _ _ _ (by omega)]
    exact h.fresh q (by omega)
  · by_cases hkn : k = n
    · subst hkn
      exact htaken.trans_ne (by simp [page])
    · exact (hbegin hkn).trans_ne (h.busy k (by omega))
  · exact (hbegin (by omega)).trans (h.free k (by omega))
  · by_cases hqn : q = n
    · subst hqn
      exact hself
    · exact (hregion hqn).trans (h.region q (by omega))
  · rcases List.mem_cons.mp hq with rfl | hold
    · exact Nat.lt_succ_self _
    · exact Nat.lt_succ_of_lt (h.mapped q hold)

theorem filled {n : ℕ} (hn : n ≤ POOL_LIMIT) :
    ∃ s, Events.exec step init (fill n) = some s ∧ Filled n s := by
  induction n with
  | zero =>
    exact ⟨init, rfl, fun _ => rfl, fun _ hq => absurd hq (Nat.not_lt_zero _), fun _ _ => rfl,
      fun _ hk => absurd hk (Nat.not_lt_zero _), fun _ _ => rfl,
      fun _ hq => absurd hq (Nat.not_lt_zero _), fun _ hq => absurd hq List.not_mem_nil⟩
  | succ n ih =>
    obtain ⟨s, hs, hfilled⟩ := ih (Nat.le_of_succ_le hn)
    obtain ⟨t, ht, hnext⟩ := hfilled.add hn
    exact ⟨t, by rw [fill, Events.exec_append, hs, Option.bind_some, ht], hnext⟩

/-- With 255 slots owned, thread 1 has come to the last slot; then thread 2 calls add. -/
def beforeRefused : List Event :=
  fill 255 ++ .add 1 255 (page 255) :: List.replicate 255 (.go 1)

/-- Thread 2 comes to the last slot, the first slot is freed, and thread 1 takes the last one. -/
def refusedTail : List Event := [.remove 0 0, .go 0, .go 1, .go 2]

def refused : List Event :=
  beforeRefused ++ .add 2 256 (page 256) :: (List.replicate 255 (.go 2) ++ refusedTail)

/-- Thread 2 in its call, with the first 255 slots owned and thread 1 at the last slot. -/
structure Waiting (s : State) : Prop where
  out : s.pc 0 = .out
  scanning : s.pc 1 = .scan 255 255
  first : s.life 0 = .live 0
  adding : s.life 256 = .adding
  busy : ∀ k < 255, (s.knownPools k).begin ≠ 0
  free : (s.knownPools 255).begin = 0
  region : s.region 255 = page 255

theorem exec_beforeRefused : ∃ s, Events.exec step init (beforeRefused ++ [.add 2 256 (page 256)]) =
    some s ∧ s.pc 2 = .scan 256 0 ∧ Waiting s := by
  obtain ⟨s, hs, h⟩ := filled (by decide : 255 ≤ POOL_LIMIT)
  have hadd := step_add (i := 1) (h.out 1) (h.fresh 255 le_rfl) fun q' hq' => by
    rw [h.region q' (h.mapped q' hq')]
    exact page_disjoint (Nat.ne_of_gt (h.mapped q' hq'))
  have hscan := exec_scan (s := (s.map 1 255 (page 255)).goto 1 (.scan 255 0) 255 .adding)
    (m := 255) (State.goto_pc_self ..) (State.goto_life_self ..)
    (fun j _ hj => h.busy j (by omega)) (by decide)
  rw [goto_goto, Nat.zero_add] at hscan
  set u := (s.map 1 255 (page 255)).goto 1 (.scan 255 255) 255 .adding
  have hregion : u.region 255 = page 255 := by simp [u, State.goto, State.map]
  have hcall := step_add (s := u) (i := 2) (q := 256)
    ((State.goto_pc_of_ne _ _ _ _ _ (by decide)).trans (h.out 2))
    ((State.goto_life_of_ne _ _ _ _ _ (by decide)).trans (h.fresh 256 (by decide))) fun q' hq' => by
      rcases List.mem_cons.mp hq' with rfl | hold
      · rw [hregion]
        exact page_disjoint (by decide)
      · have hlt := h.mapped q' hold
        have hsame : u.region q' = s.region q' := Function.update_of_ne (by omega) ..
        rw [hsame, h.region q' hlt]
        exact page_disjoint (by omega)
  set v := (u.map 2 256 (page 256)).goto 2 (.scan 256 0) 256 .adding
  refine ⟨v, ?_, State.goto_pc_self .., ?_⟩
  · rw [beforeRefused, List.append_assoc, Events.exec_append, hs, Option.bind_some,
      List.cons_append, Events.exec, hadd, Option.bind_some, Events.exec_append, hscan,
      Option.bind_some, Events.exec, hcall]
    rfl
  · refine ⟨?_, ?_, ?_, State.goto_life_self .., h.busy, h.free 255 le_rfl, ?_⟩
    · simp [v, u, State.goto, State.map, h.out]
    · simp [v, u, State.goto, State.map]
    · simp [v, u, State.goto, State.map, h.live]
    · simp [v, u, State.goto, State.map]

/-- The states after thread 2 has come to the last slot. -/
theorem exec_refusedTail (h : Waiting s) (hpc : s.pc 2 = .scan 256 255) :
    ∃ s₁ s₂ s₃ s₄, step s (.remove 0 0) = some s₁ ∧ step s₁ (.go 0) = some s₂ ∧
      step s₂ (.go 1) = some s₃ ∧ step s₃ (.go 2) = some s₄ ∧ s₄.pc 2 = .failed 256 ∧
      (s₁.knownPools 255).begin = 0 ∧ (s₂.knownPools 0).begin = 0 ∧
      (s₃.knownPools 0).begin = 0 ∧ (s₄.knownPools 0).begin = 0 := by
  have hremove : step s (.remove 0 0) = some (s.goto 0 (.clear 0 0) 0 (.leaving 0)) := by
    simp [step, h.first, h.out]
  set s₁ := s.goto 0 (.clear 0 0) 0 (.leaving 0)
  have hclear : step s₁ (.go 0) =
      some (((s₁.passScans 0).setBegin 0 0 none).goto 0 (.unmap 0) 0 .gone) := by
    simp [step, next, s₁, State.goto_pc_self]
  set s₂ := ((s₁.passScans 0).setBegin 0 0 none).goto 0 (.unmap 0) 0 .gone
  have hfree : (s₂.knownPools 255).begin = 0 :=
    ((s₁.passScans 0).setBegin_of_ne 0 0 none (by decide)).trans h.free
  have hscan₂ : s₂.pc 1 = .scan 255 255 := by
    simp [s₂, s₁, State.goto, State.setBegin, State.passScans, h.scanning]
  have hregion : s₂.region 255 = page 255 := h.region
  have htake : step s₂ (.go 1) = some ((s₂.setBegin 255 (page 255).begin (some 255)).goto 1
      (.store 255 255) 255 (.taken 255)) := by
    simp [step, next, hscan₂, hfree, hregion]
  set s₃ := (s₂.setBegin 255 (page 255).begin (some 255)).goto 1 (.store 255 255) 255 (.taken 255)
  have hbusy : (s₃.knownPools 255).begin ≠ 0 :=
    (s₂.setBegin_self 255 (page 255).begin (some 255)).trans_ne (by decide)
  have hscan₃ : s₃.pc 2 = .scan 256 255 := by
    simp [s₃, s₂, s₁, State.goto, State.setBegin, State.passScans, hpc]
  have hfail : step s₃ (.go 2) = some (s₃.goto 2 (.failed 256) 256 .adding) := by
    simp [step, next, hscan₃, hbusy, POOL_LIMIT]
  have hzero : (s₂.knownPools 0).begin = 0 := (s₁.passScans 0).setBegin_self 0 0 none
  have hzero₃ : (s₃.knownPools 0).begin = 0 :=
    (s₂.setBegin_of_ne 255 _ (some 255) (by decide)).trans hzero
  exact ⟨s₁, s₂, s₃, _, hremove, hclear, htake, hfail, State.goto_pc_self .., h.free, hzero,
    hzero₃, hzero₃⟩

/-- Where all slots are owned every begin is set. -/
theorem Full.begin_ne_zero {es : List Event} (h : Full s) (hs : Events.exec step init es = some s)
    (hk : k < POOL_LIMIT) : (s.knownPools k).begin ≠ 0 :=
  (Inv.run (Events.run_of_exec_true hs)).slots.begin_ne_zero_iff.mpr (h k hk)

/-- Thread 2 finds every slot taken although at every moment of its call one of them is free: the
    last one until thread 0 has freed the first, and the first from then on. -/
theorem refused_though_never_full : ∃ s, Events.exec step init refused = some s ∧
    s.pc 2 = .failed 256 ∧ ¬ Events.Since step init (StartsAdd 2) Full refused ∧
    ¬ Linearizable refused s := by
  obtain ⟨s, hs, hpc, h⟩ := exec_beforeRefused
  have hscan : ∀ {m}, m ≤ 255 → Events.exec step s (List.replicate m (.go 2)) =
      some (s.goto 2 (.scan 256 m) 256 .adding) := fun {m} hm => by
    rw [exec_scan hpc h.adding (fun j _ hj => h.busy j (by omega)) (by simp only [POOL_LIMIT]; omega),
      Nat.zero_add]
  have hwaiting : Waiting (s.goto 2 (.scan 256 255) 256 .adding) :=
    ⟨(State.goto_pc_of_ne _ _ _ _ _ (by decide)).trans h.out,
      (State.goto_pc_of_ne _ _ _ _ _ (by decide)).trans h.scanning,
      (State.goto_life_of_ne _ _ _ _ _ (by decide)).trans h.first, State.goto_life_self ..,
      h.busy, h.free, h.region⟩
  obtain ⟨s₁, s₂, s₃, s₄, h₁, h₂, h₃, h₄, hfailed, hfree₁, hfree₂, hfree₃, hfree₄⟩ :=
    exec_refusedTail hwaiting (State.goto_pc_self ..)
  have hexec : Events.exec step init refused = some s₄ := by
    rw [refused, List.append_cons, Events.exec_append, hs, Option.bind_some, Events.exec_append,
      hscan le_rfl, Option.bind_some]
    simp [refusedTail, Events.exec, h₁, h₂, h₃, h₄]
  have hnever : ¬ Events.Since step init (StartsAdd 2) Full refused := by
    intro hsince
    obtain ⟨before, after, u, hrest, hbefore, hfull⟩ := hsince.after_start rfl hs
    have hu : Events.exec step init (beforeRefused ++ [.add 2 256 (page 256)] ++ before) = some u := by
      rw [Events.exec_append, hs, Option.bind_some, hbefore]
    have hfirst := hfull.begin_ne_zero hu (by decide : 0 < POOL_LIMIT)
    have hlast := hfull.begin_ne_zero hu (by decide : 255 < POOL_LIMIT)
    rcases List.append_eq_append_iff.mp hrest with ⟨tail, rfl, htail⟩ | ⟨rest, hreplicate, rfl⟩
    · rw [Events.exec_append, hscan le_rfl, Option.bind_some] at hbefore
      rcases tail with _ | ⟨e₁, _ | ⟨e₂, _ | ⟨e₃, _ | ⟨e₄, tail⟩⟩⟩⟩ <;>
        simp only [refusedTail, List.nil_append, List.cons_append, List.cons.injEq] at htail
      · obtain rfl := Option.some.inj hbefore
        exact hlast h.free
      · obtain ⟨rfl, -⟩ := htail
        rw [Events.exec, h₁] at hbefore
        obtain rfl := Option.some.inj hbefore
        exact hlast hfree₁
      · obtain ⟨rfl, rfl, -⟩ := htail
        rw [Events.exec, h₁, Option.bind_some, Events.exec, h₂] at hbefore
        obtain rfl := Option.some.inj hbefore
        exact hfirst hfree₂
      · obtain ⟨rfl, rfl, rfl, -⟩ := htail
        rw [Events.exec, h₁, Option.bind_some, Events.exec, h₂, Option.bind_some, Events.exec,
          h₃] at hbefore
        obtain rfl := Option.some.inj hbefore
        exact hfirst hfree₃
      · obtain ⟨rfl, rfl, rfl, rfl, htail⟩ := htail
        obtain ⟨rfl, -⟩ := List.append_eq_nil_iff.mp htail.symm
        rw [Events.exec, h₁, Option.bind_some, Events.exec, h₂, Option.bind_some, Events.exec, h₃,
          Option.bind_some, Events.exec, h₄] at hbefore
        obtain rfl := Option.some.inj hbefore
        exact hfirst hfree₄
    · obtain ⟨hlength, hsame, -⟩ := List.replicate_eq_append_iff.mp hreplicate
      rw [hsame, hscan (by omega)] at hbefore
      obtain rfl := Option.some.inj hbefore
      exact hlast h.free
  exact ⟨s₄, hexec, hfailed, hnever, fun hlinear => hnever (hlinear.full 2 256 hfailed)⟩

end NonBlockingPool

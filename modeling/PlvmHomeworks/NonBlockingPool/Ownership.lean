import PlvmHomeworks.Lib.Threads
import PlvmHomeworks.NonBlockingPool.Registry

/-! What every interleaving keeps of the lock-free registry.

    A slot whose begin is not null belongs to one pool, from the exchange of its add to the store of
    its remove; the end of a slot is the end of the pool that has stored it last, and stays when the
    slot is freed. -/

namespace NonBlockingPool

variable {s t : State} {i j k q q' : ℕ}

/-- The pool of the call that the thread is in, and what has become of it. -/
def Pc.job : Pc → Option (ℕ × Life)
  | .out => none
  | .scan q _ | .failed q => some (q, .adding)
  | .store q k => some (q, .taken k)
  | .clear q k => some (q, .leaving k)
  | .unmap q => some (q, .gone)

/-- The calls of the threads are about pools of their own. -/
abbrev Jobs (s : State) : Prop := Threads.Jobs Pc.job s.pc s.life

/-- The pool has stored its end. -/
def Life.finished : Life → Bool
  | .live _ | .leaving _ | .gone => true
  | _ => false

/-- The pool is between the call of its add and the store of its remove. -/
def Life.active : Life → Bool
  | .adding | .taken _ | .live _ | .leaving _ => true
  | _ => false

/-- The slots, the pools that own them and the addresses these are mapped to. -/
structure Slots (s : State) : Prop where
  scan_lt : ∀ i q k, s.pc i = .scan q k → k < POOL_LIMIT
  owned : ∀ q k, (s.life q).slot = some k →
    k < POOL_LIMIT ∧ (s.knownPools k).begin = (s.region q).begin ∧ s.beginBy k = some q
  begun : ∀ k, (s.knownPools k).begin ≠ 0 → ∃ q, (s.life q).slot = some k
  positive : ∀ q, s.life q ≠ .fresh → 0 < (s.region q).begin
  stored : ∀ q k, (s.life q).slot = some k → (s.life q).finished = true → s.endBy k = some q
  ended : ∀ k q, s.endBy k = some q →
    (s.knownPools k).end_ = (s.region q).end_ ∧ (s.life q).finished = true
  mapped : ∀ q, (s.life q).active = true → q ∈ s.mapped
  disjoint : ∀ q ∈ s.mapped, ∀ q' ∈ s.mapped, q ≠ q' → (s.region q).Disjoint (s.region q')

theorem Life.ne_fresh {l : Life} (h : l.slot = some k) : l ≠ .fresh := by
  rintro rfl
  cases h

namespace State
variable (s) (i : ℕ) (pc : Pc) (q : ℕ) (l : Life)

theorem goto_life (q' : ℕ) : q' = q ∧ (s.goto i pc q l).life q' = l ∨
    q' ≠ q ∧ (s.goto i pc q l).life q' = s.life q' := by
  by_cases hq : q' = q
  · exact .inl ⟨hq, hq ▸ Function.update_self ..⟩
  · exact .inr ⟨hq, Function.update_of_ne hq ..⟩

theorem goto_pc (j : ℕ) : j = i ∧ (s.goto i pc q l).pc j = pc ∨
    j ≠ i ∧ (s.goto i pc q l).pc j = s.pc j := by
  by_cases hj : j = i
  · exact .inl ⟨hj, hj ▸ Function.update_self ..⟩
  · exact .inr ⟨hj, Function.update_of_ne hj ..⟩

theorem goto_pc_self : (s.goto i pc q l).pc i = pc := Function.update_self ..

theorem goto_pc_of_ne (h : j ≠ i) : (s.goto i pc q l).pc j = s.pc j := Function.update_of_ne h ..

theorem goto_life_self : (s.goto i pc q l).life q = l := Function.update_self ..

theorem goto_life_of_ne (h : q' ≠ q) : (s.goto i pc q l).life q' = s.life q' :=
  Function.update_of_ne h ..

section
variable (slot begin end_ : ℕ) (pool : Option ℕ) {j : ℕ}

theorem setBegin_self : ((s.setBegin slot begin pool).knownPools slot).begin = begin := by
  simp [setBegin]

theorem setBegin_of_ne (h : j ≠ slot) : ((s.setBegin slot begin pool).knownPools j).begin =
    (s.knownPools j).begin := congrArg MemPool.begin (Function.update_of_ne h ..)

theorem setBegin_end (j : ℕ) : ((s.setBegin slot begin pool).knownPools j).end_ =
    (s.knownPools j).end_ := by
  by_cases h : j = slot
  · subst h
    simp [setBegin]
  · simp [setBegin, h]

theorem setBegin_by_self : (s.setBegin slot begin pool).beginBy slot = pool :=
  Function.update_self ..

theorem setBegin_by_of_ne (h : j ≠ slot) :
    (s.setBegin slot begin pool).beginBy j = s.beginBy j := Function.update_of_ne h ..

theorem setEnd_self : ((s.setEnd slot end_ pool).knownPools slot).end_ = end_ := by
  simp [setEnd]

theorem setEnd_of_ne (h : j ≠ slot) : ((s.setEnd slot end_ pool).knownPools j).end_ =
    (s.knownPools j).end_ := congrArg MemPool.end_ (Function.update_of_ne h ..)

theorem setEnd_begin (j : ℕ) : ((s.setEnd slot end_ pool).knownPools j).begin =
    (s.knownPools j).begin := by
  by_cases h : j = slot
  · subst h
    simp [setEnd]
  · simp [setEnd, h]

theorem setEnd_by_self : (s.setEnd slot end_ pool).endBy slot = pool := Function.update_self ..

theorem setEnd_by_of_ne (h : j ≠ slot) : (s.setEnd slot end_ pool).endBy j = s.endBy j :=
  Function.update_of_ne h ..

end

end State

namespace Slots

/-- No two pools own one slot. -/
theorem exclusive (h : Slots s) (hq : (s.life q).slot = some k) (hq' : (s.life q').slot = some k) :
    q = q' :=
  Option.some.inj ((h.owned q k hq).2.2.symm.trans (h.owned q' k hq').2.2)

/-- A slot has a begin exactly when a pool owns it. -/
theorem begin_ne_zero_iff (h : Slots s) :
    (s.knownPools k).begin ≠ 0 ↔ ∃ q, (s.life q).slot = some k := by
  refine ⟨h.begun k, fun ⟨q, hq⟩ => ?_⟩
  have hpos := h.positive q (Life.ne_fresh hq)
  rw [(h.owned q k hq).2.1]
  omega

theorem ne_of_slot (h : Slots s) (hq : (s.life q).slot = some k) (hne : q' ≠ q) :
    (s.life q').slot ≠ some k :=
  fun hq' => hne (h.exclusive hq' hq)

theorem setHandler (h : Slots s) (handler : Handler) : Slots { s with handler := handler } :=
  ⟨h.scan_lt, h.owned, h.begun, h.positive, h.stored, h.ended, h.mapped, h.disjoint⟩

/-- A step that only changes where a thread is, and a pool that keeps the slot it owns. -/
theorem keep (h : Slots s) {pc : Pc} {l : Life} (hscan : ∀ q' k, pc = .scan q' k → k < POOL_LIMIT)
    (hslot : l.slot = (s.life q).slot) (hpos : 0 < (s.region q).begin)
    (hfinished : (s.life q).finished = true → l.finished = true)
    (hstored : l.slot ≠ none → l.finished = true → (s.life q).finished = true)
    (hactive : l.active = true → q ∈ s.mapped) : Slots (s.goto i pc q l) := by
  have hsame : ∀ q', ((s.goto i pc q l).life q').slot = (s.life q').slot := fun q' => by
    rcases State.goto_life s i pc q l q' with ⟨rfl, hl⟩ | ⟨-, hl⟩
    · rw [hl, hslot]
    · rw [hl]
  refine ⟨fun j q' k hj => ?_, fun q' k hq' => h.owned q' k ((hsame q').symm.trans hq'),
    fun k hk => ?_, fun q' hq' => ?_, fun q' k hq' hfin => ?_, fun k q' hq' => ?_,
    fun q' hq' => ?_, h.disjoint⟩
  · rcases State.goto_pc s i pc q l j with ⟨-, hpc⟩ | ⟨-, hpc⟩
    · exact hscan q' k (hpc.symm.trans hj)
    · exact h.scan_lt j q' k (hpc.symm.trans hj)
  · obtain ⟨q', hq'⟩ := h.begun k hk
    exact ⟨q', (hsame q').trans hq'⟩
  · rcases State.goto_life s i pc q l q' with ⟨rfl, -⟩ | ⟨-, hl⟩
    · exact hpos
    · exact h.positive q' (hl ▸ hq')
  · refine h.stored q' k ((hsame q').symm.trans hq') ?_
    rcases State.goto_life s i pc q l q' with ⟨rfl, hl⟩ | ⟨-, hl⟩ <;> rw [hl] at hq' hfin
    · exact hstored (by simp [hq']) hfin
    · exact hfin
  · obtain ⟨hend, hfin⟩ := h.ended k q' hq'
    refine ⟨hend, ?_⟩
    rcases State.goto_life s i pc q l q' with ⟨rfl, hl⟩ | ⟨-, hl⟩ <;> rw [hl]
    · exact hfinished hfin
    · exact hfin
  · rcases State.goto_life s i pc q l q' with ⟨rfl, hl⟩ | ⟨-, hl⟩ <;> rw [hl] at hq'
    · exact hactive hq'
    · exact h.mapped q' hq'

/-- mmap gives a pool that no thread has begun with its addresses. -/
theorem map (h : Slots s) {r : Region} (hfresh : s.life q = .fresh)
    (hr : ∀ q' ∈ s.mapped, r.Disjoint (s.region q')) : Slots (s.map i q r) := by
  have hregion : ∀ {q'}, q' ≠ q → (s.map i q r).region q' = s.region q' :=
    fun hne => Function.update_of_ne hne ..
  have hne : ∀ {q'}, s.life q' ≠ .fresh → q' ≠ q := fun hq heq => hq (heq ▸ hfresh)
  refine ⟨h.scan_lt, fun q' k hq' => ?_, h.begun, fun q' hq' => ?_, h.stored, fun k q' hq' => ?_,
    fun q' hq' => List.mem_cons_of_mem _ (h.mapped q' hq'), fun q₁ h₁ q₂ h₂ hne₁₂ => ?_⟩
  · rw [hregion (hne (Life.ne_fresh hq'))]
    exact h.owned q' k hq'
  · rw [hregion (hne hq')]
    exact h.positive q' hq'
  · obtain ⟨hend, hfin⟩ := h.ended k q' hq'
    rw [hregion (hne fun hq => by rw [hq] at hfin; cases hfin)]
    exact ⟨hend, hfin⟩
  · have hself : (s.map i q r).region q = r := Function.update_self ..
    by_cases hq₁ : q₁ = q
    · subst hq₁
      rw [hself, hregion hne₁₂.symm]
      exact hr q₂ ((List.mem_cons.mp h₂).resolve_left hne₁₂.symm)
    · by_cases hq₂ : q₂ = q
      · subst hq₂
        rw [hself, hregion hq₁]
        exact (hr q₁ ((List.mem_cons.mp h₁).resolve_left hq₁)).symm
      · rw [hregion hq₁, hregion hq₂]
        exact h.disjoint q₁ ((List.mem_cons.mp h₁).resolve_left hq₁) q₂
          ((List.mem_cons.mp h₂).resolve_left hq₂) hne₁₂

/-- The exchange of add takes a free slot. -/
theorem take (h : Slots s) (hk : k < POOL_LIMIT) (hfree : (s.knownPools k).begin = 0)
    (hlife : s.life q = .adding) :
    Slots ((s.setBegin k (s.region q).begin (some q)).goto i (.store q k) q (.taken k)) := by
  set u := s.setBegin k (s.region q).begin (some q)
  have hnone : ∀ q', (s.life q').slot ≠ some k := fun q' hq' =>
    h.begin_ne_zero_iff.mpr ⟨q', hq'⟩ hfree
  refine ⟨fun j q' k' hj => ?_, fun q' k' hq' => ?_, fun k' hk' => ?_, fun q' hq' => ?_,
    fun q' k' hq' hfin => ?_, fun k' q' hq' => ?_, fun q' hq' => ?_, h.disjoint⟩
  · rcases u.goto_pc i (.store q k) q (.taken k) j with ⟨-, hpc⟩ | ⟨-, hpc⟩
    · cases hpc.symm.trans hj
    · exact h.scan_lt j q' k' (hpc.symm.trans hj)
  · rcases u.goto_life i (.store q k) q (.taken k) q' with ⟨rfl, hl⟩ | ⟨-, hl⟩ <;> rw [hl] at hq'
    · obtain rfl := Option.some.inj hq'
      exact ⟨hk, State.setBegin_self s k _ (some q'), State.setBegin_by_self s k (s.region q').begin _⟩
    · have hne : k' ≠ k := fun heq => hnone q' (heq ▸ hq')
      obtain ⟨hlt, hbegin, hby⟩ := h.owned q' k' hq'
      exact ⟨hlt, (State.setBegin_of_ne s k _ (some q) hne).trans hbegin,
        (State.setBegin_by_of_ne s k (s.region q).begin _ hne).trans hby⟩
  · by_cases hne : k' = k
    · exact ⟨q, by rw [State.goto_life_self, hne]; rfl⟩
    · obtain ⟨q', hq'⟩ := h.begun k' (State.setBegin_of_ne s k _ (some q) hne ▸ hk')
      have hqq : q' ≠ q := fun heq => by
        rw [heq, hlife] at hq'
        cases hq'
      exact ⟨q', by rw [State.goto_life_of_ne _ _ _ _ _ hqq]; exact hq'⟩
  · rcases u.goto_life i (.store q k) q (.taken k) q' with ⟨rfl, -⟩ | ⟨-, hl⟩
    · exact h.positive q' (by simp [hlife])
    · exact h.positive q' (hl ▸ hq')
  · rcases u.goto_life i (.store q k) q (.taken k) q' with ⟨rfl, hl⟩ | ⟨-, hl⟩ <;>
      rw [hl] at hq' hfin
    · cases hfin
    · exact h.stored q' k' hq' hfin
  · obtain ⟨hend, hfin⟩ := h.ended k' q' hq'
    refine ⟨(State.setBegin_end s k _ (some q) k').trans hend, ?_⟩
    rcases u.goto_life i (.store q k) q (.taken k) q' with ⟨rfl, -⟩ | ⟨-, hl⟩
    · rw [hlife] at hfin
      cases hfin
    · rw [hl]
      exact hfin
  · rcases u.goto_life i (.store q k) q (.taken k) q' with ⟨rfl, -⟩ | ⟨-, hl⟩
    · exact h.mapped q' (by rw [hlife]; rfl)
    · exact h.mapped q' (hl ▸ hq')

/-- The store of the end publishes the pool. -/
theorem store (h : Slots s) (hlife : s.life q = .taken k) :
    Slots ((s.setEnd k (s.region q).end_ (some q)).goto i .out q (.live k)) := by
  set u := s.setEnd k (s.region q).end_ (some q)
  have hslot : (s.life q).slot = some k := by rw [hlife]; rfl
  have hsame : ∀ q', ((u.goto i .out q (.live k)).life q').slot = (s.life q').slot := fun q' => by
    rcases u.goto_life i .out q (.live k) q' with ⟨rfl, hl⟩ | ⟨-, hl⟩ <;> rw [hl]
    · exact hslot.symm
    · rfl
  refine ⟨fun j q' k' hj => ?_, fun q' k' hq' => ?_, fun k' hk' => ?_, fun q' hq' => ?_,
    fun q' k' hq' hfin => ?_, fun k' q' hq' => ?_, fun q' hq' => ?_, h.disjoint⟩
  · rcases u.goto_pc i .out q (.live k) j with ⟨-, hpc⟩ | ⟨-, hpc⟩
    · cases hpc.symm.trans hj
    · exact h.scan_lt j q' k' (hpc.symm.trans hj)
  · obtain ⟨hlt, hown, hby⟩ := h.owned q' k' ((hsame q').symm.trans hq')
    exact ⟨hlt, (State.setEnd_begin s k _ (some q) k').trans hown, hby⟩
  · obtain ⟨q', hq'⟩ := h.begun k' fun hz => hk' ((State.setEnd_begin s k _ (some q) k').trans hz)
    exact ⟨q', (hsame q').trans hq'⟩
  · rcases u.goto_life i .out q (.live k) q' with ⟨rfl, -⟩ | ⟨-, hl⟩
    · exact h.positive q' (by simp [hlife])
    · exact h.positive q' (hl ▸ hq')
  · have hslot' := (hsame q').symm.trans hq'
    rcases u.goto_life i .out q (.live k) q' with ⟨rfl, -⟩ | ⟨hne, hl⟩
    · obtain rfl := Option.some.inj (hslot.symm.trans hslot')
      exact State.setEnd_by_self s k (s.region q').end_ _
    · have hk' : k' ≠ k := fun heq => h.ne_of_slot hslot hne (heq ▸ hslot')
      exact (State.setEnd_by_of_ne s k (s.region q).end_ _ hk').trans (h.stored q' k' hslot' (hl ▸ hfin))
  · by_cases hk' : k' = k
    · have hqq : q = q' := by
        rw [hk'] at hq'
        exact Option.some.inj ((State.setEnd_by_self s k (s.region q).end_ _).symm.trans hq')
      refine ⟨?_, by rw [← hqq, State.goto_life_self]; rfl⟩
      rw [← hqq, hk']
      exact State.setEnd_self s k _ (some q)
    · obtain ⟨hend, hfin⟩ := h.ended k' q'
        ((State.setEnd_by_of_ne s k (s.region q).end_ _ hk').symm.trans hq')
      refine ⟨(State.setEnd_of_ne s k _ (some q) hk').trans hend, ?_⟩
      rcases u.goto_life i .out q (.live k) q' with ⟨-, hl⟩ | ⟨-, hl⟩ <;> rw [hl]
      · rfl
      · exact hfin
  · rcases u.goto_life i .out q (.live k) q' with ⟨rfl, -⟩ | ⟨-, hl⟩
    · exact h.mapped q' (by rw [hlife]; rfl)
    · exact h.mapped q' (hl ▸ hq')

/-- The store of remove frees the slot; its end stays. -/
theorem clear (h : Slots s) (hlife : s.life q = .leaving k) :
    Slots (((s.passScans k).setBegin k 0 none).goto i (.unmap q) q .gone) := by
  set u := (s.passScans k).setBegin k 0 none
  have hslot : (s.life q).slot = some k := by rw [hlife]; rfl
  have hslots : ∀ {q' k'}, ((u.goto i (.unmap q) q .gone).life q').slot = some k' →
      q' ≠ q ∧ (s.life q').slot = some k' ∧ k' ≠ k := fun {q' k'} hq' => by
    rcases u.goto_life i (.unmap q) q .gone q' with ⟨rfl, hl⟩ | ⟨hne, hl⟩ <;> rw [hl] at hq'
    · cases hq'
    · exact ⟨hne, hq', fun heq => h.ne_of_slot hslot hne (heq ▸ hq')⟩
  refine ⟨fun j q' k' hj => ?_, fun q' k' hq' => ?_, fun k' hk' => ?_, fun q' hq' => ?_,
    fun q' k' hq' hfin => ?_, fun k' q' hq' => ?_, fun q' hq' => ?_, h.disjoint⟩
  · rcases u.goto_pc i (.unmap q) q .gone j with ⟨-, hpc⟩ | ⟨-, hpc⟩
    · cases hpc.symm.trans hj
    · exact h.scan_lt j q' k' (hpc.symm.trans hj)
  · obtain ⟨-, hq', hk'⟩ := hslots hq'
    obtain ⟨hlt, hown, hby⟩ := h.owned q' k' hq'
    exact ⟨hlt, (State.setBegin_of_ne _ k 0 none hk').trans hown,
      (State.setBegin_by_of_ne _ k 0 none hk').trans hby⟩
  · have hne : k' ≠ k := fun heq => hk' (heq ▸ State.setBegin_self _ k 0 none)
    obtain ⟨q', hq'⟩ := h.begun k' (State.setBegin_of_ne _ k 0 none hne ▸ hk')
    have hqq : q' ≠ q := fun heq => hne (Option.some.inj ((heq ▸ hq').symm.trans hslot))
    exact ⟨q', by rw [State.goto_life_of_ne _ _ _ _ _ hqq]; exact hq'⟩
  · rcases u.goto_life i (.unmap q) q .gone q' with ⟨rfl, -⟩ | ⟨-, hl⟩
    · exact h.positive q' (by simp [hlife])
    · exact h.positive q' (hl ▸ hq')
  · obtain ⟨hne, hq', -⟩ := hslots hq'
    rw [State.goto_life_of_ne _ _ _ _ _ hne] at hfin
    exact h.stored q' k' hq' hfin
  · obtain ⟨hend, hfin⟩ := h.ended k' q' hq'
    refine ⟨(State.setBegin_end _ k 0 none k').trans hend, ?_⟩
    rcases u.goto_life i (.unmap q) q .gone q' with ⟨-, hl⟩ | ⟨-, hl⟩ <;> rw [hl]
    · rfl
    · exact hfin
  · rcases u.goto_life i (.unmap q) q .gone q' with ⟨-, hl⟩ | ⟨-, hl⟩ <;> rw [hl] at hq'
    · cases hq'
    · exact h.mapped q' hq'

theorem unmap (h : Slots s) (hlife : s.life q = .gone) :
    Slots { s with mapped := s.mapped.erase q } where
  scan_lt := h.scan_lt
  owned := h.owned
  begun := h.begun
  positive := h.positive
  stored := h.stored
  ended := h.ended
  mapped q' hq' := by
    have hne : q' ≠ q := fun heq => by
      rw [heq, hlife] at hq'
      cases hq'
    exact (List.mem_erase_of_ne hne).mpr (h.mapped q' hq')
  disjoint q₁ h₁ q₂ h₂ := h.disjoint q₁ (List.mem_of_mem_erase h₁) q₂ (List.mem_of_mem_erase h₂)

end Slots

/-- The handler only reads the registry. -/
theorem handle_cases (h : handle s = some t) : ∃ handler, t = { s with handler := handler } := by
  unfold handle at h
  split at h
  · dsimp only at h
    split at h
    · split at h <;> exact ⟨_, (Option.some.inj h).symm⟩
    · exact ⟨_, (Option.some.inj h).symm⟩
  · dsimp only at h
    split at h <;> exact ⟨_, (Option.some.inj h).symm⟩
  · cases h

/-- What every step keeps. -/
structure Inv (s : State) : Prop where
  jobs : Jobs s
  slots : Slots s

namespace Inv

theorem init : Inv init where
  jobs := ⟨fun _ _ _ hi => (by simp [NonBlockingPool.init, Pc.job] at hi),
    fun _ _ _ _ _ hi => (by simp [NonBlockingPool.init, Pc.job] at hi)⟩
  slots := ⟨fun _ _ _ hi => (by simp [NonBlockingPool.init] at hi),
    fun _ _ hq => (by simp [NonBlockingPool.init, Life.slot] at hq),
    fun _ hk => absurd rfl hk, fun _ hq => absurd rfl hq,
    fun _ _ hq => (by simp [NonBlockingPool.init, Life.slot] at hq),
    fun _ _ hk => (by simp [NonBlockingPool.init] at hk),
    fun _ hq => (by simp [NonBlockingPool.init, Life.active] at hq),
    fun _ hq => absurd hq List.not_mem_nil⟩

theorem next (h : Inv s) (hnext : NonBlockingPool.next s i = some t) : Inv t := by
  have hjob := h.jobs.job i
  have hadvance : ∀ {q : ℕ} {l l' : Life} {pc : Pc}, (s.pc i).job = some (q, l) →
      (pc.job = some (q, l') ∨ pc.job = none) → Jobs (s.goto i pc q l') :=
    fun hi hpc => h.jobs.advance hi hpc
  have hscan := h.slots.scan_lt i
  cases hpc : s.pc i <;> simp only [NonBlockingPool.next, hpc] at hnext hjob hscan hadvance
  case out => cases hnext
  case scan q k =>
    have hlife : s.life q = .adding := hjob q _ rfl
    have hpos : 0 < (s.region q).begin := h.slots.positive q (by simp [hlife])
    have hmapped : q ∈ s.mapped := h.slots.mapped q (by rw [hlife]; rfl)
    have hkeep : ∀ {pc : Pc}, (∀ q' k, pc = .scan q' k → k < POOL_LIMIT) →
        Slots (s.goto i pc q .adding) := fun hlt =>
      h.slots.keep hlt (by rw [hlife]) hpos (fun hfin => by rw [hlife] at hfin; exact hfin)
        (fun hslot => absurd rfl hslot) fun _ => hmapped
    split at hnext
    next hfree =>
      obtain rfl := Option.some.inj hnext
      exact ⟨hadvance rfl (.inl rfl), h.slots.take (hscan q k rfl) hfree hlife⟩
    next =>
      split at hnext <;> obtain rfl := Option.some.inj hnext
      next hlt => exact ⟨hadvance rfl (.inl rfl), hkeep fun q' k' heq => by cases heq; exact hlt⟩
      next => exact ⟨hadvance rfl (.inl rfl), hkeep fun q' k' heq => by cases heq⟩
  case store q k =>
    obtain rfl := Option.some.inj hnext
    exact ⟨hadvance rfl (.inr rfl), h.slots.store (hjob q _ rfl)⟩
  case failed q =>
    obtain rfl := Option.some.inj hnext
    have hlife : s.life q = .adding := hjob q _ rfl
    refine ⟨hadvance rfl (.inr rfl), h.slots.keep (fun q' k heq => by cases heq) ?_
      (h.slots.positive q (by simp [hlife])) (fun _ => rfl) (fun hslot => absurd rfl hslot)
      fun hactive => by cases hactive⟩
    rw [hlife]
    rfl
  case clear q k =>
    obtain rfl := Option.some.inj hnext
    exact ⟨hadvance rfl (.inl rfl), h.slots.clear (hjob q _ rfl)⟩
  case unmap q =>
    obtain rfl := Option.some.inj hnext
    have hlife : s.life q = .gone := hjob q _ rfl
    refine ⟨hadvance rfl (.inr rfl), (h.slots.unmap hlife).keep (fun q' k heq => by cases heq)
      (congrArg Life.slot hlife).symm (h.slots.positive q (by simp [hlife])) (fun _ => rfl)
      (fun hslot => absurd rfl hslot) fun hactive => by cases hactive⟩

theorem step {e : Event} (h : Inv s) (hstep : NonBlockingPool.step s e = some t) : Inv t := by
  cases e with
  | add i q r =>
    obtain ⟨⟨hout, hfresh, hpos, hlt, hr⟩, rfl⟩ := Option.ite_some_none_eq_some.mp hstep
    have hidle : ∀ j l, (s.pc j).job = some (q, l) → s.life q ≠ l := fun j l hj => by
      rw [hfresh]
      rintro rfl
      cases hpc : s.pc j <;> rw [hpc] at hj <;> cases hj
    refine ⟨h.jobs.begin hidle (.inl rfl), (h.slots.map hfresh hr).keep
      (fun q' k heq => by cases heq; decide) ?_ ?_ (fun hfin => ?_) (fun hslot => absurd rfl hslot)
      fun _ => List.mem_cons_self⟩
    · exact (congrArg Life.slot hfresh).symm
    · have hself : (s.map i q r).region q = r := Function.update_self ..
      rw [hself]
      exact hpos
    · exact absurd ((congrArg Life.finished hfresh).symm.trans hfin) (by decide)
  | remove i q =>
    simp only [NonBlockingPool.step] at hstep
    split at hstep
    next k hlive =>
      obtain ⟨hout, rfl⟩ := Option.ite_some_none_eq_some.mp hstep
      have hidle : ∀ j l, (s.pc j).job = some (q, l) → s.life q ≠ l := fun j l hj => by
        rw [hlive]
        rintro rfl
        cases hpc : s.pc j <;> rw [hpc] at hj <;> cases hj
      refine ⟨h.jobs.begin hidle (.inl rfl), h.slots.keep (fun q' k heq => by cases heq)
        (congrArg Life.slot hlive).symm (h.slots.positive q (by simp [hlive])) (fun _ => rfl)
        (fun _ _ => by rw [hlive]; rfl) fun _ => h.slots.mapped q (by rw [hlive]; rfl)⟩
    next => cases hstep
  | go i => exact h.next hstep
  | fault p =>
    simp only [NonBlockingPool.step] at hstep
    split at hstep
    · cases hstep
    · obtain rfl := Option.some.inj hstep
      exact ⟨h.jobs, h.slots.setHandler _⟩
  | handle =>
    obtain ⟨handler, rfl⟩ := handle_cases hstep
    exact ⟨h.jobs, h.slots.setHandler handler⟩

/-- The invariant holds after every run. -/
theorem run {ok : State → Event → Prop} {es : List Event}
    (h : Events.Run NonBlockingPool.step ok NonBlockingPool.init es s) : Inv s :=
  h.invariant init fun _ _ _ ha _ hstep => ha.step hstep

end Inv

end NonBlockingPool

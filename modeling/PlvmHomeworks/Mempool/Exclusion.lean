import Mathlib.Data.List.Nodup
import PlvmHomeworks.Lib.Threads
import PlvmHomeworks.Mempool.Registry

/-! Mutual exclusion of the pool registry.

    pool_registry_spinlock leaves its loop when an exchange fails. A thread that is alone locks with
    one exchange and leaves with the next; a thread that finds the lock taken leaves at once. Where
    only the thread that has stored the status fails on it, at most one thread is in the registry,
    and then every live pool keeps an index of its own. -/

namespace Mempool

variable {s t : State} {i j q q' : ℕ}

/-- The thread is between a completed pool_registry_spinlock and its pool_registry_unlock. -/
def Pc.inSection : Pc → Bool
  | .out | .lockAdd _ | .lockRemove _ => false
  | _ => true

/-- The thread is in the loop of pool_registry_spinlock. -/
def Pc.isLocking : Pc → Bool
  | .lockAdd _ | .lockRemove _ => true
  | _ => false

/-- A thread that leaves the loop of the spin lock has stored the status it fails on. -/
def OwnExchange (s : State) : Event → Prop
  | .go i => (s.pc i).isLocking = true → s.status ≠ .idle → s.writer = some i
  | _ => True

instance (s : State) (e : Event) : Decidable (OwnExchange s e) := by
  cases e <;> unfold OwnExchange <;> infer_instance

/-- One thread at a time is in the registry; live pools have indices of their own, and the entry
    at the index of a live pool is that pool. -/
structure Exclusive (s : State) : Prop where
  section_unique : ∀ i j, (s.pc i).inSection = true → (s.pc j).inSection = true → i = j
  index_unique : ∀ q q', s.life q = .live → s.life q' = .live →
    s.registerIndex q = s.registerIndex q' → q = q'
  index_lt : ∀ q, s.life q = .live → s.registerIndex q < POOL_LIMIT
  known : ∀ q, s.life q = .live → s.knownPools (s.registerIndex q) = some q

/-- The pool of the call that the thread is in, and what has become of it. -/
def Pc.job : Pc → Option (ℕ × Life)
  | .out => none
  | .lockAdd q | .reserve q | .choose q | .front q | .pop q | .full q | .grow q | .publish q =>
    some (q, .adding)
  | .unlockAdd q => some (q, .stored)
  | .lockRemove q | .push q => some (q, .leaving)
  | .clear q | .unlockRemove q => some (q, .freeing)

/-- The pool has an entry in known_pools and its index is not free. -/
def Life.inTable : Life → Bool
  | .stored | .live | .leaving => true
  | _ => false

/-- What a step in the registry changes outside the tables: the thread goes on with its call, keeps
    the lock or has unlocked it. -/
structure Moves (s : State) (i : ℕ) (t : State) : Prop where
  section_of : (s.pc i).inSection = true
  goes : ∃ (u : State) (pc : Pc) (q : ℕ) (l l' : Life),
    t = u.goto i pc q l' ∧ u.pc = s.pc ∧ u.life = s.life ∧
    (s.pc i).job = some (q, l) ∧ (pc.job = some (q, l') ∨ pc.job = none) ∧
    (u.status = s.status ∧ u.writer = s.writer ∨
      u.status = .idle ∧ u.writer = none ∧ pc.inSection = false)

/-- A step of a thread is a round of the spin lock or a step in the registry. -/
theorem next_cases (h : next s i = some t) :
    (∃ (pc : Pc) (q : ℕ) (l : Life), (s.pc i).isLocking = true ∧ (s.pc i).job = some (q, l) ∧
      pc.job = some (q, l) ∧
      t = s.spin i (s.goto i pc q l)) ∨ Moves s i t := by
  have hstay : ∀ {u : State} {pc : Pc} {q : ℕ} {l l' : Life}, (s.pc i).inSection = true →
      t = u.goto i pc q l' →
      u.pc = s.pc → u.life = s.life → (s.pc i).job = some (q, l) →
      (pc.job = some (q, l') ∨ pc.job = none) → u.status = s.status → u.writer = s.writer →
      Moves s i t := fun hin ht hpc hlife hjob hjob' hstatus hwriter =>
    ⟨hin, _, _, _, _, _, ht, hpc, hlife, hjob, hjob', .inl ⟨hstatus, hwriter⟩⟩
  have hunlock : ∀ {q : ℕ} {l l' : Life}, (s.pc i).inSection = true → (s.pc i).job = some (q, l) →
      t = s.unlock.goto i .out q l' → Moves s i t := fun hin hjob ht =>
    ⟨hin, _, _, _, _, _, ht, rfl, rfl, hjob, .inr rfl, .inr ⟨rfl, rfl, rfl⟩⟩
  cases hpc : s.pc i <;> simp only [next, hpc] at h hstay hunlock
  case out => cases h
  case lockAdd q | lockRemove q =>
    exact .inl ⟨_, q, _, rfl, rfl, rfl, (Option.some.inj h).symm⟩
  case choose q =>
    split at h
    · exact .inr (hstay rfl (Option.some.inj h).symm rfl rfl rfl (.inl rfl) rfl rfl)
    · split at h <;>
        exact .inr (hstay rfl (Option.some.inj h).symm rfl rfl rfl (.inl rfl) rfl rfl)
  case front q | pop q =>
    split at h
    · cases h
    · exact .inr (hstay rfl (Option.some.inj h).symm rfl rfl rfl (.inl rfl) rfl rfl)
  case full q => exact .inr (hstay rfl (Option.some.inj h).symm rfl rfl rfl (.inr rfl) rfl rfl)
  case unlockAdd q | unlockRemove q => exact .inr (hunlock rfl rfl (Option.some.inj h).symm)
  all_goals exact .inr (hstay rfl (Option.some.inj h).symm rfl rfl rfl (.inl rfl) rfl rfl)

/-- The thread in the registry is the one whose exchange has stored the status. -/
structure Locked (s : State) : Prop where
  owner : ∀ i, (s.pc i).inSection = true → s.writer = some i
  idle : s.status = .idle → s.writer = none

namespace Locked

theorem unique (h : Locked s) (hi : (s.pc i).inSection = true) (hj : (s.pc j).inSection = true) :
    i = j :=
  Option.some.inj ((h.owner i hi).symm.trans (h.owner j hj))

/-- A thread goes on; if it is then in the registry it has stored the status. -/
theorem goto (h : Locked s) {pc : Pc} {l : Life} (hpc : pc.inSection = true → s.writer = some i) :
    Locked (s.goto i pc q l) where
  owner j hj := by
    by_cases hji : j = i
    · subst hji
      exact hpc (by simpa using hj)
    · exact h.owner j (by rwa [State.goto_pc_of_ne hji] at hj)
  idle := h.idle

theorem moves (h : Locked s) (hmove : Moves s i t) : Locked t := by
  obtain ⟨hin, u, pc, q, l, l', rfl, hpc, -, -, -, ⟨hstatus, hwriter⟩ | ⟨-, hwriter, hout⟩⟩ := hmove
  · have hu : Locked u := ⟨by rw [hpc, hwriter]; exact h.owner, by rw [hstatus, hwriter]; exact h.idle⟩
    exact hu.goto fun _ => hwriter.trans (h.owner i hin)
  · refine ⟨fun j hj => ?_, fun _ => hwriter⟩
    by_cases hji : j = i
    · subst hji
      simp [hout] at hj
    · rw [State.goto_pc_of_ne hji, hpc] at hj
      exact absurd (h.unique hj hin) hji

/-- A round of the spin lock: the exchange takes the lock, or fails on the thread's own status. -/
theorem spin (h : Locked s) {pc : Pc} {l : Life} (hown : s.status ≠ .idle → s.writer = some i) :
    Locked (s.spin i (s.goto i pc q l)) := by
  unfold State.spin
  split
  next hidle =>
    refine ⟨fun j hj => ?_, fun hupdating => by cases hupdating⟩
    exact absurd (h.owner j hj) (by simp [h.idle hidle])
  next hbusy => exact h.goto fun _ => hown hbusy

theorem step {e : Event} (h : Locked s) (hown : OwnExchange s e)
    (hstep : Mempool.step s e = some t) : Locked t := by
  cases e with
  | add i q =>
    obtain ⟨-, rfl⟩ := Option.ite_some_none_eq_some.mp hstep
    exact h.goto (by simp [Pc.inSection])
  | remove i q =>
    obtain ⟨-, rfl⟩ := Option.ite_some_none_eq_some.mp hstep
    exact h.goto (by simp [Pc.inSection])
  | go i =>
    obtain ⟨pc, q, l, hlocking, -, -, rfl⟩ | hmove := next_cases hstep
    · exact h.spin (hown hlocking)
    · exact h.moves hmove

end Locked

/-- The calls of the threads are about pools of their own. -/
abbrev Jobs (s : State) : Prop := Threads.Jobs Pc.job s.pc s.life

theorem Pc.life_of_job {pc : Pc} {l : Life} (h : pc.job = some (q, l)) :
    l ≠ .absent ∧ l ≠ .live := by
  cases pc <;> cases h <;> simp

theorem jobs_step {e : Event} (h : Jobs s) (hstep : step s e = some t) : Jobs t := by
  cases e with
  | add i q =>
    obtain ⟨⟨-, hlife⟩, rfl⟩ := Option.ite_some_none_eq_some.mp hstep
    exact h.begin (fun j l hj => hlife ▸ (Pc.life_of_job hj).1.symm) (.inl rfl)
  | remove i q =>
    obtain ⟨⟨-, hlife⟩, rfl⟩ := Option.ite_some_none_eq_some.mp hstep
    exact h.begin (fun j l hj => hlife ▸ (Pc.life_of_job hj).2.symm) (.inl rfl)
  | go i =>
    obtain ⟨pc, q, l, hlocking, hi, hpc, rfl⟩ | hmove := next_cases hstep
    · unfold State.spin
      split
      · exact h
      · exact h.advance hi (.inl hpc)
    · obtain ⟨-, u, pc, q, l, l', rfl, hupc, hlife, hi, hpc, -⟩ := hmove
      have hu : Jobs u := by
        rw [Jobs, hupc, hlife]
        exact h
      exact hu.advance (hupc ▸ hi) hpc

/-- The pool has its entry, at an index that is not free. -/
structure Registered (s : State) (q : ℕ) : Prop where
  known : s.knownPools (s.registerIndex q) = some q
  lt : s.registerIndex q < s.firstFree
  notMem : s.registerIndex q ∉ s.freeSlots

/-- What the thread in the registry has established on the way to a statement. -/
def AtPc (s : State) : Pc → Prop
  | .choose q => s.registerIndex q = s.firstFree
  | .pop q => s.freeSlots.head? = some (s.registerIndex q)
  | .grow q => s.registerIndex q = s.firstFree ∧ s.firstFree < POOL_LIMIT
  | .publish q => s.knownPools (s.registerIndex q) = none ∧ s.registerIndex q < s.firstFree ∧
      s.registerIndex q ∉ s.freeSlots
  | .clear q => s.knownPools (s.registerIndex q) = some q ∧ s.registerIndex q < s.firstFree
  | _ => True

theorem atPc_of_outside {pc : Pc} (h : pc.inSection = false) : AtPc s pc := by
  cases pc <;> trivial

/-- The tables of the registry, as far as the thread in it has got. -/
structure Table (s : State) : Prop where
  registered : ∀ q, (s.life q).inTable = true → Registered s q
  nodup : s.freeSlots.Nodup
  free_lt : ∀ k ∈ s.freeSlots, k < s.firstFree
  bound : s.firstFree ≤ POOL_LIMIT
  fresh : ∀ k, s.firstFree ≤ k → s.knownPools k = none
  cleared : ∀ k ∈ s.freeSlots,
    s.knownPools k = none ∨ ∃ i q, s.pc i = .clear q ∧ s.registerIndex q = k
  at_pc : ∀ i, AtPc s (s.pc i)

namespace Table

theorem setLock (h : Table s) (status : PoolRegisterStatus) (writer : Option ℕ) :
    Table { s with status := status, writer := writer } where
  registered q hq :=
    ⟨(h.registered q hq).known, (h.registered q hq).lt, (h.registered q hq).notMem⟩
  nodup := h.nodup
  free_lt := h.free_lt
  bound := h.bound
  fresh := h.fresh
  cleared := h.cleared
  at_pc := h.at_pc

/-- A step that leaves the tables alone. -/
theorem keep (h : Table s) {pc : Pc} {l : Life} (hl : l.inTable = true → (s.life q).inTable = true)
    (hclear : ∀ q', s.pc i ≠ .clear q' ∨ s.knownPools (s.registerIndex q') = none)
    (hat : AtPc s pc) : Table (s.goto i pc q l) where
  registered q' hq' := by
    have hin : (s.life q').inTable = true := by
      by_cases hqq : q' = q
      · subst hqq
        exact hl (by simpa using hq')
      · rwa [State.goto_life_of_ne hqq] at hq'
    exact ⟨(h.registered q' hin).known, (h.registered q' hin).lt, (h.registered q' hin).notMem⟩
  nodup := h.nodup
  free_lt := h.free_lt
  bound := h.bound
  fresh := h.fresh
  cleared k hk := by
    rcases h.cleared k hk with hnone | ⟨j, q', hj, rfl⟩
    · exact .inl hnone
    · by_cases hji : j = i
      · subst hji
        exact .inl ((hclear q').resolve_left fun hne => hne hj)
      · exact .inr ⟨j, q', by rw [State.goto_pc_of_ne hji, hj], rfl⟩
  at_pc j := by
    by_cases hji : j = i
    · subst hji
      rw [State.goto_pc_self]
      exact hat
    · rw [State.goto_pc_of_ne hji]
      exact h.at_pc j

/-- A step of the only thread in the registry. -/
theorem change {pc : Pc} {l : Life} (halone : ∀ j, (s.pc j).inSection = true → j = i)
    (hother : ∀ q', q' ≠ q → (s.life q').inTable = true → Registered s q')
    (hself : l.inTable = true → Registered s q) (hnodup : s.freeSlots.Nodup)
    (hlt : ∀ k ∈ s.freeSlots, k < s.firstFree) (hbound : s.firstFree ≤ POOL_LIMIT)
    (hfresh : ∀ k, s.firstFree ≤ k → s.knownPools k = none)
    (hcleared : ∀ k ∈ s.freeSlots,
      s.knownPools k = none ∨ pc = .clear q ∧ s.registerIndex q = k)
    (hat : AtPc s pc) : Table (s.goto i pc q l) where
  registered q' hq' := by
    have hreg : Registered s q' := by
      by_cases hqq : q' = q
      · subst hqq
        exact hself (by simpa using hq')
      · exact hother q' hqq (by rwa [State.goto_life_of_ne hqq] at hq')
    exact ⟨hreg.known, hreg.lt, hreg.notMem⟩
  nodup := hnodup
  free_lt := hlt
  bound := hbound
  fresh := hfresh
  cleared k hk := by
    rcases hcleared k hk with hnone | ⟨rfl, hindex⟩
    · exact .inl hnone
    · exact .inr ⟨i, q, State.goto_pc_self, hindex⟩
  at_pc j := by
    by_cases hji : j = i
    · subst hji
      rw [State.goto_pc_self]
      exact hat
    · rw [State.goto_pc_of_ne hji]
      refine atPc_of_outside ?_
      by_contra hin
      exact hji (halone j (by simpa using hin))

section
variable (h : Table s) (halone : ∀ j, (s.pc j).inSection = true → j = i)
include h halone

/-- Unless the thread in the registry is about to clear an entry, the free slots are empty. -/
theorem free_none (hclear : ∀ q', s.pc i ≠ .clear q') {k : ℕ} (hk : k ∈ s.freeSlots) :
    s.knownPools k = none := by
  rcases h.cleared k hk with hnone | ⟨j, q', hj, -⟩
  · exact hnone
  · obtain rfl := halone j (by rw [hj]; rfl)
    exact absurd hj (hclear q')

/-- A pool that is not in the tables gets a new index. -/
theorem setIndex (hclear : ∀ q', s.pc i ≠ .clear q') {k : ℕ} {pc : Pc}
    (hat : AtPc (s.setIndex q k) pc) : Table ((s.setIndex q k).goto i pc q .adding) := by
  refine change halone (fun q' hq' hin => ?_) (fun hl => by cases hl) h.nodup h.free_lt h.bound
    h.fresh (fun j hj => .inl (h.free_none halone hclear hj)) hat
  obtain ⟨hknown, hlt, hmem⟩ := h.registered q' hin
  have hsame : (s.setIndex q k).registerIndex q' = s.registerIndex q' := Function.update_of_ne hq' ..
  exact ⟨by rw [hsame]; exact hknown, by rw [hsame]; exact hlt, by rw [hsame]; exact hmem⟩

theorem pop (hpc : s.pc i = .pop q) {k : ℕ} {rest : List ℕ} (hfree : s.freeSlots = k :: rest) :
    Table ({ s with freeSlots := rest }.goto i (.publish q) q .adding) := by
  have hat := h.at_pc i
  rw [hpc, AtPc, hfree, List.head?_cons, Option.some.injEq] at hat
  subst hat
  have hnodup := h.nodup
  rw [hfree, List.nodup_cons] at hnodup
  have hmem : s.registerIndex q ∈ s.freeSlots := by rw [hfree]; exact List.mem_cons_self
  have hsub : ∀ j ∈ rest, j ∈ s.freeSlots := fun j hj => by
    rw [hfree]
    exact List.mem_cons_of_mem _ hj
  refine change halone (fun q' _ hin => ?_) (fun hl => by cases hl) hnodup.2
    (fun j hj => h.free_lt j (hsub j hj)) h.bound h.fresh
    (fun j hj => .inl (h.free_none halone (by simp [hpc]) (hsub j hj)))
    ⟨h.free_none halone (by simp [hpc]) hmem, h.free_lt _ hmem, hnodup.1⟩
  obtain ⟨hknown, hlt, hnot⟩ := h.registered q' hin
  exact ⟨hknown, hlt, fun hrest => hnot (hsub _ hrest)⟩

theorem grow (hpc : s.pc i = .grow q) :
    Table ({ s with firstFree := s.firstFree + 1 }.goto i (.publish q) q .adding) := by
  have hat := h.at_pc i
  rw [hpc] at hat
  obtain ⟨hindex, hlt⟩ := hat
  refine change halone (fun q' _ hin => ?_) (fun hl => by cases hl) h.nodup
    (fun j hj => Nat.lt_succ_of_lt (h.free_lt j hj)) hlt
    (fun k hk => h.fresh k (Nat.le_of_succ_le hk))
    (fun j hj => .inl (h.free_none halone (by simp [hpc]) hj))
    ⟨h.fresh _ (Nat.le_of_eq hindex.symm), hindex.symm ▸ Nat.lt_succ_self _, fun hmem => ?_⟩
  · obtain ⟨hknown, hlt', hnot⟩ := h.registered q' hin
    exact ⟨hknown, Nat.lt_succ_of_lt hlt', hnot⟩
  · exact absurd (h.free_lt _ hmem) (by simp [hindex])

theorem publish (hpc : s.pc i = .publish q) :
    Table ((s.setKnown (s.registerIndex q) (some q)).goto i (.unlockAdd q) q .stored) := by
  have hat := h.at_pc i
  rw [hpc] at hat
  obtain ⟨hnone, hlt, hmem⟩ := hat
  have hne : ∀ {k}, k ≠ s.registerIndex q →
      (s.setKnown (s.registerIndex q) (some q)).knownPools k = s.knownPools k :=
    fun hk => Function.update_of_ne hk ..
  refine change halone (fun q' _ hin => ?_) (fun _ => ⟨Function.update_self .., hlt, hmem⟩) h.nodup
    h.free_lt h.bound (fun k hk => ?_) (fun j hj => .inl ?_) trivial
  · obtain ⟨hknown, hlt', hnot⟩ := h.registered q' hin
    have hindex : s.registerIndex q' ≠ s.registerIndex q := fun heq => by
      rw [heq, hnone] at hknown
      cases hknown
    exact ⟨(hne hindex).trans hknown, hlt', hnot⟩
  · have hk : s.firstFree ≤ k := hk
    exact (hne (by omega)).trans (h.fresh k hk)
  · exact (hne fun heq => hmem (heq ▸ hj)).trans (h.free_none halone (by simp [hpc]) hj)

theorem push (hpc : s.pc i = .push q) (hlife : s.life q = .leaving) :
    Table ({ s with freeSlots := s.freeSlots ++ [s.registerIndex q] }.goto i (.clear q) q
      .freeing) := by
  obtain ⟨hknown, hlt, hmem⟩ := h.registered q (by rw [hlife]; rfl)
  refine change halone (fun q' hq' hin => ?_) (fun hl => by cases hl) ?_ (fun j hj => ?_) h.bound
    h.fresh (fun j hj => ?_) ⟨hknown, hlt⟩
  · obtain ⟨hknown', hlt', hnot⟩ := h.registered q' hin
    refine ⟨hknown', hlt', fun happ => ?_⟩
    rcases List.mem_append.mp happ with hold | hnew
    · exact hnot hold
    · rw [List.mem_singleton.mp hnew, hknown] at hknown'
      exact hq' (Option.some.inj hknown').symm
  · exact List.nodup_append.mpr ⟨h.nodup, List.nodup_singleton _, fun a ha b hb heq =>
      hmem (by rw [← List.mem_singleton.mp hb, ← heq]; exact ha)⟩
  · rcases List.mem_append.mp hj with hold | hnew
    · exact h.free_lt j hold
    · rw [List.mem_singleton.mp hnew]
      exact hlt
  · rcases List.mem_append.mp hj with hold | hnew
    · exact .inl (h.free_none halone (by simp [hpc]) hold)
    · exact .inr ⟨rfl, (List.mem_singleton.mp hnew).symm⟩

theorem clear (hpc : s.pc i = .clear q) (hlife : s.life q = .freeing) :
    Table ((s.setKnown (s.registerIndex q) none).goto i (.unlockRemove q) q .freeing) := by
  have hat := h.at_pc i
  rw [hpc] at hat
  obtain ⟨hentry, hlt⟩ := hat
  have hset : ∀ k, s.knownPools k = none →
      (s.setKnown (s.registerIndex q) none).knownPools k = none := fun k hk => by
    by_cases heq : k = s.registerIndex q
    · rw [heq]
      exact Function.update_self ..
    · exact (Function.update_of_ne heq ..).trans hk
  refine change halone (fun q' hq' hin => ?_) (fun hl => by cases hl) h.nodup h.free_lt h.bound
    (fun k hk => hset k (h.fresh k hk)) (fun j hj => .inl ?_) trivial
  · obtain ⟨hknown, hlt', hnot⟩ := h.registered q' hin
    have hindex : s.registerIndex q' ≠ s.registerIndex q := fun heq => by
      rw [heq, hentry] at hknown
      exact hq' (Option.some.inj hknown).symm
    exact ⟨(Function.update_of_ne hindex ..).trans hknown, hlt', hnot⟩
  · rcases h.cleared j hj with hnone | ⟨k, q', hk, hindex⟩
    · exact hset j hnone
    · obtain rfl := halone k (by rw [hk]; rfl)
      obtain rfl : q' = q := Pc.clear.inj (hk.symm.trans hpc)
      rw [← hindex]
      exact Function.update_self ..

end

theorem next (h : Table s) (hlocked : Locked s) (hjobs : Jobs s)
    (hnext : Mempool.next s i = some t) : Table t := by
  have halone : (s.pc i).inSection = true → ∀ j, (s.pc j).inSection = true → j = i :=
    fun hi j hj => hlocked.unique hj hi
  have hjob := hjobs.job i
  have hat := h.at_pc i
  cases hpc : s.pc i <;> simp only [Mempool.next, hpc] at hnext halone hjob hat
  case out => cases hnext
  case lockAdd q =>
    obtain rfl := Option.some.inj hnext
    unfold State.spin
    split
    · exact h.setLock _ _
    · exact h.keep (fun hl => by cases hl) (fun q' => .inl (by simp [hpc])) trivial
  case lockRemove q =>
    obtain rfl := Option.some.inj hnext
    unfold State.spin
    split
    · exact h.setLock _ _
    · exact h.keep (fun _ => by rw [hjob q _ rfl]; rfl) (fun q' => .inl (by simp [hpc])) trivial
  case reserve q =>
    obtain rfl := Option.some.inj hnext
    exact h.setIndex (halone rfl) (by simp [hpc]) (Function.update_self ..)
  case choose q =>
    have hkeep : ∀ {pc}, AtPc s pc → Table (s.goto i pc q .adding) := fun hpc' =>
      h.keep (fun hl => by cases hl) (fun q' => .inl (by simp [hpc])) hpc'
    split at hnext
    next =>
      obtain rfl := Option.some.inj hnext
      exact hkeep trivial
    next =>
      split at hnext <;> obtain rfl := Option.some.inj hnext
      next => exact hkeep trivial
      next hfull => exact hkeep ⟨hat, Nat.lt_of_le_of_ne h.bound hfull⟩
  case front q =>
    split at hnext
    next => cases hnext
    next k rest hfree =>
      obtain rfl := Option.some.inj hnext
      refine h.setIndex (halone rfl) (by simp [hpc]) ?_
      simp [AtPc, State.setIndex, hfree]
  case pop q =>
    split at hnext
    next => cases hnext
    next k rest hfree =>
      obtain rfl := Option.some.inj hnext
      exact h.pop (halone rfl) hpc hfree
  case full q =>
    obtain rfl := Option.some.inj hnext
    exact h.keep (fun hl => by cases hl) (fun q' => .inl (by simp [hpc])) trivial
  case grow q =>
    obtain rfl := Option.some.inj hnext
    exact h.grow (halone rfl) hpc
  case publish q =>
    obtain rfl := Option.some.inj hnext
    exact h.publish (halone rfl) hpc
  case unlockAdd q =>
    obtain rfl := Option.some.inj hnext
    have hunlocked : Table s.unlock := h.setLock _ _
    refine hunlocked.keep (fun _ => ?_) (fun q' => .inl ?_) trivial
    · exact (congrArg Life.inTable (hjob q _ rfl)).trans rfl
    · exact fun hclear => by cases hpc.symm.trans hclear
  case push q =>
    obtain rfl := Option.some.inj hnext
    exact h.push (halone rfl) hpc (hjob q _ rfl)
  case clear q =>
    obtain rfl := Option.some.inj hnext
    exact h.clear (halone rfl) hpc (hjob q _ rfl)
  case unlockRemove q =>
    obtain rfl := Option.some.inj hnext
    have hunlocked : Table s.unlock := h.setLock _ _
    exact hunlocked.keep (fun hl => by cases hl)
      (fun q' => .inl fun hclear => by cases hpc.symm.trans hclear) trivial

theorem step {e : Event} (h : Table s) (hlocked : Locked s) (hjobs : Jobs s)
    (hstep : Mempool.step s e = some t) : Table t := by
  cases e with
  | add i q =>
    obtain ⟨⟨hout, -⟩, rfl⟩ := Option.ite_some_none_eq_some.mp hstep
    exact h.keep (fun hl => by cases hl) (fun q' => .inl (by simp [hout])) trivial
  | remove i q =>
    obtain ⟨⟨hout, hlive⟩, rfl⟩ := Option.ite_some_none_eq_some.mp hstep
    exact h.keep (fun _ => by rw [hlive]; rfl) (fun q' => .inl (by simp [hout])) trivial
  | go i => exact h.next hlocked hjobs hstep

end Table

/-- What every step keeps. -/
structure Inv (s : State) : Prop where
  locked : Locked s
  jobs : Jobs s
  table : Table s

theorem Inv.init : Inv init where
  locked := ⟨fun _ hi => (by simp [Mempool.init, Pc.inSection] at hi), fun _ => rfl⟩
  jobs := ⟨fun _ _ _ hi => (by simp [Mempool.init, Pc.job] at hi),
    fun _ _ _ _ _ hi => (by simp [Mempool.init, Pc.job] at hi)⟩
  table := ⟨fun _ hq => (by simp [Mempool.init, Life.inTable] at hq), List.nodup_nil,
    fun _ hk => absurd hk List.not_mem_nil, Nat.zero_le _, fun _ _ => rfl,
    fun _ hk => absurd hk List.not_mem_nil, fun _ => trivial⟩

theorem Inv.step {e : Event} (h : Inv s) (hown : OwnExchange s e)
    (hstep : Mempool.step s e = some t) : Inv t :=
  ⟨h.locked.step hown hstep, jobs_step h.jobs hstep, h.table.step h.locked h.jobs hstep⟩

/-- Any number of threads, any sequence of calls and any interleaving in which an exchange fails
    only on the status that the same thread has stored. -/
theorem registry_exclusive {es : List Event} (h : Events.Run step OwnExchange init es s) :
    Exclusive s := by
  have hinv : Inv s := h.invariant Inv.init fun _ _ _ ha hown hstep => ha.step hown hstep
  have hreg : ∀ q, s.life q = .live → Registered s q := fun q hq =>
    hinv.table.registered q (by rw [hq]; rfl)
  refine ⟨fun i j hi hj => hinv.locked.unique hi hj, fun q q' hq hq' hindex => ?_, fun q hq => ?_,
    fun q hq => (hreg q hq).known⟩
  · have hknown := (hreg q hq).known
    rw [hindex, (hreg q' hq').known] at hknown
    exact (Option.some.inj hknown).symm
  · exact Nat.lt_of_lt_of_le (hreg q hq).lt hinv.table.bound

/-- A call of pool_registry_add by thread i, with both rounds of its spin lock. -/
def addCall (i pool : ℕ) : List Event := .add i pool :: List.replicate 7 (.go i)

def twoAdds : List Event := addCall 0 10 ++ addCall 1 11

theorem registry_exclusive_twoAdds :
    ∃ s, Events.exec step init twoAdds = some s ∧ s.life 10 = .live ∧ s.life 11 = .live ∧
      Exclusive s := by
  obtain ⟨s, hs⟩ : ∃ s, Events.exec step init twoAdds = some s :=
    Option.isSome_iff_exists.mp (by decide)
  have hlife : (Events.exec step init twoAdds).map (fun s => (s.life 10, s.life 11)) =
    some (.live, .live) := by decide
  simp only [hs, Option.map_some, Option.some.injEq, Prod.mk.injEq] at hlife
  exact ⟨s, hs, hlife.1, hlife.2, registry_exclusive (Events.run_of_exec hs (by decide))⟩

/-- Thread 0 has stored UPDATING; thread 1 fails on it and is in the registry, then thread 0. -/
def overlapping : List Event :=
  [.add 0 10, .add 1 11, .go 0, .go 1, .go 0]

/-- The two threads go on in turns; then both have returned. -/
def overlappingReturned : List Event :=
  overlapping ++ (List.replicate 5 [.go 0, .go 1]).flatten

/-- Two threads are in the registry, both take index 0, and the entry of the first pool is lost. -/
theorem spinlock_admits_two :
    (∃ s, Events.exec step init overlapping = some s ∧ (s.pc 0).inSection = true ∧
      (s.pc 1).inSection = true ∧ ¬ Exclusive s) ∧
    ∃ s, Events.exec step init overlappingReturned = some s ∧ s.life 10 = .live ∧
      s.life 11 = .live ∧ s.registerIndex 10 = s.registerIndex 11 ∧
      s.knownPools (s.registerIndex 10) = some 11 ∧ ¬ Exclusive s := by
  constructor
  · obtain ⟨s, hs⟩ : ∃ s, Events.exec step init overlapping = some s :=
      Option.isSome_iff_exists.mp (by decide)
    have hpc : (Events.exec step init overlapping).map
        (fun s => ((s.pc 0).inSection, (s.pc 1).inSection)) = some (true, true) := by decide
    simp only [hs, Option.map_some, Option.some.injEq, Prod.mk.injEq] at hpc
    exact ⟨s, hs, hpc.1, hpc.2, fun h => absurd (h.section_unique 0 1 hpc.1 hpc.2) (by decide)⟩
  · obtain ⟨s, hs⟩ : ∃ s, Events.exec step init overlappingReturned = some s :=
      Option.isSome_iff_exists.mp (by decide)
    have hend : (Events.exec step init overlappingReturned).map
        (fun s => (s.life 10, s.life 11, s.registerIndex 10, s.registerIndex 11,
          s.knownPools (s.registerIndex 10))) = some (.live, .live, 0, 0, some 11) := by decide
    simp only [hs, Option.map_some, Option.some.injEq, Prod.mk.injEq] at hend
    obtain ⟨hlive, hlive', hindex, hindex', hknown⟩ := hend
    exact ⟨s, hs, hlive, hlive', hindex.trans hindex'.symm, hknown, fun h =>
      absurd (h.index_unique 10 11 hlive hlive' (hindex.trans hindex'.symm)) (by decide)⟩

end Mempool

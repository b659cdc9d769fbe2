import Mathlib.Data.Set.Card
import PlvmHomeworks.Lib.Slots
import PlvmHomeworks.Mempool.Registry

/-! Calls of the pool registry that are executed one at a time.

    A call is what the steps of its thread do while all other threads are outside the registry. An
    add that finds no slot throws past pool_registry_unlock: the status stays UPDATING, and the
    calls after it leave the loop of pool_registry_spinlock with their first exchange. -/

namespace Mempool

/-- pool_registry_spinlock(UPDATING) by a thread that is alone. The loop repeats while the exchange
    succeeds, which it does once if the status is IDLE and not at all otherwise. -/
def State.spinlock (s : State) (i : ℕ) : State :=
  if s.status = .idle then { s with status := .updating, writer := some i } else s

/-- known_pools[pool->register_index] = pool, pool_registry_unlock, and the return of the add. -/
def State.register (s : State) (i pool : ℕ) : State :=
  (s.setKnown (s.registerIndex pool) (some pool)).unlock.goto i .out pool .live

/-- The if of pool_registry_add, and what follows it: the state in which the call returns, or throws. -/
def takeSlot (s : State) (i pool : ℕ) : Except State State :=
  match s.freeSlots with
  | front :: rest => .ok ({ s.setIndex pool front with freeSlots := rest }.register i pool)
  | [] =>
    if s.firstFree = POOL_LIMIT then .error (s.goto i .out pool .absent)
    else .ok ({ s with firstFree := s.firstFree + 1 }.register i pool)

/-- pool_registry_add by thread i. -/
def poolRegistryAdd (s : State) (i pool : ℕ) : Except State State :=
  let s := s.spinlock i
  takeSlot (s.setIndex pool s.firstFree) i pool

/-- free_pool_slots.push(pool->register_index). -/
def State.push (s : State) (pool : ℕ) : State :=
  { s with freeSlots := s.freeSlots ++ [s.registerIndex pool] }

/-- pool_registry_remove by thread i. -/
def poolRegistryRemove (s : State) (i pool : ℕ) : State :=
  let s := (s.spinlock i).push pool
  (s.setKnown (s.registerIndex pool) none).unlock.goto i .out pool .absent

inductive Call
  | add (i pool : ℕ)
  | remove (i pool : ℕ)

def Call.thread : Call → ℕ
  | .add i _ | .remove i _ => i

/-- The event with which the thread of the call begins it. -/
def Call.event : Call → Event
  | .add i pool => .add i pool
  | .remove i pool => .remove i pool

/-- The state that a call leaves, whether it returns or throws. -/
def leaves : Except State State → State
  | .ok t | .error t => t

/-- A call of pool_registry_add with a pool that is not in the registry, or of pool_registry_remove with
    one that is live. -/
def call (s : State) : Call → Option State
  | .add i pool => if s.life pool = .absent then some (leaves (poolRegistryAdd s i pool)) else none
  | .remove i pool => if s.life pool = .live then some (poolRegistryRemove s i pool) else none

/-! ### Calls and the steps of their threads -/

variable {s t u : State} {i pool : ℕ}

/-- Thread i can go from one state to the other. -/
def Goes (i : ℕ) (s t : State) : Prop := ∃ n, Events.exec step s (List.replicate n (.go i)) = some t

theorem Goes.refl : Goes i s s := ⟨0, rfl⟩

theorem Goes.head (h : next s i = some t) (ht : Goes i t u) : Goes i s u := by
  obtain ⟨n, hn⟩ := ht
  exact ⟨n + 1, Option.bind_eq_some_iff.mpr ⟨t, h, hn⟩⟩

/-- The rounds of the spin lock: a thread that takes the lock leaves the loop with its next exchange. -/
theorem Goes.spinlock {pc pc' : Pc} {l l' : Life}
    (hnext : ∀ s : State, s.pc i = pc → next s i = some (s.spin i (s.goto i pc' pool l')))
    (h : Goes i ((s.spinlock i).goto i pc' pool l') u) : Goes i (s.goto i pc pool l) u := by
  have hround : ∀ s : State, next (s.goto i pc pool l) i =
      some (if s.status = .idle then { s with status := .updating, writer := some i }.goto i pc pool l
        else s.goto i pc' pool l') := by
    intro s
    rw [hnext _ State.goto_pc_self, State.spin, State.goto_goto]
    rfl
  unfold State.spinlock at h
  split at h
  · refine .head ((hround s).trans (congrArg some (if_pos ‹_›))) ?_
    exact .head ((hround _).trans (congrArg some (if_neg (by simp)))) h
  · exact .head ((hround s).trans (congrArg some (if_neg ‹_›))) h

theorem Goes.statement {S : State} {pc : Pc} {l : Life} (T : State) (pc' : Pc) (l' : Life)
    (hnext : next (S.goto i pc pool l) i = some ((T.goto i pc pool l).goto i pc' pool l'))
    (h : Goes i (T.goto i pc' pool l') u) : Goes i (S.goto i pc pool l) u :=
  .head (hnext.trans (congrArg some State.goto_goto)) h

theorem Goes.last {S T : State} {pc pc' : Pc} {l l' : Life}
    (hnext : next (S.goto i pc pool l) i = some ((T.goto i pc pool l).goto i pc' pool l')) :
    Goes i (S.goto i pc pool l) (T.goto i pc' pool l') :=
  Goes.statement T pc' l' hnext .refl

theorem goes_register {l : Life} : Goes i (s.goto i (.publish pool) pool l) (s.register i pool) := by
  refine .statement (s.setKnown (s.registerIndex pool) (some pool)) (.unlockAdd pool) .stored ?_
    (.last ?_)
  · rw [next, State.goto_pc_self]
    rfl
  · rw [next, State.goto_pc_self]
    rfl

theorem goes_takeSlot : Goes i (s.goto i (.choose pool) pool .adding) (leaves (takeSlot s i pool)) := by
  unfold takeSlot
  split
  next front rest hfree =>
    refine .statement s (.front pool) .adding (by simp [next, hfree]) ?_
    refine .statement (s.setIndex pool front) (.pop pool) .adding ?_ ?_
    · simp only [next, State.goto_pc_self, State.goto_freeSlots, hfree]
      rfl
    refine .statement { s.setIndex pool front with freeSlots := rest } _ .adding ?_ goes_register
    simp only [next, State.goto_pc_self, State.goto_freeSlots, State.setIndex, hfree]
    rfl
  next hfree =>
    split
    next hfull =>
      refine .statement s (.full pool) .adding (by simp [next, hfree, hfull]) ?_
      exact .last (by simp [next])
    next hroom =>
      refine .statement s (.grow pool) .adding (by simp [next, hfree, hroom]) ?_
      refine .statement { s with firstFree := s.firstFree + 1 } _ .adding ?_ goes_register
      rw [next, State.goto_pc_self]
      rfl

/-- An add is what the steps of its thread do, up to its return or its throw. -/
theorem goes_poolRegistryAdd (s : State) (i pool : ℕ) :
    Goes i (s.goto i (.lockAdd pool) pool .adding) (leaves (poolRegistryAdd s i pool)) := by
  refine Goes.spinlock (fun s hs => by rw [next, hs]) ?_
  refine .statement _ _ _ ?_ goes_takeSlot
  rw [next, State.goto_pc_self]
  rfl

/-- A remove is what the steps of its thread do, up to its return. -/
theorem goes_poolRegistryRemove (s : State) (i pool : ℕ) :
    Goes i (s.goto i (.lockRemove pool) pool .leaving) (poolRegistryRemove s i pool) := by
  refine Goes.spinlock (fun s hs => by rw [next, hs]) ?_
  refine .statement ((s.spinlock i).push pool) (.clear pool) .freeing ?_ ?_
  · rw [next, State.goto_pc_self]
    rfl
  refine .statement (((s.spinlock i).push pool).setKnown ((s.spinlock i).registerIndex pool) none)
    (.unlockRemove pool) .freeing ?_ (.last ?_)
  · rw [next, State.goto_pc_self]
    rfl
  · rw [next, State.goto_pc_self]
    rfl

/-- A call is a run of its thread from outside the registry to outside the registry. -/
theorem exec_call {c : Call} (hout : s.pc c.thread = .out) (h : call s c = some t) :
    ∃ n, Events.exec step s (c.event :: List.replicate n (.go c.thread)) = some t := by
  cases c with
  | add i pool =>
    obtain ⟨hlife, rfl⟩ := Option.ite_some_none_eq_some.mp h
    obtain ⟨n, hn⟩ := goes_poolRegistryAdd s i pool
    exact ⟨n, Option.bind_eq_some_iff.mpr ⟨_, if_pos ⟨hout, hlife⟩, hn⟩⟩
  | remove i pool =>
    obtain ⟨hlife, rfl⟩ := Option.ite_some_none_eq_some.mp h
    obtain ⟨n, hn⟩ := goes_poolRegistryRemove s i pool
    exact ⟨n, Option.bind_eq_some_iff.mpr ⟨_, if_pos ⟨hout, hlife⟩, hn⟩⟩

theorem goto_out {l : Life} (hout : ∀ j, s.pc j = .out) (j : ℕ) : (s.goto i .out pool l).pc j = .out := by
  by_cases hj : j = i
  · subst hj
    exact State.goto_pc_self
  · rw [State.goto_pc_of_ne hj, hout]

/-- After a call its thread is outside the registry again. -/
theorem call_out {c : Call} (hout : ∀ j, s.pc j = .out) (h : call s c = some t) : ∀ j, t.pc j = .out := by
  have hlocked : ∀ i j, (s.spinlock i).pc j = .out := by
    intro i j
    unfold State.spinlock
    split <;> exact hout j
  cases c with
  | add i pool =>
    obtain ⟨-, rfl⟩ := Option.ite_some_none_eq_some.mp h
    unfold poolRegistryAdd takeSlot
    simp only
    split
    · exact goto_out (hlocked i)
    · split <;> exact goto_out (hlocked i)
  | remove i pool =>
    obtain ⟨-, rfl⟩ := Option.ite_some_none_eq_some.mp h
    exact goto_out (hlocked i)

/-- Calls executed one at a time are a run of the steps of their threads. -/
theorem exists_steps {calls : List Call} (h : Events.exec call init calls = some s) :
    (∃ es, Events.exec step init es = some s) ∧ ∀ j, s.pc j = .out := by
  refine (Events.run_of_exec_true h).invariant
    (I := fun s => (∃ es, Events.exec step init es = some s) ∧ ∀ j, s.pc j = .out)
    ⟨⟨[], rfl⟩, fun _ => rfl⟩ ?_
  rintro a c b ⟨⟨es, hes⟩, hout⟩ - hcall
  obtain ⟨n, hn⟩ := exec_call (hout _) hcall
  refine ⟨⟨es ++ c.event :: List.replicate n (.go c.thread), ?_⟩, call_out hout hcall⟩
  rw [Events.exec_append, hes]
  exact hn

/-! ### The slots -/

/-- The live pools have slots of their own, with their entries in known_pools; the other slots below
    first_free_pool_slot have no entry and are in free_pool_slots once. An add throws if and only if
    all slots belong to live pools. -/
structure SlotsKept (s : State) : Prop where
  index_unique : ∀ q q', s.life q = .live → s.life q' = .live →
    s.registerIndex q = s.registerIndex q' → q = q'
  index_lt : ∀ q, s.life q = .live → s.registerIndex q < POOL_LIMIT
  known : ∀ q, s.life q = .live → s.knownPools (s.registerIndex q) = some q
  others : ∀ k < s.firstFree, (∀ q, s.life q = .live → s.registerIndex q ≠ k) →
    s.knownPools k = none ∧ s.freeSlots.count k = 1
  throws : ∀ i pool, (∃ t, poolRegistryAdd s i pool = .error t) ↔ {q | s.life q = .live}.encard = POOL_LIMIT

/-- The pools in held are live, and share the slots below first_free_pool_slot with the free ones. -/
structure Recycled (s : State) (held : List ℕ) : Prop where
  live_iff : ∀ q, s.life q = .live ↔ q ∈ held
  shared : Slots.Shared s.registerIndex held s.freeSlots s.firstFree
  bound : s.firstFree ≤ POOL_LIMIT
  known : ∀ k q, s.knownPools k = some q ↔ q ∈ held ∧ s.registerIndex q = k

namespace Recycled
variable {held : List ℕ}

theorem init : Recycled init [] where
  live_iff q := ⟨fun h => (by cases h), fun h => absurd h List.not_mem_nil⟩
  shared := .start
  bound := Nat.zero_le _
  known k q := ⟨fun h => (by cases h), fun h => absurd h.1 List.not_mem_nil⟩

theorem spinlock (h : Recycled s held) : Recycled (s.spinlock i) held := by
  unfold State.spinlock
  split
  · exact ⟨h.live_iff, h.shared, h.bound, h.known⟩
  · exact h

theorem setIndex {k : ℕ} (h : Recycled s held) (hpool : pool ∉ held) : Recycled (s.setIndex pool k) held where
  live_iff := h.live_iff
  shared := h.shared.other hpool
  bound := h.bound
  known j q := by
    refine (h.known j q).trans (and_congr_right fun hq => ?_)
    have hsame : (s.setIndex pool k).registerIndex q = s.registerIndex q :=
      Function.update_of_ne (fun heq : q = pool => hpool (heq ▸ hq)) ..
    rw [hsame]

/-- A pool that has got a slot of its own is entered. -/
theorem register (hshared : Slots.Shared s.registerIndex (pool :: held) s.freeSlots s.firstFree)
    (hlive : ∀ q, s.life q = .live ↔ q ∈ held) (hbound : s.firstFree ≤ POOL_LIMIT)
    (hknown : ∀ k q, s.knownPools k = some q ↔ q ∈ held ∧ s.registerIndex q = k) :
    Recycled (s.register i pool) (pool :: held) where
  live_iff q := by
    by_cases hq : q = pool
    · subst hq
      exact ⟨fun _ => List.mem_cons_self, fun _ => State.goto_life_self⟩
    · rw [State.register, State.goto_life_of_ne hq, List.mem_cons]
      exact (hlive q).trans ⟨Or.inr, fun h => h.resolve_left hq⟩
  shared := hshared
  bound := hbound
  known k q := by
    have hindex : (s.register i pool).registerIndex = s.registerIndex := rfl
    have hset : (s.register i pool).knownPools =
      Function.update s.knownPools (s.registerIndex pool) (some pool) := rfl
    rw [hindex, hset]
    by_cases hk : k = s.registerIndex pool
    · subst hk
      rw [Function.update_self, Option.some.injEq]
      constructor
      · rintro rfl
        exact ⟨List.mem_cons_self, rfl⟩
      · rintro ⟨hq, hsame⟩
        exact hshared.unique List.mem_cons_self hq hsame.symm
    · rw [Function.update_of_ne hk, hknown, List.mem_cons]
      constructor
      · exact fun ⟨hq, hqk⟩ => ⟨Or.inr hq, hqk⟩
      · rintro ⟨rfl | hq, hqk⟩
        · exact absurd hqk.symm hk
        · exact ⟨hq, hqk⟩

theorem not_mem (h : Recycled s held) (hpool : s.life pool = .absent) : pool ∉ held := fun hmem => by
  cases hpool.symm.trans ((h.live_iff pool).mpr hmem)

theorem takeSlot (h : Recycled s held) (hpool : pool ∉ held) (hindex : s.registerIndex pool = s.firstFree) :
    ∃ held', Recycled (leaves (takeSlot s i pool)) held' := by
  unfold Mempool.takeSlot
  split
  next front rest hfree =>
    have hshared := h.shared
    rw [hfree] at hshared
    have hset := h.setIndex (k := front) hpool
    exact ⟨pool :: held, register (s := { s.setIndex pool front with freeSlots := rest }) (hshared.take hpool)
      hset.live_iff hset.bound hset.known⟩
  next hfree =>
    split
    next hfull =>
      refine ⟨held, fun q => ?_, h.shared, h.bound, h.known⟩
      by_cases hq : q = pool
      · subst hq
        exact ⟨fun hq => (by cases State.goto_life_self.symm.trans hq), fun hq => absurd hq hpool⟩
      · exact (iff_of_eq (congrArg (· = Life.live) (State.goto_life_of_ne hq))).trans (h.live_iff q)
    next hroom =>
      have hgrow := h.shared.grow hpool
      rw [← hindex, Function.update_eq_self, hindex] at hgrow
      exact ⟨pool :: held, register (s := { s with firstFree := s.firstFree + 1 }) hgrow h.live_iff
        (Nat.lt_of_le_of_ne h.bound hroom) h.known⟩

theorem add (h : Recycled s held) (hpool : s.life pool = .absent) :
    ∃ held', Recycled (leaves (poolRegistryAdd s i pool)) held' := by
  have hmem := h.not_mem hpool
  exact (h.spinlock.setIndex hmem).takeSlot hmem (Function.update_self ..)

theorem nodup (h : Recycled s held) : held.Nodup := h.shared.nodup.of_append_left.of_map

theorem remove (h : Recycled s held) (hpool : s.life pool = .live) :
    Recycled (poolRegistryRemove s i pool) (held.erase pool) := by
  have hmem := (h.live_iff pool).mp hpool
  unfold poolRegistryRemove
  have hlocked := h.spinlock (i := i)
  generalize s.spinlock i = s at hlocked ⊢
  refine ⟨fun q => ?_, hlocked.shared.giveBack hmem, hlocked.bound, fun k q => ?_⟩
  · rw [hlocked.nodup.mem_erase_iff]
    by_cases hq : q = pool
    · subst hq
      exact ⟨fun hq => (by cases State.goto_life_self.symm.trans hq), fun hq => absurd rfl hq.1⟩
    · exact (iff_of_eq (congrArg (· = Life.live) (State.goto_life_of_ne hq))).trans
        ((hlocked.live_iff q).trans ⟨fun h => ⟨hq, h⟩, And.right⟩)
  · rw [hlocked.nodup.mem_erase_iff]
    by_cases hk : k = s.registerIndex pool
    · subst hk
      refine ⟨fun hq => (by cases (Function.update_self ..).symm.trans hq), fun ⟨⟨hne, hq⟩, hsame⟩ => ?_⟩
      exact absurd (hlocked.shared.unique hq hmem hsame) hne
    · refine (iff_of_eq (congrArg (· = some q) (Function.update_of_ne hk ..))).trans
        ((hlocked.known k q).trans ?_)
      refine ⟨fun ⟨hq, hqk⟩ => ⟨⟨fun hne => ?_, hq⟩, hqk⟩, fun ⟨⟨_, hq⟩, hqk⟩ => ⟨hq, hqk⟩⟩
      subst hne
      exact hk hqk.symm

theorem encard_live (h : Recycled s held) : {q | s.life q = .live}.encard = held.length := by
  have hset : {q | s.life q = .live} = (held.toFinset : Set ℕ) := by
    ext q
    simp [h.live_iff]
  rw [hset, Set.encard_coe_eq_coe_finsetCard, List.toFinset_card_of_nodup h.nodup]

theorem takeSlot_throws : (∃ t, Mempool.takeSlot s i pool = .error t) ↔
    s.freeSlots = [] ∧ s.firstFree = POOL_LIMIT := by
  unfold Mempool.takeSlot
  split
  next hfree => simp [hfree]
  next hfree =>
    split
    next hfull => simp [hfree, hfull]
    next hroom => simp [hroom]

/-- An add throws when there is neither a free slot nor a new one. -/
theorem throws_iff (h : Recycled s held) :
    (∃ t, poolRegistryAdd s i pool = .error t) ↔ {q | s.life q = .live}.encard = POOL_LIMIT := by
  have hlocked := h.spinlock (i := i)
  have hlength := hlocked.shared.length
  have hbound := hlocked.bound
  rw [h.encard_live, Nat.cast_inj]
  refine takeSlot_throws.trans ?_
  have hfree : ((s.spinlock i).setIndex pool (s.spinlock i).firstFree).freeSlots =
    (s.spinlock i).freeSlots := rfl
  have hfirst : ((s.spinlock i).setIndex pool (s.spinlock i).firstFree).firstFree =
    (s.spinlock i).firstFree := rfl
  rw [hfree, hfirst, ← List.length_eq_zero_iff]
  omega

end Recycled

theorem call_recycled {c : Call} {held : List ℕ} (h : Recycled s held) (hcall : call s c = some t) :
    ∃ held', Recycled t held' := by
  cases c with
  | add i pool =>
    obtain ⟨hlife, rfl⟩ := Option.ite_some_none_eq_some.mp hcall
    exact h.add hlife
  | remove i pool =>
    obtain ⟨hlife, rfl⟩ := Option.ite_some_none_eq_some.mp hcall
    exact ⟨_, h.remove hlife⟩

/-- Calls executed one at a time, of any number of threads. -/
theorem recycled_of_exec {calls : List Call} (h : Events.exec call init calls = some s) :
    ∃ held, Recycled s held := by
  refine (Events.run_of_exec_true h).invariant (I := fun s => ∃ held, Recycled s held) ⟨[], .init⟩ ?_
  rintro a c b ⟨held, ha⟩ - hcall
  exact call_recycled ha hcall

/-- In every sequence of calls executed one at a time, in which a pool is added when it is not in the
    registry and removed when it is, the slots are kept. -/
theorem slots_kept {calls : List Call} (h : Events.exec call init calls = some s) : SlotsKept s := by
  obtain ⟨held, hs⟩ := recycled_of_exec h
  refine ⟨fun q q' hq hq' hindex => ?_, fun q hq => ?_, fun q hq => ?_, fun k hk hno => ⟨?_, ?_⟩,
    fun i pool => hs.throws_iff⟩
  · exact hs.shared.unique ((hs.live_iff q).mp hq) ((hs.live_iff q').mp hq') hindex
  · exact Nat.lt_of_lt_of_le (hs.shared.lt ((hs.live_iff q).mp hq)) hs.bound
  · exact (hs.known _ q).mpr ⟨(hs.live_iff q).mp hq, rfl⟩
  · refine Option.eq_none_iff_forall_ne_some.mpr fun q hq => ?_
    obtain ⟨hmem, hindex⟩ := (hs.known k q).mp hq
    exact hno q ((hs.live_iff q).mpr hmem) hindex
  · exact hs.shared.count_free hk fun q hq => hno q ((hs.live_iff q).mpr hq)

/-- Two pools are added and the first one is removed: its slot is the one that the third pool gets. -/
def reusedSlot : List Call := [.add 0 10, .add 1 11, .remove 0 10, .add 1 12]

theorem slots_kept_reusedSlot : ∃ s, Events.exec call init reusedSlot = some s ∧ s.registerIndex 12 = 0 ∧
    SlotsKept s := by
  have hindex : (Events.exec call init reusedSlot).map (fun s => s.registerIndex 12) = some 0 := by decide
  obtain ⟨s, hs, hzero⟩ := Option.map_eq_some_iff.mp hindex
  exact ⟨s, hs, hzero, slots_kept hs⟩

end Mempool

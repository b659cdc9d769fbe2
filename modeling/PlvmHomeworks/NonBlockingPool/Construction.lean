import PlvmHomeworks.Lib.Outcome
import PlvmHomeworks.NonBlockingPool.Allocators
import PlvmHomeworks.NonBlockingPool.Linearizable

/-! The constructors of the three allocators up to their end, which is a return or a throw.

    A constructor is executed alone. Where add finds no slot it throws behind mmap, and no destructor
    that would call munmap is run for an object that has not been constructed. -/

namespace NonBlockingPool
open Outcome

/-- A slot is taken: the exchange of its begin, the store of its end, and the return of add. -/
def State.register (s : State) (t q slot : ℕ) : State :=
  ((s.setBegin slot (s.region q).begin (some q)).setEnd slot (s.region q).end_ (some q)).goto t .out q
    (.live slot)

/-- The last n rounds of the loop of add, from the slot on. Behind the last slot add returns -1, and the
    constructor throws. -/
def addFrom (s : State) (t q : ℕ) : ℕ → ℕ → Except State State
  | 0, _ => .error (s.goto t .out q .gone)
  | n + 1, slot =>
    if (s.knownPools slot).begin = 0 then .ok (s.register t q slot)
    else addFrom s t q n (slot + 1)

/-- slot = pool_registry.add(begin, end), and the throw if it is -1. -/
def add (s : State) (t q : ℕ) : Except State State := addFrom s t q POOL_LIMIT 0

/-- The constructor of pool q by thread t, where mmap has answered begin, or MAP_FAILED. What mprotect
    answers is not looked at. -/
def constructPool (a : Allocator) (s : State) (t q objectSize pageSize capacity : ℕ) (mmap : Option ℕ) :
    Except State State :=
  match mmap with
  | none => .error s  -- std::bad_alloc
  | some begin =>
    let p := construct a objectSize pageSize capacity begin
    add (s.map t q ⟨p.begin, p.end_⟩) t q

/-- The destructor of a pool with this slot. -/
def destroyPool (s : State) (t q slot : ℕ) : State :=
  let s := ((s.goto t (.clear q slot) q (.leaving slot)).passScans slot).setBegin slot 0 none
  { s with mapped := s.mapped.erase q }.goto t .out q .gone

/-- The mapping of the pool is in the slot that its allocator has been given. -/
def Entered (q : ℕ) (s : State) : Prop :=
  q ∈ s.mapped ∧ ∃ k < POOL_LIMIT, s.life q = .live k ∧
    s.knownPools k = ⟨(s.region q).begin, (s.region q).end_⟩

/-- Neither the table nor the mappings have changed. -/
structure Unchanged (s t : State) : Prop where
  knownPools : t.knownPools = s.knownPools
  mapped : t.mapped = s.mapped

variable {s u : State} {t q k : ℕ}

theorem setEnd_setBegin (s : State) (k begin end_ : ℕ) (o o' : Option ℕ) :
    ((s.setBegin k begin o).setEnd k end_ o').knownPools =
      Function.update s.knownPools k ⟨begin, end_⟩ := by
  simp only [State.setEnd, State.setBegin, Function.update_self, Function.update_idem]

theorem register_entered (hq : q ∈ s.mapped) (hk : k < POOL_LIMIT) :
    Entered q (s.register t q k) := by
  refine ⟨hq, k, hk, Function.update_self .., ?_⟩
  have htable : (s.register t q k).knownPools k = _ :=
    congrFun (setEnd_setBegin s k _ _ (some q) (some q)) k
  rw [htable, Function.update_self]
  rfl

/-- The loop takes the first free slot, or comes to its end where none is free. -/
theorem addFrom_cases (s : State) (t q : ℕ) : ∀ n slot : ℕ,
    (∃ k, slot ≤ k ∧ k < slot + n ∧ (∀ j, slot ≤ j → j < k → (s.knownPools j).begin ≠ 0) ∧
      (s.knownPools k).begin = 0 ∧ addFrom s t q n slot = .ok (s.register t q k)) ∨
    ((∀ j, slot ≤ j → j < slot + n → (s.knownPools j).begin ≠ 0) ∧
      addFrom s t q n slot = .error (s.goto t .out q .gone)) := by
  intro n
  induction n with
  | zero => exact fun slot => .inr ⟨fun j hlo hhi => by omega, rfl⟩
  | succ n ih =>
    intro slot
    rw [addFrom]
    split
    next hfree =>
      exact .inl ⟨slot, Nat.le_refl slot, by omega, fun j hlo hhi => by omega, hfree, rfl⟩
    next htaken =>
      have hfrom : ∀ {m}, (∀ j, slot + 1 ≤ j → j < m → (s.knownPools j).begin ≠ 0) →
          ∀ j, slot ≤ j → j < m → (s.knownPools j).begin ≠ 0 := by
        intro m hrest j hlo hhi
        rcases Nat.eq_or_lt_of_le hlo with rfl | hlt
        · exact htaken
        · exact hrest j hlt hhi
      rcases ih (slot + 1) with ⟨k, hlo, hhi, hbusy, hfree, hk⟩ | ⟨hbusy, herror⟩
      · exact .inl ⟨k, by omega, by omega, hfrom hbusy, hfree, hk⟩
      · exact .inr ⟨fun j hlo hhi => hfrom hbusy j hlo (by omega), herror⟩

/-! ### Steps of the thread -/

theorem step_scan_free (hfree : (s.knownPools k).begin = 0) :
    Events.exec step (s.goto t (.scan q k) q .adding) [.go t, .go t] = some (s.register t q k) := by
  set v := s.setBegin k (s.region q).begin (some q)
  have hfree' : ((s.goto t (.scan q k) q .adding).knownPools k).begin = 0 := hfree
  have htake : step (s.goto t (.scan q k) q .adding) (.go t) =
      some (v.goto t (.store q k) q (.taken k)) := by
    simp only [step, next, State.goto_pc_self, if_pos hfree']
    exact congrArg some (goto_goto (s := v))
  rw [Events.exec, htake, Option.bind_some, Events.exec]
  simp only [step, next, State.goto_pc_self]
  exact congrArg some (goto_goto (s := v.setEnd k (s.region q).end_ (some q)))

theorem step_scan_last (htaken : (s.knownPools k).begin ≠ 0) (hk : ¬ k + 1 < POOL_LIMIT) :
    Events.exec step (s.goto t (.scan q k) q .adding) [.go t, .go t] = some (s.goto t .out q .gone) := by
  have htaken' : ((s.goto t (.scan q k) q .adding).knownPools k).begin ≠ 0 := htaken
  have hfail : step (s.goto t (.scan q k) q .adding) (.go t) =
      some (s.goto t (.failed q) q .adding) := by
    simp only [step, next, State.goto_pc_self, if_neg htaken', if_neg hk]
    exact congrArg some goto_goto
  rw [Events.exec, hfail, Option.bind_some, Events.exec]
  simp only [step, next, State.goto_pc_self]
  exact congrArg some goto_goto

/-- An add is what the steps of its thread do, up to its return or the throw. -/
theorem exec_add (hu : add s t q = .ok u ∨ add s t q = .error u) :
    ∃ n, Events.exec step (s.goto t (.scan q 0) q .adding) (List.replicate n (.go t)) = some u := by
  have hscan : ∀ m < POOL_LIMIT, (∀ j < m, (s.knownPools j).begin ≠ 0) → ∀ v,
      Events.exec step (s.goto t (.scan q m) q .adding) [.go t, .go t] = some v →
      Events.exec step (s.goto t (.scan q 0) q .adding) (List.replicate (m + 2) (.go t)) = some v := by
    intro m hm hbusy v hv
    have hrounds := exec_scan (s := s.goto t (.scan q 0) q .adding) (m := m) (State.goto_pc_self ..)
      (State.goto_life_self ..) (fun j _ hj => hbusy j (by omega)) (by omega)
    rw [goto_goto, Nat.zero_add] at hrounds
    rw [List.replicate_add, Events.exec_append, hrounds]
    exact hv
  rw [add] at hu
  rcases addFrom_cases s t q POOL_LIMIT 0 with ⟨k, -, hk, hbusy, hfree, hok⟩ | ⟨hbusy, herror⟩
  · obtain rfl : s.register t q k = u := by simpa [hok] using hu
    exact ⟨_, hscan k (by omega) (fun j hj => hbusy j (Nat.zero_le j) hj) _ (step_scan_free hfree)⟩
  · obtain rfl : s.goto t .out q .gone = u := by simpa [herror] using hu
    have hlast : POOL_LIMIT - 1 < POOL_LIMIT := by decide
    refine ⟨_, hscan _ hlast (fun j hj => hbusy j (Nat.zero_le j) (by omega)) _ ?_⟩
    exact step_scan_last (hbusy _ (Nat.zero_le _) (by omega)) (by decide)

/-- Up to the answer of mmap the constructor is a run of its thread, whether it returns or throws. -/
theorem exec_constructPool {a : Allocator} {objectSize pageSize capacity begin : ℕ} {r : Region}
    (hr : r = ⟨begin, (construct a objectSize pageSize capacity begin).end_⟩)
    (hout : s.pc t = .out) (hfresh : s.life q = .fresh) (hpos : 0 < r.begin) (hlt : r.begin < r.end_)
    (hdisjoint : ∀ q' ∈ s.mapped, r.Disjoint (s.region q'))
    (hu : constructPool a s t q objectSize pageSize capacity (some begin) = .ok u ∨
      constructPool a s t q objectSize pageSize capacity (some begin) = .error u) :
    ∃ n, Events.exec step s (.add t q r :: List.replicate n (.go t)) = some u := by
  subst hr
  obtain ⟨n, hn⟩ := exec_add hu
  refine ⟨n, Option.bind_eq_some_iff.mpr ⟨_, ?_, hn⟩⟩
  exact if_pos ⟨hout, hfresh, hpos, hlt, hdisjoint⟩

/-- So is the destructor. -/
theorem exec_destroyPool (hout : s.pc t = .out) (hlive : s.life q = .live k) :
    Events.exec step s [.remove t q, .go t, .go t] = some (destroyPool s t q k) := by
  have hremove : step s (.remove t q) = some (s.goto t (.clear q k) q (.leaving k)) := by
    simp only [step, hlive, if_pos hout]
  set v := ((s.goto t (.clear q k) q (.leaving k)).passScans k).setBegin k 0 none
  have hclear : step (s.goto t (.clear q k) q (.leaving k)) (.go t) =
      some (v.goto t (.unmap q) q .gone) := by
    simp only [step, next, State.goto_pc_self]
    rfl
  rw [Events.exec, hremove, Option.bind_some, Events.exec, hclear, Option.bind_some, Events.exec]
  simp only [step, next, State.goto_pc_self]
  exact congrArg some (goto_goto (s := { v with mapped := v.mapped.erase q }))

/-! ### Atomicity -/

/-- A constructor of any of the classes is atomic if mmap fails or a slot is free. -/
theorem constructPool_atomic_iff (a : Allocator) (s : State) (t q objectSize pageSize capacity : ℕ)
    (mmap : Option ℕ) :
    Ends (Unchanged s) (Entered q) (constructPool a s t q objectSize pageSize capacity mmap) ↔
      mmap = none ∨ ∃ k < POOL_LIMIT, (s.knownPools k).begin = 0 := by
  unfold constructPool
  split
  next => exact ⟨fun _ => .inl rfl, fun _ => ends_error.mpr ⟨rfl, rfl⟩⟩
  next begin =>
    simp only [reduceCtorEq, false_or]
    generalize (⟨_, _⟩ : Region) = r
    rcases addFrom_cases (s.map t q r) t q POOL_LIMIT 0 with
      ⟨k, -, hk, -, hfree, hok⟩ | ⟨hbusy, herror⟩
    · rw [Nat.zero_add] at hk
      rw [add, hok, ends_ok]
      exact ⟨fun _ => ⟨k, hk, hfree⟩, fun _ => register_entered List.mem_cons_self hk⟩
    · rw [add, herror, ends_error]
      constructor
      · intro hsame
        exact absurd hsame.mapped (List.cons_ne_self q s.mapped)
      · rintro ⟨k, hk, hfree⟩
        exact absurd hfree (hbusy k (Nat.zero_le k) (by omega))

/-- What a constructor has mapped, the destructor unmaps. -/
theorem destroyPool_mapped {a : Allocator} {objectSize pageSize capacity : ℕ} {mmap : Option ℕ}
    (h : constructPool a s t q objectSize pageSize capacity mmap = .ok u) :
    (destroyPool u t q k).mapped = s.mapped := by
  unfold constructPool at h
  split at h
  next => cases h
  next begin =>
    simp only at h
    generalize (⟨_, _⟩ : Region) = r at h
    rw [add] at h
    have hmapped : u.mapped = q :: s.mapped := by
      rcases addFrom_cases (s.map t q r) t q POOL_LIMIT 0 with ⟨k, -, -, -, -, hok⟩ | ⟨-, herror⟩
      · rw [hok] at h
        rw [← Except.ok.inj h]
        rfl
      · rw [herror] at h
        cases h
    exact (congrArg (List.erase · q) hmapped).trans (List.erase_cons_head q s.mapped)

end NonBlockingPool

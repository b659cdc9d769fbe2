import PlvmHomeworks.Mempool.Handler
import PlvmHomeworks.NonBlockingPool.Construction

/-! The constructor of PoolAllocator up to its end, which is a return or a throw.

    pool_registry_add throws between its lock and its unlock, and the constructor calls it behind mmap.
    So a throw because of a full registry leaves the mapping, and the status that the lock has set. -/

namespace Mempool
open Outcome
open NonBlockingPool (Region poolSize)

/-- The registry, the MemPool of every allocator, and what is mapped. -/
structure Process where
  registry : State
  pools : ℕ → MemPool
  mapped : List Region

/-- mmap has given the pool its addresses; they are stored, with the kind, in its MemPool. -/
def Process.map (p : Process) (pool : ℕ) (r : Region) : Process :=
  { p with
    pools := Function.update p.pools pool ⟨r.begin, r.end_, .simple⟩
    mapped := r :: p.mapped }

/-- The constructor of a pool by thread i, where mmap has answered begin, or MAP_FAILED. What mprotect
    answers is not looked at. -/
def construct (p : Process) (i pool objectSize pageSize capacity : ℕ) (mmap : Option ℕ) :
    Except Process Process :=
  match mmap with
  | none => .error p  -- std::bad_alloc
  | some begin =>
    let p := p.map pool ⟨begin, (begin + poolSize objectSize pageSize capacity) % 2 ^ 64⟩
    match poolRegistryAdd p.registry i pool with
    | .ok s => .ok { p with registry := s }
    | .error s => .error { p with registry := s }

/-- The destructor of a pool by thread i. -/
def destroy (p : Process) (i pool : ℕ) : Process :=
  { p with
    registry := poolRegistryRemove p.registry i pool
    mapped := p.mapped.erase ⟨(p.pools pool).begin_, (p.pools pool).end_⟩ }

/-- The pool is mapped, and known_pools has it at its register_index. -/
structure Entered (pool : ℕ) (p : Process) : Prop where
  mapped : ⟨(p.pools pool).begin_, (p.pools pool).end_⟩ ∈ p.mapped
  index_lt : p.registry.registerIndex pool < POOL_LIMIT
  known : p.registry.knownPools (p.registry.registerIndex pool) = some pool

/-- Neither the registry nor the mappings have changed. -/
structure Unchanged (p p' : Process) : Prop where
  knownPools : p'.registry.knownPools = p.registry.knownPools
  firstFree : p'.registry.firstFree = p.registry.firstFree
  freeSlots : p'.registry.freeSlots = p.registry.freeSlots
  status : p'.registry.status = p.registry.status
  mapped : p'.mapped = p.mapped

/-- The slot that the next add takes. -/
def nextSlot (s : State) : ℕ := s.freeSlots.headD s.firstFree

/-- There is no slot for another pool. -/
def Full (s : State) : Prop := s.freeSlots = [] ∧ s.firstFree = POOL_LIMIT

variable {s : State} {p p' : Process} {i pool k : ℕ}

/-! ### The slot of an add -/

theorem spinlock_freeSlots (s : State) (i : ℕ) : (s.spinlock i).freeSlots = s.freeSlots := by
  unfold State.spinlock
  split <;> rfl

theorem spinlock_firstFree (s : State) (i : ℕ) : (s.spinlock i).firstFree = s.firstFree := by
  unfold State.spinlock
  split <;> rfl

/-- Behind the lock the status is not IDLE, whatever it was. -/
theorem spinlock_status_ne (s : State) (i : ℕ) : (s.spinlock i).status ≠ .idle := by
  unfold State.spinlock
  split
  next => exact PoolRegisterStatus.noConfusion
  next hbusy => exact hbusy

theorem register_known (s : State) (i pool : ℕ) :
    (s.register i pool).knownPools (s.registerIndex pool) = some pool :=
  Function.update_self ..

theorem takeSlot_of_full (hfull : Full s) : takeSlot s i pool = .error (s.goto i .out pool .absent) := by
  unfold takeSlot
  rw [hfull.1]
  exact if_pos hfull.2

theorem takeSlot_of_room (hroom : ¬ Full s) (hindex : s.registerIndex pool = s.firstFree) :
    ∃ u, takeSlot s i pool = .ok u ∧ u.registerIndex pool = nextSlot s ∧
      u.knownPools (nextSlot s) = some pool := by
  unfold takeSlot nextSlot
  split
  next front rest hfree =>
    rw [hfree, List.headD_cons]
    have hfront : (s.setIndex pool front).registerIndex pool = front := Function.update_self ..
    have hknown := register_known { s.setIndex pool front with freeSlots := rest } i pool
    rw [hfront] at hknown
    exact ⟨_, rfl, hfront, hknown⟩
  next hfree =>
    rw [hfree, List.headD_nil, if_neg fun hlimit => hroom ⟨hfree, hlimit⟩]
    have hknown := register_known { s with firstFree := s.firstFree + 1 } i pool
    rw [hindex] at hknown
    exact ⟨_, rfl, hindex, hknown⟩

/-- What the if of pool_registry_add finds. -/
theorem reserved (s : State) (i pool : ℕ) :
    let s' := (s.spinlock i).setIndex pool (s.spinlock i).firstFree
    (Full s' ↔ Full s) ∧ nextSlot s' = nextSlot s ∧ s'.registerIndex pool = s'.firstFree := by
  refine ⟨?_, ?_, Function.update_self ..⟩
  · rw [Full, Full, ← spinlock_freeSlots s i, ← spinlock_firstFree s i]
    rfl
  · rw [nextSlot, nextSlot, ← spinlock_freeSlots s i, ← spinlock_firstFree s i]
    rfl

/-- A full registry makes an add throw, with everything as it is behind the lock. -/
theorem poolRegistryAdd_of_full (hfull : Full s) (i pool : ℕ) :
    ∃ u, poolRegistryAdd s i pool = .error u ∧ u.status ≠ .idle :=
  ⟨_, takeSlot_of_full ((reserved s i pool).1.mpr hfull), spinlock_status_ne s i⟩

/-- Otherwise the pool gets the next slot. -/
theorem poolRegistryAdd_of_room (hroom : ¬ Full s) (i pool : ℕ) : ∃ u, poolRegistryAdd s i pool = .ok u ∧
    u.registerIndex pool = nextSlot s ∧ u.knownPools (nextSlot s) = some pool := by
  obtain ⟨hfull, hnext, hindex⟩ := reserved s i pool
  rw [← hnext]
  exact takeSlot_of_room (mt hfull.mp hroom) hindex

theorem Full.nextSlot_eq (hfull : Full s) : nextSlot s = POOL_LIMIT := by
  rw [nextSlot, hfull.1, hfull.2, List.headD_nil]

/-- In a sequence of calls the next slot is one of the table, as long as there are fewer live pools than
    slots. -/
theorem Recycled.nextSlot_lt_iff {held : List ℕ} (h : Recycled s held) :
    nextSlot s < POOL_LIMIT ↔ {q | s.life q = .live}.encard ≠ POOL_LIMIT := by
  have hlength := h.shared.length
  have hbound := h.bound
  rw [h.encard_live, Ne, Nat.cast_inj, nextSlot]
  cases hfree : s.freeSlots with
  | nil =>
    rw [hfree, List.length_nil] at hlength
    rw [List.headD_nil]
    omega
  | cons front rest =>
    have hfront := h.shared.free_lt (hfree ▸ List.mem_cons_self)
    rw [hfree, List.length_cons] at hlength
    rw [List.headD_cons]
    omega

/-! ### Atomicity -/

/-- What a throw because of a full registry leaves: the mapping, and a status that is not IDLE. -/
theorem construct_of_full (hfull : Full p.registry) (i pool objectSize pageSize capacity begin : ℕ) :
    ∃ p', construct p i pool objectSize pageSize capacity (some begin) = .error p' ∧
      p'.mapped = ⟨begin, (begin + poolSize objectSize pageSize capacity) % 2 ^ 64⟩ :: p.mapped ∧
      p'.registry.status ≠ .idle := by
  obtain ⟨u, herror, hstatus⟩ := poolRegistryAdd_of_full hfull i pool
  unfold construct
  simp only [Process.map, herror]
  exact ⟨_, rfl, rfl, hstatus⟩

/-- Otherwise the pool is entered in the next slot. -/
theorem construct_of_room (hroom : ¬ Full p.registry) (i pool objectSize pageSize capacity begin : ℕ) :
    ∃ p', construct p i pool objectSize pageSize capacity (some begin) = .ok p' ∧
      (Entered pool p' ↔ nextSlot p.registry < POOL_LIMIT) := by
  obtain ⟨u, hok, hindex, hknown⟩ := poolRegistryAdd_of_room hroom i pool
  unfold construct
  simp only [Process.map, hok]
  refine ⟨_, rfl, fun h => hindex ▸ h.index_lt, fun hlt => ⟨?_, hindex.trans_lt hlt, ?_⟩⟩
  · simp only [Function.update_self, List.mem_cons, true_or]
  · exact (congrArg u.knownPools hindex).trans hknown

/-- The constructor is atomic if mmap fails or the next slot is one of the table. -/
theorem construct_atomic_iff (p : Process) (i pool objectSize pageSize capacity : ℕ) (mmap : Option ℕ) :
    Ends (Unchanged p) (Entered pool) (construct p i pool objectSize pageSize capacity mmap) ↔
      mmap = none ∨ nextSlot p.registry < POOL_LIMIT := by
  cases mmap with
  | none => exact ⟨fun _ => .inl rfl, fun _ => ends_error.mpr ⟨rfl, rfl, rfl, rfl, rfl⟩⟩
  | some begin =>
    simp only [reduceCtorEq, false_or]
    by_cases hfull : Full p.registry
    · obtain ⟨p', herror, hmapped, -⟩ :=
        construct_of_full hfull i pool objectSize pageSize capacity begin
      rw [herror, ends_error, hfull.nextSlot_eq]
      constructor
      · intro hsame
        exact absurd (hmapped.symm.trans hsame.mapped) (List.cons_ne_self _ _)
      · exact fun hlt => absurd hlt (Nat.lt_irrefl _)
    · obtain ⟨p', hok, hentered⟩ :=
        construct_of_room hfull i pool objectSize pageSize capacity begin
      rw [hok, ends_ok]
      exact hentered

/-- After calls executed one at a time it is atomic unless mmap answers and all slots belong to live
    pools. -/
theorem construct_atomic_of_calls {calls : List Call} (h : Events.exec call init calls = some p.registry)
    (i pool objectSize pageSize capacity : ℕ) (mmap : Option ℕ) :
    Ends (Unchanged p) (Entered pool) (construct p i pool objectSize pageSize capacity mmap) ↔
      mmap = none ∨ {q | p.registry.life q = .live}.encard ≠ POOL_LIMIT := by
  obtain ⟨held, hheld⟩ := recycled_of_exec h
  rw [construct_atomic_iff, hheld.nextSlot_lt_iff]

/-- What a constructor has mapped, the destructor unmaps. -/
theorem destroy_mapped {objectSize pageSize capacity begin : ℕ}
    (h : construct p i pool objectSize pageSize capacity (some begin) = .ok p') :
    (destroy p' i pool).mapped = p.mapped := by
  unfold construct at h
  simp only at h
  split at h
  · obtain rfl := Except.ok.inj h
    simp only [destroy, Process.map, Function.update_self, List.erase_cons_head]
  · cases h

/-- The constructors of both programs: whether they are atomic, in every state of the registry. -/
theorem construction_atomic_iff (objectSize pageSize capacity : ℕ) (mmap : Option ℕ) (p : Process)
    (i pool : ℕ) (a : NonBlockingPool.Allocator) (s : NonBlockingPool.State) (t q : ℕ) :
    (Ends (Unchanged p) (Entered pool) (construct p i pool objectSize pageSize capacity mmap) ↔
      mmap = none ∨ nextSlot p.registry < POOL_LIMIT) ∧
    (Ends (NonBlockingPool.Unchanged s) (NonBlockingPool.Entered q)
        (NonBlockingPool.constructPool a s t q objectSize pageSize capacity mmap) ↔
      mmap = none ∨ ∃ k < NonBlockingPool.POOL_LIMIT, (s.knownPools k).begin = 0) :=
  ⟨construct_atomic_iff p i pool objectSize pageSize capacity mmap,
    NonBlockingPool.constructPool_atomic_iff a s t q objectSize pageSize capacity mmap⟩

/-- 100 pools are added. -/
def fillCalls : List Call := (List.range POOL_LIMIT).map (Call.add 0)

/-- The next constructor, after 100 pools in one program and 256 in the other. -/
theorem construction_leaks :
    (∃ s, Events.exec call init fillCalls = some s ∧
      ¬ Ends (Unchanged ⟨s, fun _ => ⟨0, 0, .simple⟩, []⟩) (Entered 100)
        (construct ⟨s, fun _ => ⟨0, 0, .simple⟩, []⟩ 0 100 16 4096 1000 (some 4194304))) ∧
    ∃ s, Events.exec NonBlockingPool.step NonBlockingPool.init (NonBlockingPool.fill 256) = some s ∧
      ¬ Ends (NonBlockingPool.Unchanged s) (NonBlockingPool.Entered 256)
        (NonBlockingPool.constructPool .pool s 0 256 16 4096 1000 (some 4194304)) := by
  constructor
  · have hrun : (Events.exec call init fillCalls).map (fun s => nextSlot s) = some 100 := by
      decide +kernel
    obtain ⟨s, hs, hnext⟩ := Option.map_eq_some_iff.mp hrun
    refine ⟨s, hs, fun h => ?_⟩
    rw [construct_atomic_iff, hnext] at h
    exact absurd h (by decide)
  · obtain ⟨s, hs, hfilled⟩ := NonBlockingPool.filled (Nat.le_refl NonBlockingPool.POOL_LIMIT)
    refine ⟨s, hs, fun h => ?_⟩
    rw [NonBlockingPool.constructPool_atomic_iff] at h
    obtain ⟨k, hk, hfree⟩ := h.resolve_left nofun
    exact hfilled.busy k hk hfree

end Mempool

import Mathlib.Logic.Function.Basic
import PlvmHomeworks.Lib.Events

/-! The registry of memory pools behind its spin lock, and the steps of the threads that use it.

    Every thread runs pool_registry_add and pool_registry_remove, one call after the other. A compare
    and exchange is one step, and so are the store that unlocks and each statement in between. -/

namespace Mempool

def POOL_LIMIT : ℕ := 100

inductive PoolRegisterStatus
  | idle | updating | badAlloc
  deriving DecidableEq

/-- Where a thread is; the pool is the one its call is about. -/
inductive Pc
  | out
  | lockAdd (pool : ℕ)       -- in pool_registry_spinlock, for pool_registry_add
  | reserve (pool : ℕ)       -- pool->register_index = first_free_pool_slot
  | choose (pool : ℕ)        -- the conditions of the if and of the else if
  | front (pool : ℕ)         -- pool->register_index = free_pool_slots.front()
  | pop (pool : ℕ)           -- free_pool_slots.pop()
  | full (pool : ℕ)          -- throw, with the lock still taken
  | grow (pool : ℕ)          -- first_free_pool_slot++
  | publish (pool : ℕ)       -- known_pools[pool->register_index] = pool
  | unlockAdd (pool : ℕ)
  | lockRemove (pool : ℕ)    -- in pool_registry_spinlock, for pool_registry_remove
  | push (pool : ℕ)          -- free_pool_slots.push(pool->register_index)
  | clear (pool : ℕ)         -- known_pools[pool->register_index] = nullptr
  | unlockRemove (pool : ℕ)
  deriving DecidableEq

/-- What has become of a pool. It is live from the return of its add to the call of its remove. -/
inductive Life
  | absent    -- not added yet, or removed
  | adding    -- in pool_registry_add
  | stored    -- in pool_registry_add, past the store to known_pools
  | live
  | leaving   -- in pool_registry_remove
  | freeing   -- in pool_registry_remove, its index already in free_pool_slots
  deriving DecidableEq

/-- The registry and its threads. No step reads the last field, the thread whose exchange has stored
    the present status. -/
structure State where
  status : PoolRegisterStatus
  knownPools : ℕ → Option ℕ
  firstFree : ℕ
  freeSlots : List ℕ
  registerIndex : ℕ → ℕ
  pc : ℕ → Pc
  life : ℕ → Life
  writer : Option ℕ

def init : State where
  status := .idle
  knownPools := fun _ => none
  firstFree := 0
  freeSlots := []
  registerIndex := fun _ => 0
  pc := fun _ => .out
  life := fun _ => .absent
  writer := none

namespace State
variable (s : State)

/-- Thread t goes on to pc; the pool of its call is then in the given state. -/
def goto (t : ℕ) (pc : Pc) (pool : ℕ) (life : Life) : State :=
  { s with pc := Function.update s.pc t pc, life := Function.update s.life pool life }

def setIndex (pool index : ℕ) : State :=
  { s with registerIndex := Function.update s.registerIndex pool index }

def setKnown (index : ℕ) (entry : Option ℕ) : State :=
  { s with knownPools := Function.update s.knownPools index entry }

/-- pool_registry_unlock. -/
def unlock : State := { s with status := .idle, writer := none }

/-- One round of the loop of pool_registry_spinlock(UPDATING), which repeats while the exchange
    succeeds. -/
def spin (t : ℕ) (locked : State) : State :=
  if s.status = .idle then { s with status := .updating, writer := some t } else locked

end State

/-- The next step of a thread that is in a call. -/
def next (s : State) (t : ℕ) : Option State :=
  match s.pc t with
  | .out => none
  | .lockAdd q => some (s.spin t (s.goto t (.reserve q) q .adding))
  | .reserve q => some ((s.setIndex q s.firstFree).goto t (.choose q) q .adding)
  | .choose q =>
    if s.freeSlots ≠ [] then some (s.goto t (.front q) q .adding)
    else if s.firstFree = POOL_LIMIT then some (s.goto t (.full q) q .adding)
    else some (s.goto t (.grow q) q .adding)
  | .front q =>
    match s.freeSlots with
    | [] => none  -- front() of an empty queue
    | index :: _ => some ((s.setIndex q index).goto t (.pop q) q .adding)
  | .pop q =>
    match s.freeSlots with
    | [] => none  -- pop() of an empty queue
    | _ :: rest => some ({ s with freeSlots := rest }.goto t (.publish q) q .adding)
  | .full q => some (s.goto t .out q .absent)
  | .grow q => some ({ s with firstFree := s.firstFree + 1 }.goto t (.publish q) q .adding)
  | .publish q => some ((s.setKnown (s.registerIndex q) (some q)).goto t (.unlockAdd q) q .stored)
  | .unlockAdd q => some (s.unlock.goto t .out q .live)
  | .lockRemove q => some (s.spin t (s.goto t (.push q) q .leaving))
  | .push q =>
    some ({ s with freeSlots := s.freeSlots ++ [s.registerIndex q] }.goto t (.clear q) q .freeing)
  | .clear q => some ((s.setKnown (s.registerIndex q) none).goto t (.unlockRemove q) q .freeing)
  | .unlockRemove q => some (s.unlock.goto t .out q .absent)

inductive Event
  | add (t pool : ℕ)
  | remove (t pool : ℕ)
  | go (t : ℕ)

/-- A thread calls pool_registry_add with a pool that is not in the registry or pool_registry_remove
    with one that is live, or takes its next step. -/
def step (s : State) : Event → Option State
  | .add t q =>
    if s.pc t = .out ∧ s.life q = .absent then some (s.goto t (.lockAdd q) q .adding) else none
  | .remove t q =>
    if s.pc t = .out ∧ s.life q = .live then some (s.goto t (.lockRemove q) q .leaving) else none
  | .go t => next s t

namespace State
variable {s : State} {i j q q' : ℕ} {pc pc' : Pc} {l l' : Life}

@[simp] theorem goto_pc_self : (s.goto i pc q l).pc i = pc := Function.update_self ..

theorem goto_pc_of_ne (h : j ≠ i) : (s.goto i pc q l).pc j = s.pc j := Function.update_of_ne h ..

@[simp] theorem goto_life_self : (s.goto i pc q l).life q = l := Function.update_self ..

theorem goto_life_of_ne (h : q' ≠ q) : (s.goto i pc q l).life q' = s.life q' :=
  Function.update_of_ne h ..

@[simp] theorem goto_status : (s.goto i pc q l).status = s.status := rfl
@[simp] theorem goto_writer : (s.goto i pc q l).writer = s.writer := rfl
@[simp] theorem goto_knownPools : (s.goto i pc q l).knownPools = s.knownPools := rfl
@[simp] theorem goto_firstFree : (s.goto i pc q l).firstFree = s.firstFree := rfl
@[simp] theorem goto_freeSlots : (s.goto i pc q l).freeSlots = s.freeSlots := rfl
@[simp] theorem goto_registerIndex : (s.goto i pc q l).registerIndex = s.registerIndex := rfl

theorem goto_goto : (s.goto i pc q l).goto i pc' q l' = s.goto i pc' q l' := by
  simp only [goto, Function.update_idem]

end State

end Mempool

import Mathlib.Algebra.Group.Int.Defs
import Mathlib.Algebra.Group.Nat.Defs
import Mathlib.Data.Nat.Bits
import PlvmHomeworks.Lib.Events
import PlvmHomeworks.Lib.Threads
import PlvmHomeworks.Lib.Tickets

/-! The three pool allocators: their constructors and their allocate.

    A size_t and a uint8_t pointer are numbers below 2^64. The lock of LockedPoolAllocator is held from
    lock to unlock, and first_free is read and written in two steps in between; the fetch_sub of
    LockFreePoolAllocator is one step. A PoolAllocator belongs to one thread. -/

namespace NonBlockingPool
open Threads Tickets

/-! ### Constructors -/

/-- protected_pages. -/
def protectedPages (objectSize pageSize : ℕ) : ℕ := (objectSize + pageSize - 1) % 2 ^ 64 / pageSize

/-- The bytes that mprotect takes away from the start of the pool. -/
def protectedBytes (objectSize pageSize : ℕ) : ℕ :=
  pageSize * protectedPages objectSize pageSize % 2 ^ 64

/-- pool_size in PoolAllocator and LockFreePoolAllocator. -/
def poolSize (objectSize pageSize capacity : ℕ) : ℕ :=
  (pageSize * protectedPages objectSize pageSize + capacity * objectSize) % 2 ^ 64

/-- pool_size in LockedPoolAllocator: rounded up to a page. ~(page_size - 1) is 2^64 - page_size. -/
def lockedPoolSize (objectSize pageSize capacity : ℕ) : ℕ :=
  (poolSize objectSize pageSize capacity + pageSize - 1) % 2 ^ 64 &&& (2 ^ 64 - pageSize)

/-- The classes. -/
inductive Allocator
  | pool
  | locked
  | lockFree
  deriving DecidableEq

def Allocator.poolSize : Allocator → ℕ → ℕ → ℕ → ℕ
  | .locked => lockedPoolSize
  | _ => NonBlockingPool.poolSize

/-- begin, end and first_free. -/
structure Pool where
  begin : ℕ
  end_ : ℕ
  firstFree : ℕ
  deriving DecidableEq

/-- The constructor, where mmap has answered begin. -/
def construct (a : Allocator) (objectSize pageSize capacity begin : ℕ) : Pool :=
  let end_ := (begin + a.poolSize objectSize pageSize capacity) % 2 ^ 64
  ⟨begin, end_, end_⟩

/-- p - objectSize for a uint8_t *p. -/
def back (objectSize p : ℕ) : ℕ := ((p - objectSize : ℤ) % 2 ^ 64).toNat

/-! ### PoolAllocator -/

/-- allocate: the result, and the pool with the new first_free. -/
def Pool.allocate (objectSize : ℕ) (p : Pool) : ℕ × Pool :=
  (back objectSize p.firstFree, { p with firstFree := back objectSize p.firstFree })

/-- The results of n calls, one after another. -/
def Pool.allocations (objectSize : ℕ) : ℕ → Pool → List ℕ
  | 0, _ => []
  | n + 1, p => (p.allocate objectSize).1 :: Pool.allocations objectSize n (p.allocate objectSize).2

/-! ### LockedPoolAllocator -/

/-- A thread calls allocate, each call with a number of its own, or takes its next step. -/
inductive AllocEvent
  | call (t call : ℕ)
  | go (t : ℕ)

/-- Where a thread is. -/
inductive LockedPc
  | out
  | lock (call : ℕ)              -- about to lock
  | load (call : ℕ)              -- about to read first_free
  | store (call firstFree : ℕ)   -- about to write first_free
  | unlock (call ptr : ℕ)
  | ret (call ptr : ℕ)
  deriving DecidableEq

/-- The counter is first_free, with what has become of the calls; the lock has its holder. -/
structure LockedState where
  counter : Counter ℕ ℕ
  lock : Option ℕ
  pc : ℕ → LockedPc

def lockedInit (end_ : ℕ) : LockedState := ⟨.start end_, none, fun _ => .out⟩

def lockedNext (objectSize : ℕ) (s : LockedState) (t : ℕ) : Option LockedState :=
  match s.pc t with
  | .out => none
  | .lock c =>
    if s.lock = none then some { s with lock := some t, pc := Function.update s.pc t (.load c) }
    else none
  | .load c => some { s with pc := Function.update s.pc t (.store c s.counter.current) }
  | .store c x =>
    some { s with
      counter := s.counter.hand c (back objectSize x)
      pc := Function.update s.pc t (.unlock c (back objectSize x)) }
  | .unlock c p => some { s with lock := none, pc := Function.update s.pc t (.ret c p) }
  | .ret c p => some { s with counter := s.counter.finish c p, pc := Function.update s.pc t .out }

def lockedStep (objectSize : ℕ) (s : LockedState) : AllocEvent → Option LockedState
  | .call t c =>
    if s.pc t = .out ∧ s.counter.life c = .fresh then
      some { s with counter := s.counter.begin c, pc := Function.update s.pc t (.lock c) }
    else none
  | .go t => lockedNext objectSize s t

/-! ### LockFreePoolAllocator -/

inductive LockFreePc
  | out
  | fetchSub (call : ℕ)
  | ret (call begin : ℕ)   -- about to return begin - 1
  deriving DecidableEq

structure LockFreeState where
  counter : Counter ℕ ℕ
  pc : ℕ → LockFreePc

def lockFreeInit (end_ : ℕ) : LockFreeState := ⟨.start end_, fun _ => .out⟩

def lockFreeNext (objectSize : ℕ) (s : LockFreeState) (t : ℕ) : Option LockFreeState :=
  match s.pc t with
  | .out => none
  | .fetchSub c =>
    some {
      counter := s.counter.hand c (back objectSize s.counter.current)
      pc := Function.update s.pc t (.ret c s.counter.current) }
  | .ret c begin =>
    some {
      counter := s.counter.finish c (back objectSize begin)
      pc := Function.update s.pc t .out }

def lockFreeStep (objectSize : ℕ) (s : LockFreeState) : AllocEvent → Option LockFreeState
  | .call t c =>
    if s.pc t = .out ∧ s.counter.life c = .fresh then
      some { counter := s.counter.begin c, pc := Function.update s.pc t (.fetchSub c) }
    else none
  | .go t => lockFreeNext objectSize s t

/-! ### What the calls are handed -/

/-- The block that call k is handed, counted from 1: end - k * sizeof(Object). -/
def blockAt (objectSize end_ k : ℕ) : ℕ := ((end_ - k * objectSize : ℤ) % 2 ^ 64).toNat

theorem back_iterate (objectSize : ℕ) {end_ : ℕ} (hend : end_ < 2 ^ 64) : ∀ k,
    (back objectSize)^[k] end_ = blockAt objectSize end_ k
  | 0 => by
    simp only [Function.iterate_zero, id_eq, blockAt]
    omega
  | k + 1 => by
    rw [Function.iterate_succ_apply', back_iterate objectSize hend k, back, blockAt, blockAt]
    push_cast
    rw [Int.add_mul, Int.one_mul]
    omega

end NonBlockingPool

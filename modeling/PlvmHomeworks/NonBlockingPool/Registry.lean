import Mathlib.Logic.Function.Basic
import PlvmHomeworks.Lib.Events

/-! The lock-free registry of memory pools, the threads that use it and the handler of faults.

    Every compare and exchange, load and store on the begin and the end of a slot is one step, in
    one order for all threads. A pool is what one allocator registers: it is mapped before its add is
    called and unmapped after its remove has returned. -/

namespace NonBlockingPool

def POOL_LIMIT : ℕ := 256

/-- A slot of known_pools; begin is 0 where it is free. -/
structure MemPool where
  begin : ℕ
  end_ : ℕ

/-- The addresses that a pool is mapped to. -/
structure Region where
  begin : ℕ
  end_ : ℕ
  deriving DecidableEq

def Region.Contains (r : Region) (p : ℕ) : Prop := r.begin ≤ p ∧ p < r.end_

def Region.Disjoint (r r' : Region) : Prop := r.end_ ≤ r'.begin ∨ r'.end_ ≤ r.begin

instance (r r' : Region) : Decidable (r.Disjoint r') := inferInstanceAs (Decidable (_ ∨ _))

theorem Region.Disjoint.symm {r r' : Region} (h : r.Disjoint r') : r'.Disjoint r := Or.symm h

/-- Where a thread is; the pool is the one its call is about. -/
inductive Pc
  | out
  | scan (pool slot : ℕ)    -- in add, about to exchange the begin of the slot
  | store (pool slot : ℕ)   -- in add, about to store the end of the slot
  | failed (pool : ℕ)       -- in add, past the last slot
  | clear (pool slot : ℕ)   -- in remove
  | unmap (pool : ℕ)        -- about to call munmap
  deriving DecidableEq

/-- What has become of a pool. -/
inductive Life
  | fresh
  | adding                 -- in add
  | taken (slot : ℕ)       -- in add, which has exchanged the begin of the slot
  | live (slot : ℕ)        -- add has returned the slot
  | leaving (slot : ℕ)     -- in remove
  | gone                   -- removed, or refused by add
  deriving DecidableEq

/-- The slot that the pool owns: from the exchange in add to the store in remove. -/
def Life.slot : Life → Option ℕ
  | .taken k | .live k | .leaving k => some k
  | _ => none

/-- Where alloc_handler is. The last argument of loaded is read by no step: it is the pool whose
    begin has been loaded. -/
inductive Handler
  | idle
  | scan (ptr slot : ℕ)
  | loaded (ptr slot begin : ℕ) (pool : Option ℕ)
  | reported (ptr begin : ℕ)
  | forwarded (ptr : ℕ)
  deriving DecidableEq

/-- The registry, its threads and the handler. No step reads the last three fields: the pools that
    have stored the begin and the end of a slot, and the threads behind whose scan a slot has been
    freed. -/
structure State where
  knownPools : ℕ → MemPool
  mapped : List ℕ
  region : ℕ → Region
  pc : ℕ → Pc
  life : ℕ → Life
  handler : Handler
  beginBy : ℕ → Option ℕ
  endBy : ℕ → Option ℕ
  passed : ℕ → Bool

def init : State where
  knownPools := fun _ => ⟨0, 0⟩
  mapped := []
  region := fun _ => ⟨0, 0⟩
  pc := fun _ => .out
  life := fun _ => .fresh
  handler := .idle
  beginBy := fun _ => none
  endBy := fun _ => none
  passed := fun _ => false

namespace State
variable (s : State)

/-- Thread t goes on to pc; the pool of its call is then in the given state. -/
def goto (t : ℕ) (pc : Pc) (pool : ℕ) (life : Life) : State :=
  { s with pc := Function.update s.pc t pc, life := Function.update s.life pool life }

def setBegin (slot begin : ℕ) (pool : Option ℕ) : State :=
  { s with
    knownPools := Function.update s.knownPools slot { s.knownPools slot with begin := begin }
    beginBy := Function.update s.beginBy slot pool }

def setEnd (slot end_ : ℕ) (pool : Option ℕ) : State :=
  { s with
    knownPools := Function.update s.knownPools slot { s.knownPools slot with end_ := end_ }
    endBy := Function.update s.endBy slot pool }

/-- The slot is freed behind every scan that has passed it. -/
def passScans (slot : ℕ) : State :=
  { s with passed := fun t => s.passed t || match s.pc t with
    | .scan _ k => decide (slot < k)
    | _ => false }

/-- mmap has given the pool of an add its addresses. -/
def map (t pool : ℕ) (r : Region) : State :=
  { s with
    mapped := pool :: s.mapped
    region := Function.update s.region pool r
    passed := Function.update s.passed t false }

end State

/-- The next step of a thread that is in a call. -/
def next (s : State) (t : ℕ) : Option State :=
  match s.pc t with
  | .out => none
  | .scan q k =>
    if (s.knownPools k).begin = 0 then
      some ((s.setBegin k (s.region q).begin (some q)).goto t (.store q k) q (.taken k))
    else if k + 1 < POOL_LIMIT then some (s.goto t (.scan q (k + 1)) q .adding)
    else some (s.goto t (.failed q) q .adding)
  | .store q k => some ((s.setEnd k (s.region q).end_ (some q)).goto t .out q (.live k))
  | .failed q => some (s.goto t .out q .gone)
  | .clear q k => some (((s.passScans k).setBegin k 0 none).goto t (.unmap q) q .gone)
  | .unmap q => some ({ s with mapped := s.mapped.erase q }.goto t .out q .gone)

/-- The next step of alloc_handler. -/
def handle (s : State) : Option State :=
  match s.handler with
  | .scan p i =>
    if i < POOL_LIMIT then
      let begin := (s.knownPools i).begin
      if begin ≠ 0 ∧ begin ≤ p then
        some { s with handler := .loaded p i begin (s.beginBy i) }
      else some { s with handler := .scan p (i + 1) }
    else some { s with handler := .forwarded p }
  | .loaded p i begin _ =>
    let end_ := (s.knownPools i).end_
    if begin ≤ p ∧ p < end_ then some { s with handler := .reported p begin }
    else some { s with handler := .scan p (i + 1) }
  | _ => none

inductive Event
  | add (t pool : ℕ) (r : Region)
  | remove (t pool : ℕ)
  | go (t : ℕ)
  | fault (ptr : ℕ)
  | handle

/-- The handler runs: it has not reported a pool and not forwarded the signal. -/
def Handler.running : Handler → Bool
  | .scan _ _ | .loaded _ _ _ _ => true
  | _ => false

/-- A thread calls add with the region of a new mapping or remove with the slot of a live pool, or
    takes its next step; an access faults, or the handler takes its next step. -/
def step (s : State) : Event → Option State
  | .add t q r =>
    if s.pc t = .out ∧ s.life q = .fresh ∧ 0 < r.begin ∧ r.begin < r.end_ ∧
        ∀ q' ∈ s.mapped, r.Disjoint (s.region q') then
      some ((s.map t q r).goto t (.scan q 0) q .adding)
    else none
  | .remove t q =>
    match s.life q with
    | .live k => if s.pc t = .out then some (s.goto t (.clear q k) q (.leaving k)) else none
    | _ => none
  | .go t => next s t
  | .fault p => if s.handler.running then none else some { s with handler := .scan p 0 }
  | .handle => handle s

end NonBlockingPool

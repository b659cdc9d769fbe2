import Mathlib.Logic.Function.Basic
import Mathlib.Order.Interval.Finset.Nat
import Mathlib.Tactic.Linarith
import PlvmHomeworks.Lib.Events
import PlvmHomeworks.ParallelMemcpy.Blocks

/-! The thread pool behind parallelMemcpy: its workers, its caller and the steps they take.

    A section that runs under worker_mutex is one step, and so is a block copy, which runs outside
    it. The order of the steps is free; a worker also wakes up without being notified. The calls
    come one after the other, and between two of them the program may change the memory. -/

namespace ParallelMemcpy

abbrev Memory := ℕ → UInt8

def memcpy (mem : Memory) (t : Task) : Memory := fun a =>
  if t.dst ≤ a ∧ a < t.dst + t.size then mem (t.src + (a - t.dst)) else mem a

/-- Where a worker is in its loop. -/
inductive Worker
  | starting  -- has not locked the mutex yet
  | waiting   -- in worker_cv.wait
  | woken     -- on its way out of worker_cv.wait
  | copying   -- past the test of its index, outside the mutex
  | copied    -- after its memcpy, about to lock the mutex
  | exited
  deriving DecidableEq

/-- Where the caller is in parallelMemcpy. -/
inductive Caller
  | entered   -- has stored alive_threads, about to lock the mutex
  | copying   -- has handed out the blocks, about to copy its own
  | copied    -- about to lock the mutex again
  | blocked   -- in receiver_cv.wait
  | notified  -- on its way out of receiver_cv.wait
  | returned
  deriving DecidableEq

/-- How far the worker of a block is with it, in the present call. -/
inductive Progress
  | todo | taken | copied | finished
  deriving DecidableEq

/-- The pool and its caller. The last three fields are about the present call only and are read by
    no step: the progress of its blocks, the memory it started in and the blocks copied since. -/
structure State where
  mem : Memory
  destroy : Bool
  aliveThreads : ℕ
  waitingFor : ℕ
  tasks : ℕ → Task
  worker : ℕ → Worker
  caller : Option (Call × Caller)
  progress : ℕ → Progress
  start : Memory
  written : List Task

def init (mem : Memory) : State where
  mem := mem
  destroy := false
  aliveThreads := 0
  waitingFor := 0
  tasks := fun _ => ⟨0, 0, 0⟩
  worker := fun _ => .starting
  caller := none
  progress := fun _ => .todo
  start := mem
  written := []

inductive Event
  | arrive (i : ℕ)
  | spurious (i : ℕ)
  | check (i : ℕ)
  | copyBlock (i : ℕ)
  | report (i : ℕ)
  | enter (c : Call) (mem : Memory)
  | publish
  | copyLast
  | finish
  | spuriousReceiver
  | destroy
  | notifyDestroyed

namespace State
variable (s : State)

def setWorker (i : ℕ) (w : Worker) : State := { s with worker := Function.update s.worker i w }

def setProgress (i : ℕ) (q : Progress) : State :=
  { s with progress := Function.update s.progress i q }

def setCaller (c : Call) (pc : Caller) : State := { s with caller := some (c, pc) }

/-- Copies a block, in one step. -/
def copy (t : Task) : State := { s with mem := memcpy s.mem t, written := t :: s.written }

/-- worker_cv.notify_all: every waiting worker is on its way out. -/
def notifyAll : State :=
  { s with worker := fun i => if s.worker i = .waiting then .woken else s.worker i }

/-- receiver_cv.notify_one: only the caller ever waits there. -/
def notifyReceiver : State :=
  match s.caller with
  | some (c, .blocked) => s.setCaller c .notified
  | _ => s

/-- No call is running: the pool has not been called yet or its last call has returned. -/
def isIdle : Bool :=
  match s.caller with
  | none => true
  | some (_, pc) => pc = .returned

end State

/-- The section of a worker that comes out of worker_cv.wait. -/
def checkSection (s : State) (i : ℕ) : State :=
  if s.destroy then s.setWorker i .exited
  else if s.aliveThreads ≤ i then s.setWorker i .waiting
  else (s.setWorker i .copying).setProgress i .taken

/-- The section of a worker that has copied its block, up to its next wait. -/
def reportSection (s : State) (i : ℕ) : State :=
  let counted := { s with waitingFor := sub s.waitingFor 1 }
  (counted.notifyReceiver.setWorker i .waiting).setProgress i .finished

/-- The first section of the caller. -/
def publishSection (p : ThreadPool) (s : State) (c : Call) : State :=
  let stored := { s with
    waitingFor := sub (c.tasksNum p) 1
    tasks := fun i => if i + 1 < c.tasksNum p then c.task p i else s.tasks i }
  (if 1 < c.tasksNum p then stored.notifyAll else stored).setCaller c .copying

/-- The caller's test of its wait loop: it returns or waits. -/
def finishSection (p : ThreadPool) (s : State) (c : Call) : State :=
  if 1 < c.tasksNum p ∧ s.waitingFor ≠ 0 then s.setCaller c .blocked else s.setCaller c .returned

/-- One step of a worker, of the caller or of the program around them. -/
def step (p : ThreadPool) (s : State) : Event → Option State
  | .arrive i =>
    if i < p.threads ∧ s.worker i = .starting then some (s.setWorker i .waiting) else none
  | .spurious i =>
    if i < p.threads ∧ s.worker i = .waiting then some (s.setWorker i .woken) else none
  | .check i =>
    if i < p.threads ∧ s.worker i = .woken then some (checkSection s i) else none
  | .copyBlock i =>
    if i < p.threads ∧ s.worker i = .copying then
      some (((s.copy (s.tasks i)).setWorker i .copied).setProgress i .copied)
    else none
  | .report i =>
    if i < p.threads ∧ s.worker i = .copied then some (reportSection s i) else none
  | .enter c mem =>
    if s.isIdle ∧ s.destroy = false then
      some { s with
        mem := mem
        aliveThreads := c.threads p
        caller := some (c, .entered)
        progress := fun _ => .todo
        start := mem
        written := [] }
    else none
  | .publish =>
    match s.caller with
    | some (c, .entered) => some (publishSection p s c)
    | _ => none
  | .copyLast =>
    match s.caller with
    | some (c, .copying) => some ((s.copy (c.task p (c.last p))).setCaller c .copied)
    | _ => none
  | .finish =>
    match s.caller with
    | some (c, .copied) => some (finishSection p s c)
    | some (c, .notified) => some (finishSection p s c)
    | _ => none
  | .spuriousReceiver =>
    match s.caller with
    | some (c, .blocked) => some (s.setCaller c .notified)
    | _ => none
  | .destroy => if s.isIdle then some { s with destroy := true } else none
  | .notifyDestroyed => if s.destroy then some s.notifyAll else none

end ParallelMemcpy

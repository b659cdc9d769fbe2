import Mathlib.Data.Finset.Card
import PlvmHomeworks.ParallelMemcpy.ThreadPool

/-! The completion protocol of parallelMemcpy.

    A worker that wakes up tests only its index against alive_threads, not whether the present call
    has a block for it. Where it never finds its index alive without such a block, waiting_for
    counts the blocks whose workers have not finished, and a call that returns has copied every byte
    and written no other. -/

namespace ParallelMemcpy

variable {p : ThreadPool} {c : Call} {pc : Caller} {s t : State}

/-- The bytes of dst. -/
def Call.Covers (c : Call) (a : ℕ) : Prop := c.dst ≤ a ∧ a < c.dst + c.size

/-- The blocks that the call has handed out to workers: none before its first section. -/
def assigned (p : ThreadPool) (c : Call) (pc : Caller) : Finset ℕ :=
  if pc = .entered then ∅ else Finset.range (c.tasksNum p - 1)

/-- The assigned blocks whose worker has not finished: its last step with a block is the section
    that reports it. -/
def unfinished (p : ThreadPool) (c : Call) (pc : Caller) (progress : ℕ → Progress) : Finset ℕ :=
  (assigned p c pc).filter fun i => progress i ≠ .finished

/-- What holds in every state of a call. -/
structure Completes (p : ThreadPool) (s : State) (c : Call) (pc : Caller) : Prop where
  waiting_for : s.waitingFor = (unfinished p c pc s.progress).card
  inside : ∀ w ∈ s.written, ∀ a, w.dst ≤ a → a < w.dst + w.size → c.Covers a
  unchanged : ∀ a, ¬ c.Covers a → s.mem a = s.start a
  copied : pc = .returned → ∀ k < c.size, s.mem (c.dst + k) = s.mem (c.src + k)

/-- A worker that finds its index alive has a block of the present call that it has not begun. -/
def HasBlock (p : ThreadPool) (s : State) : Event → Prop
  | .check i => s.destroy = false → i < s.aliveThreads →
      match s.caller with
      | some (c, pc) => i ∈ assigned p c pc ∧ s.progress i = .todo
      | none => False
  | _ => True

instance (p : ThreadPool) (s : State) (e : Event) : Decidable (HasBlock p s e) := by
  unfold HasBlock
  split
  · cases s.caller <;> infer_instance
  · infer_instance

theorem mem_assigned {i : ℕ} : i ∈ assigned p c pc ↔ pc ≠ .entered ∧ i + 1 < c.tasksNum p := by
  unfold assigned
  split
  next h => simp [h]
  next h =>
    rw [Finset.mem_range]
    exact ⟨fun hi => ⟨h, by omega⟩, fun hi => by omega⟩

theorem assigned_eq {pc' : Caller} (h : pc ≠ .entered) (h' : pc' ≠ .entered) :
    assigned p c pc = assigned p c pc' := by
  simp [assigned, h, h']

theorem card_assigned_lt : (assigned p c pc).card < SIZE_T := by
  unfold assigned
  split
  · simp [SIZE_T]
  · have hlt := c.tasksNum_lt p
    simp only [Finset.card_range]
    omega

theorem Call.Covers.sub_lt {a : ℕ} (ha : c.Covers a) : a - c.dst < c.size := by
  obtain ⟨hle, hlt⟩ := ha
  omega

theorem src_not_covers (c : Call) {k : ℕ} (hk : k < c.size) : ¬ c.Covers (c.src + k) := by
  rintro ⟨hle, hlt⟩
  rcases c.apart with h | h <;> omega

/-- Copying block i reads the bytes of the block from src. -/
theorem memcpy_task {i : ℕ} (hi : i < c.tasksNum p) (mem : Memory) {a : ℕ} (ha : c.Covers a)
    (hblock : (a - c.dst) / c.blockSize p = i) :
    memcpy mem (c.task p i) a = mem (c.src + (a - c.dst)) := by
  have hmem := (Call.mem_task_iff hi a).mpr ⟨ha.1, ha.2, hblock⟩
  rw [memcpy, if_pos hmem, Call.task_src hi, Call.task_dst hi]
  have hle := hmem.1
  rw [Call.task_dst hi] at hle
  congr 1
  omega

/-- Copying block i writes no byte of another block and none outside dst. -/
theorem memcpy_task_of_not {i : ℕ} (hi : i < c.tasksNum p) (mem : Memory) {a : ℕ}
    (h : c.Covers a → (a - c.dst) / c.blockSize p ≠ i) : memcpy mem (c.task p i) a = mem a := by
  refine if_neg fun hmem => ?_
  obtain ⟨hle, hlt, hblock⟩ := (Call.mem_task_iff hi a).mp hmem
  exact h ⟨hle, hlt⟩ hblock

/-- The caller has copied its own block. -/
def Caller.hasCopied : Caller → Bool
  | .entered | .copying => false
  | _ => true

/-- Block i has been copied, by its worker or by the caller. -/
def BlockDone (p : ThreadPool) (c : Call) (pc : Caller) (progress : ℕ → Progress) (i : ℕ) : Prop :=
  if i + 1 < c.tasksNum p then progress i = .copied ∨ progress i = .finished
  else pc.hasCopied = true

section
variable {progress : ℕ → Progress} {i j : ℕ} {q : Progress}

theorem unfinished_update (hi : progress i ≠ .finished) (hq : q ≠ .finished) :
    unfinished p c pc (Function.update progress i q) = unfinished p c pc progress := by
  refine Finset.filter_congr fun j _ => ?_
  by_cases hji : j = i
  · subst hji
    simp [hi, hq]
  · rw [Function.update_of_ne hji]

theorem unfinished_finish :
    unfinished p c pc (Function.update progress i .finished) =
      (unfinished p c pc progress).erase i := by
  ext j
  by_cases hji : j = i
  · subst hji
    simp [unfinished]
  · simp [unfinished, hji]

theorem blockDone_self (hi : i + 1 < c.tasksNum p) :
    BlockDone p c pc (Function.update progress i q) i ↔ q = .copied ∨ q = .finished := by
  rw [BlockDone, if_pos hi, Function.update_self]

theorem blockDone_of_ne (hji : j ≠ i) :
    BlockDone p c pc (Function.update progress i q) j ↔ BlockDone p c pc progress j := by
  rw [BlockDone, BlockDone, Function.update_of_ne hji]

end

/-- The state of the pool during a call whose workers all act on blocks of their own. -/
structure InCall (p : ThreadPool) (c : Call) (pc : Caller) (s : State) : Prop where
  taking : ∀ i, s.worker i = .copying → i + 1 < c.tasksNum p ∧ s.progress i = .taken
  reporting : ∀ i, s.worker i = .copied → i + 1 < c.tasksNum p ∧ s.progress i = .copied
  fresh : pc = .entered → ∀ i, s.progress i = .todo
  tasks : pc ≠ .entered → ∀ i, i + 1 < c.tasksNum p → s.tasks i = c.task p i
  count : s.waitingFor = (unfinished p c pc s.progress).card
  written : ∀ w ∈ s.written, ∃ i < c.tasksNum p, w = c.task p i
  unchanged : ∀ a, ¬ c.Covers a → s.mem a = s.start a
  copied : ∀ a, c.Covers a → BlockDone p c pc s.progress ((a - c.dst) / c.blockSize p) →
    s.mem a = s.start (c.src + (a - c.dst))
  returned : pc = .returned → ∀ i, i + 1 < c.tasksNum p → s.progress i = .finished

/-- What every step keeps. -/
structure Inv (p : ThreadPool) (s : State) : Prop where
  idle : s.caller = none → s.waitingFor = 0 ∧ ∀ i, s.worker i ≠ .copying ∧ s.worker i ≠ .copied
  call : ∀ c pc, s.caller = some (c, pc) → InCall p c pc s

namespace InCall

/-- A worker that does not end up with a block changes nothing the call depends on. -/
theorem setWorkers (h : InCall p c pc s) {worker : ℕ → Worker}
    (hw : ∀ i, worker i = .copying ∨ worker i = .copied → worker i = s.worker i) :
    InCall p c pc { s with worker := worker } where
  taking i hi := h.taking i ((hw i (.inl hi)).symm.trans hi)
  reporting i hi := h.reporting i ((hw i (.inr hi)).symm.trans hi)
  fresh := h.fresh
  tasks := h.tasks
  count := h.count
  written := h.written
  unchanged := h.unchanged
  copied := h.copied
  returned := h.returned

theorem setWorker (h : InCall p c pc s) (i : ℕ) {w : Worker} (hw : w ≠ .copying)
    (hw' : w ≠ .copied) : InCall p c pc (s.setWorker i w) := by
  refine h.setWorkers fun j hj => ?_
  by_cases hji : j = i
  · subst hji
    rw [Function.update_self] at hj
    exact absurd hj (not_or.mpr ⟨hw, hw'⟩)
  · exact Function.update_of_ne hji ..

/-- A worker that has a block of the call goes on with it. -/
theorem advance (h : InCall p c pc s) {i : ℕ} (hi : i ∈ assigned p c pc)
    (hopen : s.progress i ≠ .finished) {w : Worker} {q : Progress} {n : ℕ} {mem : Memory}
    {written : List Task} (htaking : w = .copying → q = .taken)
    (hreporting : w = .copied → q = .copied)
    (hcount : n = (unfinished p c pc (Function.update s.progress i q)).card)
    (hwritten : ∀ w ∈ written, ∃ j < c.tasksNum p, w = c.task p j)
    (hunchanged : ∀ a, ¬ c.Covers a → mem a = s.start a)
    (hcopied : ∀ a, c.Covers a →
      BlockDone p c pc (Function.update s.progress i q) ((a - c.dst) / c.blockSize p) →
      mem a = s.start (c.src + (a - c.dst))) :
    InCall p c pc { s with
      worker := Function.update s.worker i w
      progress := Function.update s.progress i q
      waitingFor := n
      mem := mem
      written := written } := by
  obtain ⟨hpc, htask⟩ := mem_assigned.mp hi
  refine ⟨fun j hj => ?_, fun j hj => ?_, fun hentered => absurd hentered hpc, h.tasks, hcount,
    hwritten, hunchanged, hcopied, fun hret => absurd (h.returned hret i htask) hopen⟩
  · by_cases hji : j = i
    · subst hji
      exact ⟨htask, (Function.update_self ..).trans (htaking ((Function.update_self ..).symm.trans hj))⟩
    · obtain ⟨hlt, hprogress⟩ := h.taking j ((Function.update_of_ne hji ..).symm.trans hj)
      exact ⟨hlt, (Function.update_of_ne hji ..).trans hprogress⟩
  · by_cases hji : j = i
    · subst hji
      exact ⟨htask,
        (Function.update_self ..).trans (hreporting ((Function.update_self ..).symm.trans hj))⟩
    · obtain ⟨hlt, hprogress⟩ := h.reporting j ((Function.update_of_ne hji ..).symm.trans hj)
      exact ⟨hlt, (Function.update_of_ne hji ..).trans hprogress⟩

/-- A worker takes its block. -/
theorem take (h : InCall p c pc s) {i : ℕ} (hi : i ∈ assigned p c pc)
    (htodo : s.progress i = .todo) :
    InCall p c pc ((s.setWorker i .copying).setProgress i .taken) := by
  have hopen : s.progress i ≠ .finished := by simp [htodo]
  refine h.advance hi hopen (fun _ => rfl) (fun hw => absurd hw (by decide)) ?_ h.written
    h.unchanged fun a ha hdone => h.copied a ha ?_
  · rw [unfinished_update hopen (by decide)]
    exact h.count
  · by_cases hblock : (a - c.dst) / c.blockSize p = i
    · rw [hblock, blockDone_self (mem_assigned.mp hi).2] at hdone
      simp at hdone
    · exact (blockDone_of_ne hblock).mp hdone

/-- Once a block has been begun the blocks have been handed out. -/
theorem ne_entered (h : InCall p c pc s) {i : ℕ} {q : Progress} (hi : s.progress i = q)
    (hq : q ≠ .todo) : pc ≠ .entered :=
  fun hpc => hq (hi.symm.trans (h.fresh hpc i))

/-- A worker copies its block. -/
theorem copyBlock (h : InCall p c pc s) {i : ℕ} (hi : s.worker i = .copying) :
    InCall p c pc (((s.copy (s.tasks i)).setWorker i .copied).setProgress i .copied) := by
  obtain ⟨htask, htaken⟩ := h.taking i hi
  have hpc : pc ≠ .entered := h.ne_entered htaken (by decide)
  have hlt : i < c.tasksNum p := by omega
  have hopen : s.progress i ≠ .finished := by simp [htaken]
  rw [h.tasks hpc i htask]
  refine h.advance (mem_assigned.mpr ⟨hpc, htask⟩) hopen (fun hw => absurd hw (by decide))
    (fun _ => rfl) ?_ ?_ (fun a ha => ?_) fun a ha hdone => ?_
  · rw [unfinished_update hopen (by decide)]
    exact h.count
  · intro w hw
    rcases List.mem_cons.mp hw with rfl | hold
    · exact ⟨i, hlt, rfl⟩
    · exact h.written w hold
  · exact (memcpy_task_of_not hlt _ fun hcov => absurd hcov ha).trans (h.unchanged a ha)
  · by_cases hblock : (a - c.dst) / c.blockSize p = i
    · exact (memcpy_task hlt _ ha hblock).trans (h.unchanged _ (src_not_covers c ha.sub_lt))
    · exact (memcpy_task_of_not hlt _ fun _ => hblock).trans
        (h.copied a ha ((blockDone_of_ne hblock).mp hdone))

/-- A worker reports its block. -/
theorem report (h : InCall p c pc s) {i : ℕ} (hi : s.worker i = .copied) :
    InCall p c pc { s with
      worker := Function.update s.worker i .waiting
      progress := Function.update s.progress i .finished
      waitingFor := sub s.waitingFor 1 } := by
  obtain ⟨htask, hprogress⟩ := h.reporting i hi
  have hassigned : i ∈ assigned p c pc :=
    mem_assigned.mpr ⟨h.ne_entered hprogress (by decide), htask⟩
  have hopen : s.progress i ≠ .finished := by simp [hprogress]
  have hmem : i ∈ unfinished p c pc s.progress := Finset.mem_filter.mpr ⟨hassigned, hopen⟩
  refine h.advance hassigned hopen (fun hw => absurd hw (by decide))
    (fun hw => absurd hw (by decide)) ?_ h.written h.unchanged fun a ha hdone => h.copied a ha ?_
  · rw [unfinished_finish, Finset.card_erase_of_mem hmem, h.count]
    exact sub_eq (Nat.lt_of_le_of_lt (Finset.card_filter_le _ _) card_assigned_lt)
      (Finset.card_pos.mpr ⟨i, hmem⟩)
  · by_cases hblock : (a - c.dst) / c.blockSize p = i
    · rw [hblock, BlockDone, if_pos htask]
      exact .inl hprogress
    · exact (blockDone_of_ne hblock).mp hdone

/-- The caller goes on: only its place in the call changes. -/
theorem setCaller (h : InCall p c pc s) {pc' : Caller} (hpc : pc ≠ .entered) (hpc' : pc' ≠ .entered)
    (hcopied : pc'.hasCopied = pc.hasCopied)
    (hret : pc' = .returned → ∀ i, i + 1 < c.tasksNum p → s.progress i = .finished) :
    InCall p c pc' (s.setCaller c pc') where
  taking := h.taking
  reporting := h.reporting
  fresh hentered := absurd hentered hpc'
  tasks _ := h.tasks hpc
  count := h.count.trans (by rw [unfinished, unfinished, assigned_eq hpc hpc']; rfl)
  written := h.written
  unchanged := h.unchanged
  copied a ha hdone := h.copied a ha (by rwa [BlockDone, hcopied] at hdone)
  returned := hret

theorem notifyAll (h : InCall p c pc s) : InCall p c pc s.notifyAll := by
  refine h.setWorkers fun i hi => ?_
  by_cases hw : s.worker i = .waiting
  · rw [if_pos hw] at hi ⊢
    simp at hi
  · rw [if_neg hw]

theorem publishSection_caller (p : ThreadPool) (s : State) (c : Call) :
    (publishSection p s c).caller = some (c, .copying) := by
  unfold publishSection
  split <;> rfl

/-- The caller hands out the blocks. -/
theorem publish (h : InCall p c .entered s) : InCall p c .copying (publishSection p s c) := by
  have hidle : ∀ i, s.worker i ≠ .copying ∧ s.worker i ≠ .copied := fun i =>
    ⟨fun hi => by simpa [h.fresh rfl i] using (h.taking i hi).2,
      fun hi => by simpa [h.fresh rfl i] using (h.reporting i hi).2⟩
  have hstored : InCall p c .copying { s with
      waitingFor := sub (c.tasksNum p) 1
      tasks := fun i => if i + 1 < c.tasksNum p then c.task p i else s.tasks i
      caller := some (c, .copying) } := by
    refine ⟨fun i hi => absurd hi (hidle i).1, fun i hi => absurd hi (hidle i).2,
      fun hpc => absurd hpc (by decide), fun _ i hi => if_pos hi, ?_, h.written, h.unchanged,
      fun a _ hdone => ?_, fun hpc => absurd hpc (by decide)⟩
    · have hall : unfinished p c .copying s.progress = Finset.range (c.tasksNum p - 1) :=
        Finset.filter_true_of_mem fun i _ => by simp [h.fresh rfl i]
      rw [hall, Finset.card_range]
      exact c.last_eq p
    · rw [BlockDone] at hdone
      split at hdone <;> simp [h.fresh rfl, Caller.hasCopied] at hdone
  unfold publishSection
  split
  · exact hstored.notifyAll
  · exact hstored

/-- The caller copies the last block. -/
theorem copyLast (h : InCall p c .copying s) {i : ℕ} (hi : i + 1 = c.tasksNum p) :
    InCall p c .copied ((s.copy (c.task p i)).setCaller c .copied) := by
  have hlt : i < c.tasksNum p := by omega
  have hassigned : assigned p c .copying = assigned p c .copied := assigned_eq (by simp) (by simp)
  refine ⟨h.taking, h.reporting, fun hpc => absurd hpc (by decide), fun _ => h.tasks (by decide),
    h.count.trans (by rw [unfinished, hassigned]; rfl), fun w hw => ?_, fun a ha => ?_,
    fun a ha hdone => ?_, fun hpc => absurd hpc (by decide)⟩
  · rcases List.mem_cons.mp hw with rfl | hold
    · exact ⟨i, hlt, rfl⟩
    · exact h.written w hold
  · exact (memcpy_task_of_not hlt _ fun hcov => absurd hcov ha).trans (h.unchanged a ha)
  · by_cases hblock : (a - c.dst) / c.blockSize p = i
    · exact (memcpy_task hlt _ ha hblock).trans (h.unchanged _ (src_not_covers c ha.sub_lt))
    · have hle := div_lt_tasksNum (c.size_add_blockSize_lt p) (c.blockSize_pos p) ha.sub_lt
      have hworker : (a - c.dst) / c.blockSize p + 1 < c.tasksNum p :=
        Nat.lt_of_le_of_ne hle fun heq => hblock (Nat.succ.inj (heq.trans hi.symm))
      rw [BlockDone, if_pos hworker] at hdone
      refine (memcpy_task_of_not hlt _ fun _ => hblock).trans (h.copied a ha ?_)
      rw [BlockDone, if_pos hworker]
      exact hdone

/-- The caller waits, or returns when waiting_for is zero. -/
theorem finish (h : InCall p c pc s) (hpc : pc ≠ .entered) (hcopied : pc.hasCopied = true) :
    ∃ pc', (finishSection p s c).caller = some (c, pc') ∧
      InCall p c pc' (finishSection p s c) := by
  unfold finishSection
  split
  next => exact ⟨.blocked, rfl, h.setCaller hpc (by decide) (by rw [hcopied]; rfl) (by simp)⟩
  next hdone =>
    refine ⟨.returned, rfl, h.setCaller hpc (by decide) (by rw [hcopied]; rfl) fun _ i hi => ?_⟩
    have hzero : s.waitingFor = 0 := by
      by_contra hne
      exact hdone ⟨by omega, hne⟩
    rw [h.count, Finset.card_eq_zero] at hzero
    by_contra hopen
    have hmem : i ∈ unfinished p c pc s.progress :=
      Finset.mem_filter.mpr ⟨mem_assigned.mpr ⟨hpc, hi⟩, hopen⟩
    rw [hzero] at hmem
    exact Finset.notMem_empty i hmem

/-- A call whose workers all act on blocks of their own does what it should. -/
theorem completes (h : InCall p c pc s) : Completes p s c pc := by
  refine ⟨h.count, fun w hw a hle hlt => ?_, h.unchanged, fun hret k hk => ?_⟩
  · obtain ⟨i, hi, rfl⟩ := h.written w hw
    obtain ⟨hdst, hend, -⟩ := (Call.mem_task_iff hi a).mp ⟨hle, hlt⟩
    exact ⟨hdst, hend⟩
  · have hcov : c.Covers (c.dst + k) := ⟨Nat.le_add_right _ _, Nat.add_lt_add_left hk _⟩
    have hdone : BlockDone p c pc s.progress ((c.dst + k - c.dst) / c.blockSize p) := by
      rw [BlockDone]
      split
      next hworker => exact .inr (h.returned hret _ hworker)
      next => rw [hret]; rfl
    rw [h.copied _ hcov hdone, Nat.add_sub_cancel_left, h.unchanged _ (src_not_covers c hk)]

end InCall

namespace Inv

theorem init (mem : Memory) : Inv p (init mem) where
  idle _ := ⟨rfl, fun _ => ⟨by simp [ParallelMemcpy.init], by simp [ParallelMemcpy.init]⟩⟩
  call c pc h := by simp [ParallelMemcpy.init] at h

/-- A step that leaves the caller where it is. -/
theorem of_call (h : Inv p s) (hcaller : t.caller = s.caller)
    (hidle : s.caller = none → s.waitingFor = 0 →
      (∀ i, s.worker i ≠ .copying ∧ s.worker i ≠ .copied) →
      t.waitingFor = 0 ∧ ∀ i, t.worker i ≠ .copying ∧ t.worker i ≠ .copied)
    (hcall : ∀ c pc, s.caller = some (c, pc) → InCall p c pc s → InCall p c pc t) : Inv p t where
  idle hnone := hidle (hcaller ▸ hnone) (h.idle (hcaller ▸ hnone)).1 (h.idle (hcaller ▸ hnone)).2
  call c pc hsome := hcall c pc (hcaller ▸ hsome) (h.call c pc (hcaller ▸ hsome))

theorem of_some (ht : t.caller = some (c, pc)) (h : InCall p c pc t) : Inv p t where
  idle hnone := by rw [ht] at hnone; cases hnone
  call c' pc' hsome := by
    obtain ⟨rfl, rfl⟩ := Prod.mk.inj (Option.some.inj (ht.symm.trans hsome))
    exact h

/-- Between two calls no worker has a block. -/
theorem quiet (h : Inv p s) (hidle : s.isIdle = true) :
    s.waitingFor = 0 ∧ ∀ i, s.worker i ≠ .copying ∧ s.worker i ≠ .copied := by
  unfold State.isIdle at hidle
  split at hidle
  next hnone => exact h.idle hnone
  next c pc hsome =>
    obtain rfl : pc = .returned := by simpa using hidle
    have hcall := h.call c _ hsome
    have hall : ∀ i, i + 1 < c.tasksNum p → s.progress i = .finished := hcall.returned rfl
    refine ⟨?_, fun i => ⟨fun hi => ?_, fun hi => ?_⟩⟩
    · rw [hcall.count, Finset.card_eq_zero]
      exact Finset.filter_false_of_mem fun i hi => by simp [hall i (mem_assigned.mp hi).2]
    · obtain ⟨hlt, htaken⟩ := hcall.taking i hi
      simp [hall i hlt] at htaken
    · obtain ⟨hlt, hcopied⟩ := hcall.reporting i hi
      simp [hall i hlt] at hcopied

/-- A worker that ends up waiting, woken or gone. -/
theorem setWorker (h : Inv p s) (i : ℕ) {w : Worker} (hw : w ≠ .copying) (hw' : w ≠ .copied) :
    Inv p (s.setWorker i w) := by
  refine h.of_call rfl (fun _ hzero hidle => ⟨hzero, fun j => ?_⟩) fun c pc _ hcall =>
    hcall.setWorker i hw hw'
  by_cases hji : j = i
  · subst hji
    simp [State.setWorker, hw, hw']
  · simpa [State.setWorker, hji] using hidle j

theorem notifyAll (h : Inv p s) : Inv p s.notifyAll := by
  refine h.of_call rfl (fun _ hzero hidle => ⟨hzero, fun j => ?_⟩) fun c pc _ hcall =>
    hcall.notifyAll
  by_cases hw : s.worker j = .waiting
  · simp [State.notifyAll, hw]
  · simpa [State.notifyAll, hw] using hidle j

theorem check (h : Inv p s) {i : ℕ} (hok : HasBlock p s (.check i)) : Inv p (checkSection s i) := by
  unfold checkSection
  split
  next => exact h.setWorker i (by decide) (by decide)
  next hdestroy =>
    split
    next => exact h.setWorker i (by decide) (by decide)
    next halive =>
      have hblock := hok (by simpa using hdestroy) (by omega)
      split at hblock
      next c pc hcaller => exact of_some hcaller ((h.call c pc hcaller).take hblock.1 hblock.2)
      next => exact hblock.elim

theorem copyBlock (h : Inv p s) {i : ℕ} (hi : s.worker i = .copying) :
    Inv p (((s.copy (s.tasks i)).setWorker i .copied).setProgress i .copied) :=
  h.of_call rfl (fun _ _ hidle => absurd hi (hidle i).1) fun _ _ _ hcall => hcall.copyBlock hi

theorem report (h : Inv p s) {i : ℕ} (hi : s.worker i = .copied) : Inv p (reportSection s i) := by
  cases hcaller : s.caller with
  | none => exact absurd hi ((h.idle hcaller).2 i).2
  | some call =>
    obtain ⟨c, pc⟩ := call
    have hcall := (h.call c pc hcaller).report hi
    by_cases hpc : pc = .blocked
    · subst hpc
      have hnotified := hcall.setCaller (by decide) (by decide : Caller.notified ≠ .entered) rfl (by simp)
      refine of_some (?_ : _ = some (c, Caller.notified)) ?_
      · simp [reportSection, State.notifyReceiver, hcaller, State.setProgress, State.setWorker,
          State.setCaller]
      · simpa [reportSection, State.notifyReceiver, hcaller, State.setProgress, State.setWorker,
          State.setCaller] using hnotified
    · have hsame : reportSection s i = { s with
          worker := Function.update s.worker i .waiting
          progress := Function.update s.progress i .finished
          waitingFor := sub s.waitingFor 1 } := by
        unfold reportSection State.notifyReceiver
        cases pc <;> simp_all [State.setProgress, State.setWorker]
      rw [hsame]
      exact of_some hcaller hcall

/-- The program calls parallelMemcpy. -/
theorem enter (h : Inv p s) (hidle : s.isIdle = true) (c : Call) (mem : Memory) :
    Inv p { s with
      mem := mem
      aliveThreads := c.threads p
      caller := some (c, .entered)
      progress := fun _ => .todo
      start := mem
      written := [] } := by
  obtain ⟨hzero, hquiet⟩ := h.quiet hidle
  refine of_some rfl ⟨fun i hi => absurd hi (hquiet i).1, fun i hi => absurd hi (hquiet i).2,
    fun _ _ => rfl, fun hpc => absurd rfl hpc, by simpa [unfinished, assigned] using hzero,
    fun w hw => absurd hw List.not_mem_nil, fun _ _ => rfl, fun a _ hdone => ?_,
    fun hpc => absurd hpc (by decide)⟩
  rw [BlockDone] at hdone
  split at hdone <;> simp [Caller.hasCopied] at hdone

theorem copyLast (h : Inv p s) (hcaller : s.caller = some (c, .copying)) :
    Inv p ((s.copy (c.task p (c.last p))).setCaller c .copied) := by
  have hlast : c.last p + 1 = c.tasksNum p := by
    rw [c.last_eq]
    exact Nat.sub_add_cancel (c.tasksNum_pos p)
  generalize c.last p = i at hlast
  exact of_some rfl ((h.call c _ hcaller).copyLast hlast)

/-- Every step keeps the invariant, where a worker that finds its index alive has a block. -/
theorem step (h : Inv p s) {e : Event} (hok : HasBlock p s e)
    (hstep : ParallelMemcpy.step p s e = some t) : Inv p t := by
  cases e with
  | arrive i =>
    obtain ⟨-, rfl⟩ := Option.ite_some_none_eq_some.mp hstep
    exact h.setWorker i (by decide) (by decide)
  | spurious i =>
    obtain ⟨-, rfl⟩ := Option.ite_some_none_eq_some.mp hstep
    exact h.setWorker i (by decide) (by decide)
  | check i =>
    obtain ⟨-, rfl⟩ := Option.ite_some_none_eq_some.mp hstep
    exact h.check hok
  | copyBlock i =>
    obtain ⟨hi, rfl⟩ := Option.ite_some_none_eq_some.mp hstep
    exact h.copyBlock hi.2
  | report i =>
    obtain ⟨hi, rfl⟩ := Option.ite_some_none_eq_some.mp hstep
    exact h.report hi.2
  | enter c mem =>
    obtain ⟨hidle, rfl⟩ := Option.ite_some_none_eq_some.mp hstep
    exact h.enter hidle.1 c mem
  | publish =>
    simp only [ParallelMemcpy.step] at hstep
    split at hstep <;> cases hstep
    next c hcaller => exact of_some (InCall.publishSection_caller p s c) (h.call c _ hcaller).publish
  | copyLast =>
    simp only [ParallelMemcpy.step] at hstep
    split at hstep
    next c hcaller =>
      rw [← Option.some.inj hstep]
      exact h.copyLast hcaller
    next => cases hstep
  | finish =>
    simp only [ParallelMemcpy.step] at hstep
    split at hstep <;> cases hstep
    next c hcaller =>
      obtain ⟨pc, hpc, hcall⟩ := (h.call c _ hcaller).finish (by decide) rfl
      exact of_some hpc hcall
    next c hcaller =>
      obtain ⟨pc, hpc, hcall⟩ := (h.call c _ hcaller).finish (by decide) rfl
      exact of_some hpc hcall
  | spuriousReceiver =>
    simp only [ParallelMemcpy.step] at hstep
    split at hstep <;> cases hstep
    next c hcaller =>
      exact of_some rfl ((h.call c _ hcaller).setCaller (by decide) (by decide) rfl (by simp))
  | destroy =>
    obtain ⟨-, rfl⟩ := Option.ite_some_none_eq_some.mp hstep
    exact h.of_call rfl (fun _ hzero hidle => ⟨hzero, hidle⟩) fun c pc _ hcall =>
      ⟨hcall.taking, hcall.reporting, hcall.fresh, hcall.tasks, hcall.count, hcall.written,
        hcall.unchanged, hcall.copied, hcall.returned⟩
  | notifyDestroyed =>
    obtain ⟨-, rfl⟩ := Option.ite_some_none_eq_some.mp hstep
    exact h.notifyAll

end Inv

/-- Any sequence of calls, under any interleaving in which a worker that finds its index alive has
    a block of the present call that it has not begun. -/
theorem memcpy_completes {mem : Memory} {es : List Event}
    (h : Events.Run (step p) (HasBlock p) (init mem) es s) (hcaller : s.caller = some (c, pc)) :
    Completes p s c pc := by
  have hinv : Inv p s := h.invariant (Inv.init mem) fun _ _ _ ha hok hstep => ha.step hok hstep
  exact (hinv.call c pc hcaller).completes

def twoThreads : ThreadPool := ⟨2, by decide⟩

/-- A source of ones, everything else is zero. -/
def ones (src : ℕ) : Memory := fun a => if src ≤ a then 1 else 0

/-- A copy of 2048 bytes by one worker and the caller, each with a block of 1024. -/
def evenCall : Call where
  dst := 4096
  src := 8192
  size := 2048
  threadsNum := 1
  nonempty := by decide
  dst_pos := by decide
  src_pos := by decide
  dst_fits := by decide
  src_fits := by decide
  apart := by decide
  threads_fit := by decide

def evenRun : List Event :=
  [.arrive 0, .enter evenCall (ones 8192), .publish, .check 0, .copyLast, .finish, .copyBlock 0,
    .report 0, .finish]

theorem memcpy_completes_evenCall :
    ∃ s, Events.exec (step twoThreads) (init (ones 8192)) evenRun = some s ∧
      s.caller = some (evenCall, .returned) ∧ Completes twoThreads s evenCall .returned := by
  obtain ⟨s, hs⟩ : ∃ s, Events.exec (step twoThreads) (init (ones 8192)) evenRun = some s :=
    Option.isSome_iff_exists.mp (by decide +kernel)
  have hcaller : s.caller = some (evenCall, .returned) := by
    have hsame : (Events.exec (step twoThreads) (init (ones 8192)) evenRun).bind State.caller =
      some (evenCall, .returned) := rfl
    simpa [hs] using hsame
  exact ⟨s, hs, hcaller,
    memcpy_completes (Events.run_of_exec hs (by decide +kernel)) hcaller⟩

/-- A copy of 1025 bytes for which two workers are alive, one of them without a block. -/
def oddCall : Call where
  dst := 4096
  src := 8192
  size := 1025
  threadsNum := 2
  nonempty := by decide
  dst_pos := by decide
  src_pos := by decide
  dst_fits := by decide
  src_fits := by decide
  apart := by decide
  threads_fit := by decide

/-- The broadcast wakes worker 1 as well, which copies the empty task it was created with. -/
def idleWorker : List Event :=
  [.arrive 0, .arrive 1, .enter oddCall (ones 8192), .publish, .copyLast, .check 1, .copyBlock 1,
    .report 1]

def idleWorkerReturned : List Event := idleWorker ++ [.finish]

def idleWorkerBlocked : List Event := idleWorker ++ [.check 0, .copyBlock 0, .report 0, .finish]

/-- The call returns before worker 0 has copied; or worker 0 counts below zero and it waits on. -/
theorem idle_worker_counted :
    (∃ s, Events.exec (step twoThreads) (init (ones 8192)) idleWorkerReturned = some s ∧
      s.caller = some (oddCall, .returned) ∧ s.mem oddCall.dst ≠ s.mem oddCall.src ∧
      ¬ Completes twoThreads s oddCall .returned) ∧
    ∃ s, Events.exec (step twoThreads) (init (ones 8192)) idleWorkerBlocked = some s ∧
      s.caller = some (oddCall, .blocked) ∧ s.waitingFor = 2 ^ 64 - 1 ∧
      ¬ Completes twoThreads s oddCall .blocked := by
  constructor
  · obtain ⟨s, hs⟩ : ∃ s, Events.exec (step twoThreads) (init (ones 8192)) idleWorkerReturned =
      some s := Option.isSome_iff_exists.mp (by decide +kernel)
    have hcaller : (Events.exec (step twoThreads) (init (ones 8192)) idleWorkerReturned).map
      State.caller = some (some (oddCall, .returned)) := rfl
    have hbytes : (Events.exec (step twoThreads) (init (ones 8192)) idleWorkerReturned).map
      (fun s => (s.mem oddCall.dst, s.mem oddCall.src)) = some (0, 1) := by decide +kernel
    simp only [hs, Option.map_some, Option.some.injEq, Prod.mk.injEq] at hcaller hbytes
    have hne : s.mem oddCall.dst ≠ s.mem oddCall.src := by simp [hbytes]
    exact ⟨s, hs, hcaller, hne, fun h => hne (h.copied rfl 0 oddCall.nonempty)⟩
  · obtain ⟨s, hs⟩ : ∃ s, Events.exec (step twoThreads) (init (ones 8192)) idleWorkerBlocked =
      some s := Option.isSome_iff_exists.mp (by decide +kernel)
    have hcaller : (Events.exec (step twoThreads) (init (ones 8192)) idleWorkerBlocked).map
      State.caller = some (some (oddCall, .blocked)) := rfl
    have hwaiting : (Events.exec (step twoThreads) (init (ones 8192)) idleWorkerBlocked).map
      State.waitingFor = some (2 ^ 64 - 1) := by decide +kernel
    have hassigned : (assigned twoThreads oddCall .blocked).card = 1 := by decide +kernel
    simp only [hs, Option.map_some, Option.some.injEq] at hcaller hwaiting
    refine ⟨s, hs, hcaller, hwaiting, fun h => ?_⟩
    have hcard := Finset.card_filter_le (assigned twoThreads oddCall .blocked)
      fun i => s.progress i ≠ .finished
    have hcount := h.waiting_for
    rw [unfinished, hwaiting] at hcount
    omega

end ParallelMemcpy

import PlvmHomeworks.ParallelMemcpy.Blocks

/-! The blocks of any copy: which workers get one, and what the caller is left with.

    The sum of a size and a block size is rounded down to a number of blocks. For no bytes it is 0,
    and every step after that counts from one block less. -/

namespace ParallelMemcpy

/-- The arguments of a call and the number of workers of its pool, as the arithmetic sees them. -/
structure Cut where
  dst : ℕ
  src : ℕ
  size : ℕ
  threadsNum : ℕ
  poolThreads : ℕ

namespace Cut
variable (c : Cut)

def threads : ℕ := min c.poolThreads c.threadsNum

def blockSize : ℕ := ParallelMemcpy.blockSize c.size c.threads

def tasksNum : ℕ := ParallelMemcpy.tasksNum c.size c.blockSize

/-- The workers that get a block: the loop goes on while i + 1 < tasks_num. -/
def workers : List ℕ := List.range (c.tasksNum - 1)

/-- The index of the block that the caller copies itself. -/
def last : ℕ := sub c.tasksNum 1

/-- Every block that is copied, by its index. -/
def blocks : List ℕ := c.workers ++ [c.last]

def task (i : ℕ) : Task := taskAt c.dst c.src c.size c.blockSize i

/-- How far block i lies behind dst and behind src. -/
def offset (i : ℕ) : ℕ := c.blockSize * i % SIZE_T

/-- The byte k of the copy is in block i. -/
def Holds (i k : ℕ) : Prop := c.offset i ≤ k ∧ k < c.offset i + (c.task i).size

end Cut

/-- The blocks are a partition of the copy, and every subtraction on the way to them is one of natural
    numbers. -/
structure Exact (c : Cut) : Prop where
  rounding : 1 ≤ (c.size + c.blockSize) % SIZE_T
  counting : 1 ≤ c.tasksNum
  remaining : ∀ i ∈ c.blocks, i * c.blockSize % SIZE_T ≤ c.size
  placed : ∀ i ∈ c.blocks, (c.task i).dst = (c.dst + c.offset i) % SIZE_T ∧
    (c.task i).src = (c.src + c.offset i) % SIZE_T
  worker : ∀ i ∈ c.workers, i < min c.poolThreads c.threadsNum
  inside : ∀ i ∈ c.blocks, c.offset i + (c.task i).size ≤ c.size
  disjoint : c.blocks.Pairwise fun i j => ∀ k, ¬ (c.Holds i k ∧ c.Holds j k)
  covered : ∀ k < c.size, ∃ i ∈ c.blocks, c.Holds i k

section Nonempty
variable {c : Cut} {i k : ℕ} (hsize : c.size < 2 ^ 62) (hthreads : c.threadsNum < 2 ^ 62)

namespace Cut

include hsize hthreads in
theorem size_add_threads_lt : c.size + c.threads < SIZE_T := by
  have hle : c.threads ≤ c.threadsNum := Nat.min_le_right ..
  simp only [SIZE_T]
  omega

section
variable (hpos : 0 < c.size)
include hsize hthreads hpos

theorem size_add_blockSize_lt : c.size + c.blockSize < SIZE_T := by
  have hle := blockSize_le hpos (size_add_threads_lt hsize hthreads)
  simp only [blockSize, SIZE_T] at hle ⊢
  rcases le_max_iff.mp hle with h | h <;> omega

theorem one_le_tasksNum : 1 ≤ c.tasksNum :=
  tasksNum_pos (size_add_blockSize_lt hsize hthreads hpos) (blockSize_pos ..) hpos

theorem tasksNum_le_threads : c.tasksNum ≤ c.threads + 1 :=
  tasksNum_le hpos (size_add_threads_lt hsize hthreads) (size_add_blockSize_lt hsize hthreads hpos)

/-- The caller takes the last block. -/
theorem last_eq : c.last = c.tasksNum - 1 := by
  have hle := tasksNum_le_threads hsize hthreads hpos
  have hmin : c.threads ≤ c.threadsNum := Nat.min_le_right ..
  refine sub_eq ?_ (one_le_tasksNum hsize hthreads hpos)
  simp only [SIZE_T]
  omega

/-- The blocks that are copied are those below tasks_num, each once. -/
theorem blocks_eq : c.blocks = List.range c.tasksNum := by
  have hpred := Nat.succ_pred_eq_of_pos (one_le_tasksNum hsize hthreads hpos)
  rw [blocks, workers, last_eq hsize hthreads hpos, ← List.range_succ]
  exact congrArg List.range hpred

theorem mem_blocks_iff : i ∈ c.blocks ↔ i < c.tasksNum := by
  rw [blocks_eq hsize hthreads hpos, List.mem_range]

section
variable (hi : i < c.tasksNum)
include hi

theorem mul_lt_size : c.blockSize * i < c.size := by
  have hfit := size_add_blockSize_lt hsize hthreads hpos
  have hlast := mul_pred_tasksNum_lt hfit (blockSize_pos ..) hpos
  exact Nat.lt_of_le_of_lt (Nat.mul_le_mul_left _ (Nat.le_sub_one_of_lt hi)) hlast

theorem offset_eq : c.offset i = c.blockSize * i := by
  have hlt := mul_lt_size hsize hthreads hpos hi
  refine Nat.mod_eq_of_lt ?_
  simp only [SIZE_T]
  omega

theorem task_size : (c.task i).size = min (c.size - c.blockSize * i) c.blockSize := by
  have hlt := mul_lt_size hsize hthreads hpos hi
  have hoff : i * c.blockSize % SIZE_T = c.blockSize * i := by
    rw [Nat.mul_comm]
    exact offset_eq hsize hthreads hpos hi
  change min (sub c.size (i * c.blockSize % SIZE_T)) c.blockSize = _
  rw [hoff, sub_eq ?_ (Nat.le_of_lt hlt)]
  simp only [SIZE_T]
  omega

/-- A byte is in the block that its quotient by the block size names. -/
theorem holds_iff : c.Holds i k ↔ k < c.size ∧ k / c.blockSize = i := by
  have hlt := mul_lt_size hsize hthreads hpos hi
  have hblock : 0 < c.blockSize := blockSize_pos ..
  rw [Holds, offset_eq hsize hthreads hpos hi, task_size hsize hthreads hpos hi,
    Nat.div_eq_iff hblock, Nat.mul_comm i]
  rcases Nat.le_total (c.size - c.blockSize * i) c.blockSize with h | h
  · rw [min_eq_left h]
    omega
  · rw [min_eq_right h]
    omega

end

end

end Cut

end Nonempty

/-- The blocks of a copy are a partition of it exactly when there is a byte to copy. -/
theorem partition_exact_iff (c : Cut) (hsize : c.size < 2 ^ 62) (hthreads : c.threadsNum < 2 ^ 62) :
    Exact c ↔ 0 < c.size := by
  constructor
  · -- without a byte there is no block, and tasks_num - 1 wraps
    intro hexact
    rcases Nat.eq_zero_or_pos c.size with hzero | hpos
    · have hlt : c.threads < SIZE_T := by
        have := Cut.size_add_threads_lt hsize hthreads
        omega
      have hdiv : c.threads % SIZE_T / ((c.threads + 1) % SIZE_T) = 0 := by
        have hmin : c.threads ≤ c.threadsNum := Nat.min_le_right ..
        rw [Nat.mod_eq_of_lt hlt, Nat.mod_eq_of_lt (by simp only [SIZE_T]; omega)]
        exact Nat.div_eq_of_lt (Nat.lt_succ_self _)
      have hblock : c.blockSize = 1024 := by
        rw [Cut.blockSize, blockSize, hzero, Nat.zero_add, hdiv]
        rfl
      have htasks : c.tasksNum = 0 := by
        rw [Cut.tasksNum, hblock, hzero]
        rfl
      have hcount := hexact.counting
      omega
    · exact hpos
  · intro hpos
    have hfit := Cut.size_add_blockSize_lt hsize hthreads hpos
    have hmem := fun {i} => Cut.mem_blocks_iff (i := i) hsize hthreads hpos
    refine ⟨?_, Cut.one_le_tasksNum hsize hthreads hpos, fun i hi => ?_, fun i _ => ⟨rfl, rfl⟩,
      fun i hi => ?_, fun i hi => ?_, ?_, fun k hk => ?_⟩
    · rw [Nat.mod_eq_of_lt hfit]
      omega
    · have hlt := Cut.mul_lt_size hsize hthreads hpos (hmem.mp hi)
      rw [Nat.mul_comm]
      exact (Nat.mod_le _ _).trans (Nat.le_of_lt hlt)
    · have hle := Cut.tasksNum_le_threads hsize hthreads hpos
      have hlt := List.mem_range.mp hi
      exact Nat.lt_of_lt_of_le (show i < c.threads by omega) (Nat.le_refl _)
    · have hlt := Cut.mul_lt_size hsize hthreads hpos (hmem.mp hi)
      rw [Cut.offset_eq hsize hthreads hpos (hmem.mp hi), Cut.task_size hsize hthreads hpos (hmem.mp hi)]
      have hmin := Nat.min_le_left (c.size - c.blockSize * i) c.blockSize
      omega
    · rw [Cut.blocks_eq hsize hthreads hpos]
      refine List.nodup_range.imp_of_mem fun {i j} hi hj hne k => ?_
      rintro ⟨hik, hjk⟩
      rw [Cut.holds_iff hsize hthreads hpos (List.mem_range.mp hi)] at hik
      rw [Cut.holds_iff hsize hthreads hpos (List.mem_range.mp hj)] at hjk
      exact hne (hik.2.symm.trans hjk.2)
    · have hi : k / c.blockSize < c.tasksNum := div_lt_tasksNum hfit (blockSize_pos ..) hk
      exact ⟨_, hmem.mpr hi, (Cut.holds_iff hsize hthreads hpos hi).mpr ⟨hk, rfl⟩⟩

/-- 5000 bytes, 8 workers: the caller copies the fifth block. -/
theorem partition_exact_iff_five : Exact ⟨65536, 131072, 5000, 8, 8⟩ ↔ 0 < 5000 :=
  partition_exact_iff ⟨65536, 131072, 5000, 8, 8⟩ (by decide) (by decide)

/-- For no bytes the caller copies the 1024 bytes before dst and src. -/
theorem empty_copy_escapes :
    (Cut.task ⟨65536, 131072, 0, 8, 8⟩ (Cut.last ⟨65536, 131072, 0, 8, 8⟩)).dst = 65536 - 1024 ∧
      (Cut.task ⟨65536, 131072, 0, 8, 8⟩ (Cut.last ⟨65536, 131072, 0, 8, 8⟩)).size = 1024 ∧
      ¬ Exact ⟨65536, 131072, 0, 8, 8⟩ := by
  refine ⟨by decide, by decide, fun h => ?_⟩
  exact absurd h.counting (by decide)

end ParallelMemcpy

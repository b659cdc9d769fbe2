import Mathlib.Tactic.Ring
import Mathlib.Tactic.Linarith

/-! How parallelMemcpy cuts a copy into blocks.

    The block size is at least 1024 bytes and large enough that the pool's threads and the caller
    have one block each; every block but the last has the full size. The arithmetic is that of
    size_t, written with its wrap-around; for a call on real memory none of it wraps. -/

namespace ParallelMemcpy

/-- The number of values of a size_t. -/
def SIZE_T : ℕ := 2 ^ 64

/-- The difference of two size_t values. -/
def sub (a b : ℕ) : ℕ := (a + (SIZE_T - b % SIZE_T)) % SIZE_T

theorem sub_eq {a b : ℕ} (ha : a < SIZE_T) (hba : b ≤ a) : sub a b = a - b := by
  have hb : b % SIZE_T = b := Nat.mod_eq_of_lt (Nat.lt_of_le_of_lt hba ha)
  rw [sub, hb, show a + (SIZE_T - b) = a - b + SIZE_T by omega, Nat.add_mod_right,
    Nat.mod_eq_of_lt (by omega)]

/-- block_size, for a copy of size bytes by threads workers and the caller. -/
def blockSize (size threads : ℕ) : ℕ :=
  max 1024 ((size + threads) % SIZE_T / ((threads + 1) % SIZE_T))

/-- tasks_num, the number of blocks. -/
def tasksNum (size block : ℕ) : ℕ := sub ((size + block) % SIZE_T) 1 / block

theorem blockSize_pos (size threads : ℕ) : 0 < blockSize size threads :=
  Nat.lt_of_lt_of_le (by decide) (Nat.le_max_left _ _)

theorem size_le_blocks {size threads : ℕ} (hfit : size + threads < SIZE_T) (hsize : 0 < size) :
    size ≤ blockSize size threads * (threads + 1) := by
  rw [blockSize, Nat.mod_eq_of_lt hfit, Nat.mod_eq_of_lt (by omega : threads + 1 < SIZE_T)]
  have hdiv := Nat.lt_mul_div_succ (size + threads) (by omega : 0 < threads + 1)
  have hceil : size ≤ (size + threads) / (threads + 1) * (threads + 1) := by
    rw [Nat.mul_add, Nat.mul_comm] at hdiv
    omega
  exact hceil.trans (Nat.mul_le_mul_right _ (Nat.le_max_right _ _))

theorem tasksNum_eq {size block : ℕ} (hfit : size + block < SIZE_T) (hblock : 0 < block) :
    tasksNum size block = (size + block - 1) / block := by
  rw [tasksNum, Nat.mod_eq_of_lt hfit, sub_eq hfit (by omega)]

section
variable {size block : ℕ} (hfit : size + block < SIZE_T) (hblock : 0 < block)
include hfit hblock

theorem size_le_mul_tasksNum : size ≤ block * tasksNum size block := by
  rw [tasksNum_eq hfit hblock]
  have hdiv := Nat.lt_mul_div_succ (size + block - 1) hblock
  rw [Nat.mul_add] at hdiv
  omega

/-- The last block is not empty. -/
theorem mul_pred_tasksNum_lt (hsize : 0 < size) : block * (tasksNum size block - 1) < size := by
  rw [tasksNum_eq hfit hblock]
  have hdiv := Nat.mul_div_le (size + block - 1) block
  rw [Nat.mul_sub]
  omega

theorem tasksNum_pos (hsize : 0 < size) : 0 < tasksNum size block := by
  have hle := size_le_mul_tasksNum hfit hblock
  rcases Nat.eq_zero_or_pos (tasksNum size block) with hzero | hpos
  · rw [hzero] at hle
    omega
  · exact hpos

/-- Every byte lies in one of the blocks. -/
theorem div_lt_tasksNum {k : ℕ} (hk : k < size) : k / block < tasksNum size block :=
  Nat.div_lt_of_lt_mul (Nat.lt_of_lt_of_le hk (size_le_mul_tasksNum hfit hblock))

end

/-- No block is longer than the copy, unless it has the least size. -/
theorem blockSize_le {size threads : ℕ} (hsize : 0 < size) (hfit : size + threads < SIZE_T) :
    blockSize size threads ≤ max 1024 size := by
  rw [blockSize, Nat.mod_eq_of_lt hfit, Nat.mod_eq_of_lt (by omega : threads + 1 < SIZE_T)]
  refine max_le_max le_rfl (Nat.div_le_of_le_mul ?_)
  have hmul : threads ≤ threads * size := Nat.le_mul_of_pos_right _ hsize
  rw [Nat.add_mul, Nat.one_mul]
  omega

theorem tasksNum_le {size threads : ℕ} (hsize : 0 < size) (hsum : size + threads < SIZE_T)
    (hfit : size + blockSize size threads < SIZE_T) :
    tasksNum size (blockSize size threads) ≤ threads + 1 := by
  have hle := size_le_blocks hsum hsize
  have hlast := mul_pred_tasksNum_lt hfit (blockSize_pos size threads) hsize
  have hlt := Nat.lt_of_mul_lt_mul_left (Nat.lt_of_lt_of_le hlast hle)
  omega

/-- The threads of the pool; a vector of them has fewer than 2^60 elements. -/
structure ThreadPool where
  threads : ℕ
  fits : threads < 2 ^ 60

/-- The arguments of parallelMemcpy: two ranges of the address space that do not overlap. -/
structure Call where
  dst : ℕ
  src : ℕ
  size : ℕ
  threadsNum : ℕ
  nonempty : 0 < size
  dst_pos : 0 < dst
  src_pos : 0 < src
  dst_fits : dst + size ≤ SIZE_T
  src_fits : src + size ≤ SIZE_T
  apart : dst + size ≤ src ∨ src + size ≤ dst
  threads_fit : threadsNum < SIZE_T

/-- What a worker copies: thread_dst[i], thread_src[i] and thread_size[i]. -/
structure Task where
  dst : ℕ
  src : ℕ
  size : ℕ

/-- The block with index i of a copy of size bytes in blocks of the given size. -/
def taskAt (dst src size block i : ℕ) : Task where
  dst := (dst + block * i % SIZE_T) % SIZE_T
  src := (src + block * i % SIZE_T) % SIZE_T
  size := min (sub size (i * block % SIZE_T)) block

namespace Call
variable (c : Call) (p : ThreadPool)

/-- threads_num after the call has bounded it by the number of workers. -/
def threads : ℕ := min p.threads c.threadsNum

def blockSize : ℕ := ParallelMemcpy.blockSize c.size (c.threads p)

def tasksNum : ℕ := ParallelMemcpy.tasksNum c.size (c.blockSize p)

def task (i : ℕ) : Task := taskAt c.dst c.src c.size (c.blockSize p) i

/-- The index of the block that the caller copies itself. -/
def last : ℕ := sub (c.tasksNum p) 1

theorem size_lt : c.size < 2 ^ 63 := by
  have hdst := c.dst_fits
  have hsrc := c.src_fits
  have hdst_pos := c.dst_pos
  have hsrc_pos := c.src_pos
  simp only [SIZE_T] at hdst hsrc
  rcases c.apart with h | h <;> omega

theorem threads_lt : c.threads p < 2 ^ 60 :=
  Nat.lt_of_le_of_lt (Nat.min_le_left _ _) p.fits

theorem blockSize_pos : 0 < c.blockSize p := ParallelMemcpy.blockSize_pos _ _

theorem size_add_threads_lt : c.size + c.threads p < SIZE_T := by
  have hsize := c.size_lt
  have hthreads := c.threads_lt p
  simp only [SIZE_T]
  omega

theorem size_add_blockSize_lt : c.size + c.blockSize p < SIZE_T := by
  have hle := blockSize_le c.nonempty (c.size_add_threads_lt p)
  have hsize := c.size_lt
  simp only [blockSize, SIZE_T] at hle ⊢
  rcases le_max_iff.mp hle with h | h <;> omega

theorem tasksNum_pos : 0 < c.tasksNum p :=
  ParallelMemcpy.tasksNum_pos (c.size_add_blockSize_lt p) (c.blockSize_pos p) c.nonempty

theorem tasksNum_le : c.tasksNum p ≤ c.threads p + 1 :=
  ParallelMemcpy.tasksNum_le c.nonempty (c.size_add_threads_lt p) (c.size_add_blockSize_lt p)

theorem tasksNum_lt : c.tasksNum p < SIZE_T := by
  have hle := c.tasksNum_le p
  have hthreads := c.threads_lt p
  simp only [SIZE_T]
  omega

theorem last_eq : c.last p = c.tasksNum p - 1 := sub_eq (c.tasksNum_lt p) (c.tasksNum_pos p)

section
variable {c p} {i : ℕ} (hi : i < c.tasksNum p)
include hi

theorem mul_lt_size : c.blockSize p * i < c.size := by
  have hlast := mul_pred_tasksNum_lt (c.size_add_blockSize_lt p) (c.blockSize_pos p) c.nonempty
  exact Nat.lt_of_le_of_lt (Nat.mul_le_mul_left _ (Nat.le_sub_one_of_lt hi)) hlast

theorem mul_mod_size : c.blockSize p * i % SIZE_T = c.blockSize p * i := by
  have hlt := mul_lt_size hi
  have hfits := c.dst_fits
  exact Nat.mod_eq_of_lt (by omega)

theorem task_dst : (c.task p i).dst = c.dst + c.blockSize p * i := by
  have hlt := mul_lt_size hi
  have hfits := c.dst_fits
  change (c.dst + c.blockSize p * i % SIZE_T) % SIZE_T = _
  rw [mul_mod_size hi, Nat.mod_eq_of_lt (by omega)]

theorem task_src : (c.task p i).src = c.src + c.blockSize p * i := by
  have hlt := mul_lt_size hi
  have hfits := c.src_fits
  change (c.src + c.blockSize p * i % SIZE_T) % SIZE_T = _
  rw [mul_mod_size hi, Nat.mod_eq_of_lt (by omega)]

theorem task_size : (c.task p i).size = min (c.size - c.blockSize p * i) (c.blockSize p) := by
  have hfits := c.dst_fits
  have hdst := c.dst_pos
  change min (sub c.size (i * c.blockSize p % SIZE_T)) (c.blockSize p) = _
  rw [Nat.mul_comm i, mul_mod_size hi, sub_eq (by omega) (Nat.le_of_lt (mul_lt_size hi))]

/-- Block i covers the bytes of dst whose offset, divided by the block size, is i. -/
theorem mem_task_iff (a : ℕ) :
    (c.task p i).dst ≤ a ∧ a < (c.task p i).dst + (c.task p i).size ↔
      c.dst ≤ a ∧ a < c.dst + c.size ∧ (a - c.dst) / c.blockSize p = i := by
  have hlt := mul_lt_size hi
  rw [task_dst hi, task_size hi, Nat.div_eq_iff (c.blockSize_pos p), Nat.mul_comm i]
  have hpos := c.blockSize_pos p
  constructor
  · rintro ⟨hle, hup⟩
    rw [Nat.add_assoc, ← Nat.add_min_add_left] at hup
    refine ⟨by omega, by omega, by omega, by omega⟩
  · rintro ⟨hle, hup, hlow, hhigh⟩
    rcases Nat.le_total (c.size - c.blockSize p * i) (c.blockSize p) with h | h
    · rw [min_eq_left h]
      omega
    · rw [min_eq_right h]
      omega

end

end Call

end ParallelMemcpy

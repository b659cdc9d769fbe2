import Mathlib.Algebra.Order.Ring.Int
import Mathlib.Logic.Function.Basic
import Mathlib.Tactic.Positivity.Basic
import Mathlib.Tactic.Ring
import PlvmHomeworks.Lib.Cycles

/-! The chains of pointers that run_with_stride and run_with_two_strides build in the array jump, and
    the laps that follow them.

    A pointer is counted in cells from jump. A store outside of the array is an error, and what the
    array has held before is arbitrary. -/

namespace CacheMetrics
open Cycles

def ARRAY_SIZE : ℤ := 1048576  -- 1 << 20

/-- What the cells of jump hold. -/
abbrev Cells := ℤ → ℤ

def InArray (p : ℤ) : Prop := 0 ≤ p ∧ p < ARRAY_SIZE

instance (p : ℤ) : Decidable (InArray p) := inferInstanceAs (Decidable (_ ∧ _))

/-- *p = q. -/
def store (cells : Cells) (p q : ℤ) : Option Cells :=
  if InArray p then some (Function.update cells p q) else none

/-- STEP, n times. -/
def steps (cells : Cells) : ℕ → ℤ → Option ℤ
  | 0, cursor => some cursor
  | n + 1, cursor => if InArray cursor then steps cells n (cells cursor) else none

/-- lap, without its clock: what it saves. -/
def lap (cells : Cells) : Option ℤ := steps cells (256 + 1024) 0

/-- The loop of run_with_stride, from i on; none is a store outside of the array, or that the rounds
    are used up before the loop ends. -/
def strideLoop (stride size : ℤ) : ℕ → ℤ → Cells → Option Cells
  | 0, _, _ => none
  | rounds + 1, i, cells =>
    if i < size then
      (store cells i (if 0 ≤ i - stride then i - stride else i + size - stride)).bind fun cells =>
        strideLoop stride size rounds (i + 1) cells
    else some cells

/-- A round for each cell of the array, and one for the end of a loop. -/
def maxRounds : ℕ := 1048577

/-- run_with_stride up to its lap. -/
def fillWithStride (stride spots : ℤ) (cells : Cells) : Option Cells :=
  strideLoop stride (min ARRAY_SIZE (stride * spots)) maxRounds 0 cells

/-- The loop of run_with_two_strides, from i on. -/
def twoStridesLoop (smallStride bigStride size : ℤ) : ℕ → ℤ → Cells → Option Cells
  | 0, _, _ => none
  | rounds + 1, i, cells =>
    if i < size then
      (store cells (i + smallStride)
        (if i + bigStride < size then i + smallStride + bigStride - smallStride
          else i + smallStride + bigStride - smallStride - size)).bind fun cells =>
      (store cells i (i + smallStride)).bind fun cells =>
        twoStridesLoop smallStride bigStride size rounds (i + bigStride) cells
    else some cells

/-- run_with_two_strides up to its lap. -/
def fillWithTwoStrides (smallStride bigStride spots : ℤ) (cells : Cells) : Option Cells :=
  twoStridesLoop smallStride bigStride (min ARRAY_SIZE (bigStride * spots)) maxRounds 0 cells

/-- run_with_stride: what its lap saves. -/
def runWithStride (stride spots : ℤ) (cells : Cells) : Option ℤ :=
  (fillWithStride stride spots cells).bind lap

/-- run_with_two_strides: what its lap saves. -/
def runWithTwoStrides (smallStride bigStride spots : ℤ) (cells : Cells) : Option ℤ :=
  (fillWithTwoStrides smallStride bigStride spots cells).bind lap

/-- The chain from jump goes through n cells, which are these places, all in the array, and comes back
    to jump. -/
structure Chain (cells : Cells) (n : ℕ) (places : Set ℤ) : Prop where
  period : Function.minimalPeriod cells 0 = n
  visits : {p | ∃ k < n, cells^[k] 0 = p} = places
  inside : ∀ p ∈ places, InArray p

/-- run_with_stride builds a chain through the multiples of stride. -/
def StrideChain (stride spots : ℕ) (cells : Cells) : Prop :=
  ∃ cells', fillWithStride stride spots cells = some cells' ∧
    Chain cells' spots {p | ∃ k < spots, p = k * stride}

/-- run_with_two_strides builds a chain through the multiples of the big stride and the cells a small
    stride behind them. -/
def TwoStridesChain (smallStride bigStride spots : ℕ) (cells : Cells) : Prop :=
  ∃ cells', fillWithTwoStrides smallStride bigStride spots cells = some cells' ∧
    Chain cells' (2 * spots) {p | ∃ k < spots, p = k * bigStride ∨ p = k * bigStride + smallStride}

variable {cells : Cells} {p q : ℤ}

theorem store_eq (hp : InArray p) : store cells p q = some (Function.update cells p q) := if_pos hp

/-! ### One stride -/

/-- What the loop of run_with_stride stores in a cell. -/
def link (stride size p : ℤ) : ℤ := if 0 ≤ p - stride then p - stride else p + size - stride

/-- The loop links every cell from i on. -/
theorem strideLoop_eq (stride : ℤ) {size : ℤ} (hsize : size ≤ ARRAY_SIZE) :
    ∀ (rounds : ℕ) (i : ℤ) (cells : Cells), 0 ≤ i → 0 < rounds → size - i < rounds →
    ∃ cells', strideLoop stride size rounds i cells = some cells' ∧
      ∀ p, cells' p = if i ≤ p ∧ p < size then link stride size p else cells p := by
  intro rounds
  induction rounds with
  | zero => exact fun i cells _ h => absurd h (Nat.lt_irrefl 0)
  | succ rounds ih =>
    intro i cells hi _ hrounds
    rw [strideLoop]
    split
    next hlt =>
      rw [store_eq ⟨hi, by omega⟩, Option.bind_some]
      obtain ⟨cells', hrun, hcells⟩ :=
        ih (i + 1) (Function.update cells i (link stride size i)) (by omega) (by omega) (by omega)
      refine ⟨cells', hrun, fun p => ?_⟩
      rw [hcells]
      by_cases hp : p = i
      · subst hp
        rw [if_neg (by omega), if_pos (by omega), Function.update_self]
      · rw [Function.update_of_ne hp]
        refine if_congr ?_ rfl rfl
        omega
    next hend => exact ⟨cells, rfl, fun p => (if_neg (by omega)).symm⟩

/-- The places of the chain: after jump they go down from the last multiple of the stride. -/
def strideAt (stride spots k : ℕ) : ℤ := ((spots - k) % spots : ℕ) * stride

theorem strideAt_zero (stride spots : ℕ) : strideAt stride spots 0 = 0 := by
  rw [strideAt, Nat.sub_zero, Nat.mod_self, Nat.cast_zero, zero_mul]

theorem strideAt_of_pos {stride spots k : ℕ} (hk : 0 < k) (hlt : k ≤ spots) :
    strideAt stride spots k = (spots - k : ℕ) * stride := by
  rw [strideAt, Nat.mod_eq_of_lt (by omega)]

theorem link_zero {stride : ℕ} (hstride : 1 ≤ stride) (spots : ℕ) :
    link stride (stride * (spots + 1 : ℕ)) 0 = spots * stride := by
  rw [link, if_neg (by omega)]
  push_cast
  ring

theorem link_succ (stride : ℕ) (size : ℤ) (k : ℕ) :
    link stride size ((k + 1 : ℕ) * stride) = k * stride := by
  have hback : ((k + 1 : ℕ) * stride - stride : ℤ) = k * stride := by
    push_cast
    ring
  rw [link, hback, if_pos (by positivity)]

/-- Linked cells go round these places. -/
theorem stride_round {stride spots : ℕ} (hstride : 1 ≤ stride) (hspots : 1 ≤ spots)
    (hcells : ∀ k < spots, cells (k * stride) = link stride (stride * spots) (k * stride)) :
    Round cells (strideAt stride spots) spots where
  pos := hspots
  next k hk := by
    have hnext : strideAt stride spots (k + 1) = _ := strideAt_of_pos (Nat.succ_pos k) (Nat.le_of_lt hk)
    rw [hnext]
    rcases Nat.eq_zero_or_pos k with rfl | hpos
    · have hfirst := hcells 0 (by omega)
      obtain ⟨m, rfl⟩ := Nat.exists_eq_add_of_le' hspots
      rw [strideAt_zero]
      rw [Nat.cast_zero, zero_mul, link_zero hstride] at hfirst
      exact hfirst
    · obtain ⟨m, hm⟩ : ∃ m, spots - k = m + 1 := ⟨spots - k - 1, by omega⟩
      have hrest : spots - (k + 1) = m := by omega
      rw [strideAt_of_pos hpos (by omega), hm, hrest, hcells _ (by omega), link_succ]
  last := by
    obtain ⟨m, rfl⟩ := Nat.exists_eq_add_of_le' hspots
    rw [strideAt_zero, Nat.add_sub_cancel]
    rcases Nat.eq_zero_or_pos m with rfl | hpos
    · have hfirst := hcells 0 (by omega)
      rw [strideAt_zero]
      rw [Nat.cast_zero, zero_mul, link_zero hstride, Nat.cast_zero, zero_mul] at hfirst
      exact hfirst
    · have hone : m + 1 - m = 0 + 1 := by omega
      rw [strideAt_of_pos hpos (by omega), hone, hcells _ (by omega), link_succ, Nat.cast_zero, zero_mul]
  inj j k hj hk hjk := by
    have hne : (stride : ℤ) ≠ 0 := by omega
    have hmod := Int.ofNat_inj.mp (mul_right_cancel₀ hne hjk)
    have hplace : ∀ i < spots, i = 0 ∧ (spots - i) % spots = 0 ∨
        0 < i ∧ (spots - i) % spots = spots - i := by
      intro i hi
      rcases Nat.eq_zero_or_pos i with rfl | hpos
      · exact .inl ⟨rfl, by rw [Nat.sub_zero, Nat.mod_self]⟩
      · exact .inr ⟨hpos, Nat.mod_eq_of_lt (by omega)⟩
    have hj' := hplace j hj
    have hk' := hplace k hk
    omega

/-- They are the multiples of the stride. -/
theorem strideAt_image (stride spots : ℕ) :
    {p | ∃ k < spots, strideAt stride spots k = p} = {p | ∃ k < spots, p = k * (stride : ℤ)} := by
  ext p
  constructor
  · rintro ⟨k, hk, rfl⟩
    exact ⟨_, Nat.mod_lt _ (by omega), rfl⟩
  · rintro ⟨k, hk, rfl⟩
    rcases Nat.eq_zero_or_pos k with rfl | hpos
    · exact ⟨0, hk, by rw [strideAt_zero, Nat.cast_zero, zero_mul]⟩
    · refine ⟨spots - k, by omega, ?_⟩
      rw [strideAt_of_pos (by omega) (by omega), Nat.sub_sub_self (by omega)]

theorem Chain.of_round {c : ℕ → ℤ} {n : ℕ} {places : Set ℤ} (h : Round cells c n) (hc : c 0 = 0)
    (hplaces : {p | ∃ k < n, c k = p} = places) (hinside : ∀ p ∈ places, InArray p) :
    Chain cells n places where
  period := hc ▸ h.minimalPeriod
  visits := by
    rw [← hplaces, ← hc]
    ext p
    refine exists_congr fun k => and_congr_right fun hk => ?_
    rw [h.iterate hk]
  inside := hinside

/-- The chain of one stride. -/
theorem strideChain {stride spots : ℕ} (hstride : 1 ≤ stride) (hspots : 1 ≤ spots)
    (hsize : (stride * spots : ℤ) ≤ ARRAY_SIZE) (cells : Cells) : StrideChain stride spots cells := by
  have hrounds : (stride * spots : ℤ) - 0 < maxRounds := by
    rw [ARRAY_SIZE] at hsize
    rw [maxRounds]
    omega
  obtain ⟨cells', hrun, hcells⟩ :=
    strideLoop_eq stride hsize maxRounds 0 cells (Int.le_refl 0) (by decide) hrounds
  refine ⟨cells', by rw [fillWithStride, min_eq_right hsize]; exact hrun, ?_⟩
  have hplace : ∀ k < spots, 0 ≤ (k * stride : ℤ) ∧ (k * stride : ℤ) < stride * spots := by
    intro k hk
    refine ⟨by positivity, ?_⟩
    rw [mul_comm (stride : ℤ)]
    exact mul_lt_mul_of_pos_right (by omega) (by omega)
  refine .of_round (stride_round hstride hspots fun k hk => ?_) (strideAt_zero stride spots)
    (strideAt_image stride spots) ?_
  · rw [hcells, if_pos (hplace k hk)]
  · rintro p ⟨k, hk, rfl⟩
    exact ⟨(hplace k hk).1, lt_of_lt_of_le (hplace k hk).2 hsize⟩

/-! ### Two strides -/

section TwoStrides
variable {smallStride bigStride spots : ℕ}

/-- Where the chain goes on behind the k-th pair of cells. -/
def nextPair (bigStride spots k : ℕ) : ℤ := if k + 1 < spots then (k + 1 : ℕ) * bigStride else 0

/-- No store of the loop overwrites a cell that another one has stored to, and all are in the array. -/
structure Apart (smallStride bigStride spots : ℕ) : Prop where
  bigStride_pos : 0 < bigStride
  ne : ∀ j < spots, ∀ k < spots, (j * bigStride + smallStride : ℤ) ≠ k * bigStride
  size_le : (bigStride * spots : ℤ) ≤ ARRAY_SIZE
  inside : ∀ k < spots, InArray (k * bigStride + smallStride)

theorem mul_lt_size (hbig : 0 < bigStride) {k : ℕ} :
    (k * bigStride : ℤ) < bigStride * spots ↔ k < spots := by
  rw [mul_comm (bigStride : ℤ), mul_lt_mul_iff_left₀ (by omega)]
  exact Int.ofNat_lt

theorem succ_mul_stride (bigStride k : ℕ) :
    (k * bigStride + bigStride : ℤ) = (k + 1 : ℕ) * bigStride := by
  push_cast
  ring

theorem mul_stride_ne (hbig : 0 < bigStride) {j k : ℕ} (hjk : j < k) :
    (j * bigStride : ℤ) ≠ k * bigStride := by
  intro heq
  have hcancel := Int.ofNat_inj.mp (mul_right_cancel₀ (show (bigStride : ℤ) ≠ 0 by omega) heq)
  omega

theorem Apart.inArray (h : Apart smallStride bigStride spots) {k : ℕ} (hk : k < spots) :
    InArray (k * bigStride) :=
  ⟨by positivity, lt_of_lt_of_le ((mul_lt_size h.bigStride_pos).mpr hk) h.size_le⟩

/-- What the loop stores in the second cell of a pair. -/
theorem stored_nextPair (hbig : 0 < bigStride) {k : ℕ} (hk : k < spots) :
    (if (k * bigStride : ℤ) + bigStride < bigStride * spots
      then (k * bigStride : ℤ) + smallStride + bigStride - smallStride
      else (k * bigStride : ℤ) + smallStride + bigStride - smallStride - bigStride * spots) =
    nextPair bigStride spots k := by
  have hsucc := succ_mul_stride bigStride k
  rw [nextPair, hsucc]
  by_cases hlt : k + 1 < spots
  · rw [if_pos ((mul_lt_size hbig).mpr hlt), if_pos hlt]
    omega
  · rw [if_neg (mt (mul_lt_size hbig).mp hlt), if_neg hlt]
    obtain rfl : k + 1 = spots := by omega
    rw [mul_comm (bigStride : ℤ)]
    omega

/-- The loop links the pairs from the k-th one on, and leaves all other cells alone. -/
theorem twoStridesLoop_eq (h : Apart smallStride bigStride spots) : ∀ (m k rounds : ℕ) (cells : Cells),
    k + m = spots → m < rounds →
    ∃ cells', twoStridesLoop smallStride bigStride (bigStride * spots) rounds (k * bigStride) cells =
        some cells' ∧
      (∀ j, k ≤ j → j < spots → cells' (j * bigStride) = j * bigStride + smallStride ∧
        cells' (j * bigStride + smallStride) = nextPair bigStride spots j) ∧
      ∀ p : ℤ, (∀ j, k ≤ j → j < spots → p ≠ j * bigStride ∧ p ≠ j * bigStride + smallStride) →
        cells' p = cells p := by
  intro m
  induction m with
  | zero =>
    intro k rounds cells hk hrounds
    obtain ⟨r, rfl⟩ := Nat.exists_eq_add_of_lt hrounds
    have hend : ¬ (k * bigStride : ℤ) < bigStride * spots :=
      mt (mul_lt_size h.bigStride_pos).mp (by omega)
    refine ⟨cells, ?_, fun j hlo hhi => by omega, fun p _ => rfl⟩
    rw [Nat.zero_add, twoStridesLoop, if_neg hend]
  | succ m ih =>
    intro k rounds cells hk hrounds
    obtain ⟨r, rfl⟩ : ∃ r, rounds = r + 1 := ⟨rounds - 1, by omega⟩
    have hlt : k < spots := by omega
    set cells₁ := Function.update cells (k * bigStride + smallStride : ℤ) (nextPair bigStride spots k)
    set cells₂ := Function.update cells₁ (k * bigStride : ℤ) (k * bigStride + smallStride)
    obtain ⟨cells', hrun, hpairs, hothers⟩ := ih (k + 1) r cells₂ (by omega) (by omega)
    refine ⟨cells', ?_, fun j hlo hhi => ?_, fun p hp => ?_⟩
    · rw [twoStridesLoop, if_pos ((mul_lt_size h.bigStride_pos).mpr hlt),
        stored_nextPair h.bigStride_pos hlt, store_eq (h.inside k hlt), Option.bind_some,
        store_eq (h.inArray hlt), Option.bind_some, succ_mul_stride]
      exact hrun
    · rcases Nat.eq_or_lt_of_le hlo with rfl | hlater
      · have hne := h.ne k hlt k hlt
        constructor
        · rw [hothers _ fun j hlo hhi => ⟨mul_stride_ne h.bigStride_pos hlo, (h.ne j hhi k hlt).symm⟩]
          exact Function.update_self ..
        · rw [hothers _ fun j hlo hhi => ⟨h.ne k hlt j hhi,
            fun heq => mul_stride_ne h.bigStride_pos hlo (add_right_cancel heq)⟩]
          exact (Function.update_of_ne hne ..).trans (Function.update_self ..)
      · exact hpairs j hlater hhi
    · rw [hothers p fun j hlo hhi => hp j (by omega) hhi]
      obtain ⟨hfirst, hsecond⟩ := hp k (Nat.le_refl k) hlt
      exact (Function.update_of_ne hfirst ..).trans (Function.update_of_ne hsecond ..)

/-- The places of the chain, pair by pair. -/
def pairAt (smallStride bigStride k : ℕ) : ℤ := (k / 2 : ℕ) * bigStride + (k % 2 : ℕ) * smallStride

theorem pairAt_zero : pairAt smallStride bigStride 0 = 0 := by
  rw [pairAt, Nat.zero_div, Nat.zero_mod, Nat.cast_zero, zero_mul, zero_mul, add_zero]

theorem pairAt_two_mul (k : ℕ) : pairAt smallStride bigStride (2 * k) = k * bigStride := by
  rw [pairAt, Nat.mul_div_cancel_left k (by decide), Nat.mul_mod_right, Nat.cast_zero, zero_mul, add_zero]

theorem pairAt_two_mul_add_one (k : ℕ) :
    pairAt smallStride bigStride (2 * k + 1) = k * bigStride + smallStride := by
  have hdiv : (2 * k + 1) / 2 = k := by omega
  have hmod : (2 * k + 1) % 2 = 1 := by omega
  rw [pairAt, hdiv, hmod, Nat.cast_one, one_mul]

/-- Linked pairs are gone round. -/
theorem twoStrides_round (h : Apart smallStride bigStride spots) (hspots : 1 ≤ spots)
    (hcells : ∀ k < spots, cells (k * bigStride) = k * bigStride + smallStride ∧
      cells (k * bigStride + smallStride) = nextPair bigStride spots k) :
    Round cells (pairAt smallStride bigStride) (2 * spots) where
  pos := by omega
  next k hk := by
    obtain ⟨j, rfl | rfl⟩ := Nat.even_or_odd' k
    · rw [pairAt_two_mul, pairAt_two_mul_add_one, (hcells j (by omega)).1]
    · have hpair : 2 * j + 1 + 1 = 2 * (j + 1) := by omega
      rw [pairAt_two_mul_add_one, hpair, pairAt_two_mul, (hcells j (by omega)).2, nextPair,
        if_pos (by omega)]
  last := by
    obtain ⟨m, rfl⟩ := Nat.exists_eq_add_of_le' hspots
    have hpred : 2 * (m + 1) - 1 = 2 * m + 1 := by omega
    rw [hpred, pairAt_two_mul_add_one, (hcells m (by omega)).2, nextPair, if_neg (by omega), pairAt_zero]
  inj j k hj hk hjk := by
    have hstride : ∀ {i i' : ℕ}, (i * bigStride : ℤ) = i' * bigStride → i = i' := by
      intro i i' heq
      rcases Nat.lt_trichotomy i i' with hlt | heq' | hgt
      · exact absurd heq (mul_stride_ne h.bigStride_pos hlt)
      · exact heq'
      · exact absurd heq.symm (mul_stride_ne h.bigStride_pos hgt)
    obtain ⟨i, rfl | rfl⟩ := Nat.even_or_odd' j <;> obtain ⟨i', rfl | rfl⟩ := Nat.even_or_odd' k <;>
      simp only [pairAt_two_mul, pairAt_two_mul_add_one] at hjk
    · rw [hstride hjk]
    · exact absurd hjk.symm (h.ne i' (by omega) i (by omega))
    · exact absurd hjk (h.ne i (by omega) i' (by omega))
    · rw [hstride (add_right_cancel hjk)]

theorem pairAt_image (smallStride bigStride spots : ℕ) :
    {p | ∃ k < 2 * spots, pairAt smallStride bigStride k = p} =
      {p | ∃ k < spots, p = k * (bigStride : ℤ) ∨ p = k * (bigStride : ℤ) + smallStride} := by
  ext p
  constructor
  · rintro ⟨k, hk, rfl⟩
    obtain ⟨j, rfl | rfl⟩ := Nat.even_or_odd' k
    · exact ⟨j, by omega, .inl (pairAt_two_mul j)⟩
    · exact ⟨j, by omega, .inr (pairAt_two_mul_add_one j)⟩
  · rintro ⟨k, hk, rfl | rfl⟩
    · exact ⟨2 * k, by omega, pairAt_two_mul k⟩
    · exact ⟨2 * k + 1, by omega, pairAt_two_mul_add_one k⟩

/-- The chain of two strides, where no store overwrites another one. -/
theorem twoStridesChain (h : Apart smallStride bigStride spots) (hspots : 1 ≤ spots) (cells : Cells) :
    TwoStridesChain smallStride bigStride spots cells := by
  have hrounds : spots < maxRounds := by
    have hle : (spots : ℤ) ≤ bigStride * spots :=
      le_mul_of_one_le_left (by omega) (by exact_mod_cast h.bigStride_pos)
    have hsize := h.size_le
    rw [ARRAY_SIZE] at hsize
    rw [maxRounds]
    omega
  obtain ⟨cells', hrun, hpairs, -⟩ :=
    twoStridesLoop_eq h spots 0 maxRounds cells (Nat.zero_add spots) hrounds
  rw [Nat.cast_zero, zero_mul] at hrun
  refine ⟨cells', by rw [fillWithTwoStrides, min_eq_right h.size_le]; exact hrun, ?_⟩
  refine .of_round (twoStrides_round h hspots fun k hk => hpairs k (Nat.zero_le k) hk) pairAt_zero
    (pairAt_image smallStride bigStride spots) ?_
  rintro p ⟨k, hk, rfl | rfl⟩
  · exact h.inArray hk
  · exact h.inside k hk

/-- A small stride below the big one leads to cells between its multiples. -/
theorem apart_of_lt (hsmall : 0 < smallStride) (hlt : smallStride < bigStride)
    (hsize : (bigStride * spots : ℤ) ≤ ARRAY_SIZE) : Apart smallStride bigStride spots where
  bigStride_pos := by omega
  ne j hj k hk := by
    have hsucc := succ_mul_stride bigStride j
    rcases Nat.lt_or_ge j k with hjk | hkj
    · have hle : ((j + 1 : ℕ) * bigStride : ℤ) ≤ k * bigStride :=
        mul_le_mul_of_nonneg_right (by exact_mod_cast hjk) (by omega)
      omega
    · have hle : (k * bigStride : ℤ) ≤ j * bigStride :=
        mul_le_mul_of_nonneg_right (by exact_mod_cast hkj) (by omega)
      omega
  size_le := hsize
  inside k hk := by
    have hsucc := succ_mul_stride bigStride k
    have hle : ((k + 1 : ℕ) * bigStride : ℤ) ≤ spots * bigStride :=
      mul_le_mul_of_nonneg_right (by exact_mod_cast hk) (by omega)
    have hpos : 0 ≤ (k * bigStride : ℤ) := by positivity
    rw [mul_comm (bigStride : ℤ)] at hsize
    exact ⟨by omega, by omega⟩

/-- One that is not below any of the multiples leads behind all of them. -/
theorem apart_of_le (hbig : 0 < bigStride) (hle : bigStride * spots ≤ smallStride)
    (hsmall : smallStride ≤ 32) (hsize : (bigStride * spots : ℤ) ≤ ARRAY_SIZE) :
    Apart smallStride bigStride spots where
  bigStride_pos := hbig
  ne j hj k hk := by
    have hlt := (mul_lt_size hbig).mpr hk
    have hpos : 0 ≤ (j * bigStride : ℤ) := by positivity
    have hle' : (bigStride * spots : ℤ) ≤ smallStride := by exact_mod_cast hle
    omega
  size_le := hsize
  inside k hk := by
    have hlt := (mul_lt_size hbig).mpr hk
    have hpos : 0 ≤ (k * bigStride : ℤ) := by positivity
    have hle' : (bigStride * spots : ℤ) ≤ smallStride := by exact_mod_cast hle
    exact ⟨by omega, by rw [ARRAY_SIZE]; omega⟩

/-- Where the small stride is one of the multiples of the big one, the places are too few. -/
theorem not_twoStridesChain {m : ℕ} (hm : smallStride = m * bigStride) (hlt : m < spots)
    (cells : Cells) :
    ¬ TwoStridesChain smallStride bigStride spots cells := by
  rintro ⟨cells', -, hchain⟩
  have hcard := minimalPeriod_le_card (f := cells') (x := 0)
    (s := (Finset.range (spots + m)).image fun j : ℕ => (j * bigStride : ℤ)) fun k hk => by
      have hvisit : cells'^[k] 0 ∈ {p | ∃ k < 2 * spots, cells'^[k] 0 = p} :=
        ⟨k, hchain.period ▸ hk, rfl⟩
      rw [hchain.visits] at hvisit
      obtain ⟨j, hj, hplace | hplace⟩ := hvisit
      · exact Finset.mem_image.mpr ⟨j, Finset.mem_range.mpr (by omega), hplace.symm⟩
      · refine Finset.mem_image.mpr ⟨j + m, Finset.mem_range.mpr (by omega), ?_⟩
        rw [hplace, hm]
        push_cast
        ring
  have hle := hcard.trans Finset.card_image_le
  rw [hchain.period, Finset.card_range] at hle
  omega

/-- For powers of two: the chain is as intended if the small stride is below the big one or not below
    any of its multiples. -/
theorem twoStridesChain_iff {i c : ℕ} (hi : i ≤ 5) (hspots : 1 ≤ spots)
    (hsize : (2 ^ c * spots : ℤ) ≤ ARRAY_SIZE) (cells : Cells) :
    TwoStridesChain (2 ^ i) (2 ^ c) spots cells ↔ 2 ^ i < 2 ^ c ∨ 2 ^ c * spots ≤ 2 ^ i := by
  have hsize' : ((2 ^ c : ℕ) * spots : ℤ) ≤ ARRAY_SIZE := by exact_mod_cast hsize
  have hsmall : 2 ^ i ≤ 32 := Nat.pow_le_pow_right (by decide) hi
  constructor
  · intro hchain
    by_contra hcond
    obtain ⟨hge, hlt⟩ := not_or.mp hcond
    have hci : c ≤ i := (Nat.pow_le_pow_iff_right (by decide)).mp (Nat.le_of_not_lt hge)
    have hm : 2 ^ i = 2 ^ (i - c) * 2 ^ c := by rw [← Nat.pow_add, Nat.sub_add_cancel hci]
    refine not_twoStridesChain hm (Nat.lt_of_not_le fun hle => hlt ?_) cells hchain
    rw [hm, Nat.mul_comm]
    exact Nat.mul_le_mul_right _ hle
  · rintro (hlt | hle)
    · exact twoStridesChain (apart_of_lt (Nat.two_pow_pos i) hlt hsize') hspots cells
    · exact twoStridesChain (apart_of_le (Nat.two_pow_pos c) hle hsmall hsize') hspots cells

end TwoStrides

/-! ### The strides that main passes -/

/-- candidate_capacity and candidate_associativity. -/
def candidate (r c : ℕ) : ℕ × ℕ := ((1 <<< c) * (r - 1) * 8, r - 1)

/-- capacity and associativity before the candidates: the largest size_t. -/
def noCandidate : ℕ × ℕ := (18446744073709551615, 18446744073709551615)

/-- The order of pairs. -/
def Below (a b : ℕ × ℕ) : Prop := a.1 < b.1 ∨ a.1 = b.1 ∧ a.2 < b.2

instance (a b : ℕ × ℕ) : Decidable (Below a b) := inferInstanceAs (Decidable (_ ∨ _))

/-- capacity and associativity after these candidates. -/
def choose : List (ℕ × ℕ) → ℕ × ℕ → ℕ × ℕ
  | [], best => best
  | rc :: candidates, best =>
    choose candidates (if Below (candidate rc.1 rc.2) best then candidate rc.1 rc.2 else best)

/-- big_stride. -/
def bigStrideOf (best : ℕ × ℕ) : ℕ := best.1 / best.2 / 8

theorem choose_cases (candidates : List (ℕ × ℕ)) : ∀ best, choose candidates best = best ∨
    ∃ rc ∈ candidates, choose candidates best = candidate rc.1 rc.2 := by
  induction candidates with
  | nil => exact fun best => .inl rfl
  | cons rc candidates ih =>
    intro best
    rw [choose]
    rcases ih (if Below (candidate rc.1 rc.2) best then candidate rc.1 rc.2 else best) with hsame | hrest
    · rw [hsame]
      split
      · exact .inr ⟨rc, List.mem_cons_self, rfl⟩
      · exact .inl rfl
    · obtain ⟨rc', hmem, heq⟩ := hrest
      exact .inr ⟨rc', List.mem_cons_of_mem _ hmem, heq⟩

/-- The rows and columns of the table that main goes over. -/
def InTable (rc : ℕ × ℕ) : Prop := 2 ≤ rc.1 ∧ rc.1 < 20 ∧ 1 ≤ rc.2 ∧ rc.2 < 20

theorem candidate_below {rc : ℕ × ℕ} (h : InTable rc) : Below (candidate rc.1 rc.2) noCandidate := by
  obtain ⟨-, hr, -, hc⟩ := h
  have hpow : 2 ^ rc.2 ≤ 2 ^ 19 := Nat.pow_le_pow_right (by decide) (by omega)
  have hmul : 2 ^ rc.2 * (rc.1 - 1) ≤ 2 ^ 19 * 18 := Nat.mul_le_mul hpow (by omega)
  refine .inl ?_
  rw [candidate, noCandidate, Nat.one_shiftLeft]
  omega

/-- Of at least one candidate one is chosen. -/
theorem choose_mem {candidates : List (ℕ × ℕ)} (hne : candidates ≠ [])
    (htable : ∀ rc ∈ candidates, InTable rc) :
    ∃ rc ∈ candidates, choose candidates noCandidate = candidate rc.1 rc.2 := by
  obtain ⟨rc, rest, rfl⟩ := List.exists_cons_of_ne_nil hne
  rw [choose, if_pos (candidate_below (htable rc List.mem_cons_self))]
  rcases choose_cases rest (candidate rc.1 rc.2) with hsame | ⟨rc', hmem, heq⟩
  · exact ⟨rc, List.mem_cons_self, hsame⟩
  · exact ⟨rc', List.mem_cons_of_mem _ hmem, heq⟩

/-- The big stride of a candidate is a power of two. -/
theorem bigStrideOf_candidate {r c : ℕ} (hr : 2 ≤ r) : bigStrideOf (candidate r c) = 2 ^ c := by
  rw [bigStrideOf, candidate, Nat.one_shiftLeft, Nat.mul_right_comm,
    Nat.mul_div_cancel _ (by omega), Nat.mul_div_cancel _ (by decide)]

/-- The chains of the calls that main makes once it has candidates. -/
theorem main_chain_iff {candidates : List (ℕ × ℕ)} (hne : candidates ≠ [])
    (htable : ∀ rc ∈ candidates, InTable rc ∧ (2 ^ rc.2 * rc.1 : ℤ) ≤ ARRAY_SIZE) {i : ℕ} (hi : i ≤ 5)
    (cells : Cells) {best : ℕ × ℕ} (hbest : best = choose candidates noCandidate) :
    TwoStridesChain (2 ^ i) (bigStrideOf best) (best.2 + 1) cells ↔
      2 ^ i < bigStrideOf best ∨ bigStrideOf best * (best.2 + 1) ≤ 2 ^ i := by
  obtain ⟨⟨r, c⟩, hmem, heq⟩ := choose_mem hne fun rc hrc => (htable rc hrc).1
  obtain ⟨⟨hr, -⟩, hsize⟩ := htable _ hmem
  have hspots : (candidate r c).2 + 1 = r := Nat.sub_add_cancel (Nat.le_of_succ_le hr)
  rw [hbest, heq, bigStrideOf_candidate hr, hspots]
  exact twoStridesChain_iff hi (by omega) hsize cells

/-! ### Laps -/

theorem steps_eq : ∀ {n : ℕ} {p : ℤ}, (∀ k < n, InArray (cells^[k] p)) →
    steps cells n p = some (cells^[n] p) := by
  intro n
  induction n with
  | zero => exact fun _ => rfl
  | succ n ih =>
    intro p hin
    have hfirst : InArray p := hin 0 (Nat.succ_pos n)
    rw [steps, if_pos hfirst, ih fun k hk => hin (k + 1) (Nat.succ_lt_succ hk)]
    rfl

/-- A lap of a chain stays in the array, however long it is. -/
theorem Chain.lap_eq {n : ℕ} {places : Set ℤ} (h : Chain cells n places) (hn : 0 < n) :
    lap cells = some (cells^[256 + 1024] 0) := by
  refine steps_eq fun k _ => ?_
  obtain ⟨j, hj, heq⟩ := iterate_eq_of_minimalPeriod hn h.period k
  exact h.inside _ (h.visits ▸ ⟨j, hj, heq.symm⟩)

theorem StrideChain.runs {stride spots : ℕ} (h : StrideChain stride spots cells) (hspots : 1 ≤ spots) :
    ∃ save, runWithStride stride spots cells = some save := by
  obtain ⟨cells', hrun, hchain⟩ := h
  exact ⟨_, by rw [runWithStride, hrun, Option.bind_some, hchain.lap_eq hspots]⟩

theorem TwoStridesChain.runs {smallStride bigStride spots : ℕ}
    (h : TwoStridesChain smallStride bigStride spots cells) (hspots : 1 ≤ spots) :
    ∃ save, runWithTwoStrides smallStride bigStride spots cells = some save := by
  obtain ⟨cells', hrun, hchain⟩ := h
  exact ⟨_, by rw [runWithTwoStrides, hrun, Option.bind_some, hchain.lap_eq (by omega)]⟩

/-- One stride: the chain is always as intended. Two strides: it is if the small one is below the big
    one, or behind all of its multiples. -/
theorem chains_close_iff {stride i c spots : ℕ} (hspots : 1 ≤ spots) (cells : Cells) :
    (1 ≤ stride → (stride * spots : ℤ) ≤ ARRAY_SIZE → StrideChain stride spots cells) ∧
    (i ≤ 5 → (2 ^ c * spots : ℤ) ≤ ARRAY_SIZE →
      (TwoStridesChain (2 ^ i) (2 ^ c) spots cells ↔ 2 ^ i < 2 ^ c ∨ 2 ^ c * spots ≤ 2 ^ i)) :=
  ⟨fun hstride hsize => strideChain hstride hspots hsize cells,
    fun hi hsize => twoStridesChain_iff hi hspots hsize cells⟩

/-- Three spots with a stride of 5, and with cache lines of 8 in a stride of 512. -/
theorem chains_close_iff_small :
    StrideChain 5 3 (fun _ => 0) ∧
      (TwoStridesChain (2 ^ 3) (2 ^ 9) 3 (fun _ => 0) ↔ 2 ^ 3 < 2 ^ 9 ∨ 2 ^ 9 * 3 ≤ 2 ^ 3) := by
  obtain ⟨hone, htwo⟩ :=
    @chains_close_iff 5 3 9 3 (show 1 ≤ 3 by decide) fun _ => 0
  exact ⟨hone (by decide) (by decide), htwo (by decide) (by decide)⟩

/-- With the candidate r = 2 and c = 1 main passes the strides 2 and 2 and two spots. -/
theorem chains_overwritten :
    bigStrideOf (choose [(2, 1)] noCandidate) = 2 ∧ (choose [(2, 1)] noCandidate).2 + 1 = 2 ∧
      ¬ TwoStridesChain 2 2 2 (fun _ => 0) :=
  ⟨by decide, by decide, not_twoStridesChain (Nat.one_mul 2).symm (by decide) _⟩

end CacheMetrics

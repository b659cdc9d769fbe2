import Mathlib.Data.Finset.Card
import Mathlib.Dynamics.PeriodicPts.Defs

/-! A map that goes round a sequence of places, from each one to the next and from the last one to the
    first.

    Its minimal period is the number of the places, and its iterates are the places in their order. No
    set with fewer elements than the period holds all iterates. -/

namespace Cycles
open Function

universe u

variable {α : Type u} {f : α → α} {c : ℕ → α} {x : α} {n : ℕ}

/-- The places c 0, ..., c (n - 1) are different, and f goes round them. -/
structure Round (f : α → α) (c : ℕ → α) (n : ℕ) : Prop where
  pos : 0 < n
  next : ∀ k, k + 1 < n → f (c k) = c (k + 1)
  last : f (c (n - 1)) = c 0
  inj : ∀ j k, j < n → k < n → c j = c k → j = k

theorem Round.iterate (h : Round f c n) {k : ℕ} (hk : k < n) : f^[k] (c 0) = c k := by
  induction k with
  | zero => rfl
  | succ k ih => rw [iterate_succ_apply', ih (Nat.lt_of_succ_lt hk), h.next k hk]

theorem Round.isPeriodicPt (h : Round f c n) : IsPeriodicPt f n (c 0) := by
  have hpos := h.pos
  have hround : f^[n - 1 + 1] (c 0) = c 0 := by
    rw [iterate_succ_apply', h.iterate (Nat.sub_one_lt_of_lt hpos), h.last]
  rwa [Nat.sub_one_add_one (Nat.ne_of_gt hpos)] at hround

/-- It comes back to its start after n steps and not before. -/
theorem Round.minimalPeriod (h : Round f c n) : minimalPeriod f (c 0) = n := by
  have hle := h.isPeriodicPt.minimalPeriod_le h.pos
  have hpos := h.isPeriodicPt.minimalPeriod_pos h.pos
  by_contra hne
  have hlt : Function.minimalPeriod f (c 0) < n := Nat.lt_of_le_of_ne hle hne
  have hback : c (Function.minimalPeriod f (c 0)) = c 0 :=
    (h.iterate hlt).symm.trans iterate_minimalPeriod
  have hzero := h.inj _ 0 hlt h.pos hback
  omega

/-- The iterates are different up to the period, so there is room for them in no smaller set. -/
theorem minimalPeriod_le_card {s : Finset α} (hs : ∀ k < minimalPeriod f x, f^[k] x ∈ s) :
    minimalPeriod f x ≤ s.card := by
  have hcard : (Finset.range (minimalPeriod f x)).card ≤ s.card := by
    refine Finset.card_le_card_of_injOn (f^[·] x) (fun k hk => hs k (Finset.mem_range.mp hk)) ?_
    intro j hj k hk hjk
    exact iterate_injOn_Iio_minimalPeriod (Finset.mem_range.mp hj) (Finset.mem_range.mp hk) hjk
  rwa [Finset.card_range] at hcard

/-- Every iterate is one of the first n. -/
theorem iterate_eq_of_minimalPeriod (hn : 0 < n) (h : minimalPeriod f x = n) (k : ℕ) :
    ∃ j < n, f^[k] x = f^[j] x :=
  ⟨k % n, Nat.mod_lt k hn, h ▸ (iterate_mod_minimalPeriod_eq).symm⟩

end Cycles

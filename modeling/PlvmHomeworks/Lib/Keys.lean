import Mathlib.Algebra.Order.Ring.Int
import Mathlib.Data.List.Lex

/-! Orders by keys: a comparison that looks at one component after another is the lexicographic order
    of the sequences of what it looks at.

    `Precedes k l` says that the keys differ at some place, and that `k` has the smaller entry at the
    first one. It is the lexicographic order where neither key is a prefix of the other, and what comes
    behind the keys does not matter. -/

namespace Keys

variable {α : Type*} [LinearOrder α] {a b : α} {k l m : List α}

/-- `k` is smaller than `l`, whatever comes behind them. -/
def Precedes (k l : List α) : Prop := ∀ s t, k ++ s < l ++ t

theorem Precedes.lt (h : Precedes k l) : k < l := by simpa using h [] []

theorem Precedes.trans (h : Precedes k l) (h' : Precedes l m) : Precedes k m :=
  fun s t => lt_trans (h s []) (h' [] t)

/-- The first entries decide. -/
theorem precedes_of_lt (h : a < b) : Precedes (a :: k) (b :: l) := fun s t => by
  rw [List.cons_append, List.cons_append]
  exact List.Lex.rel h

/-- Equal entries in front do not. -/
theorem Precedes.cons (h : Precedes k l) (a : α) : Precedes (a :: k) (a :: l) := fun s t => by
  rw [List.cons_append, List.cons_append]
  exact List.Lex.cons (h s t)

theorem Precedes.append_left (h : Precedes k l) : ∀ m : List α, Precedes (m ++ k) (m ++ l)
  | [] => h
  | a :: m => (h.append_left m).cons a

/-- What comes behind the place where the keys differ does not matter. -/
theorem Precedes.append (h : Precedes k l) (s t : List α) : Precedes (k ++ s) (l ++ t) := fun u v => by
  rw [List.append_assoc, List.append_assoc]
  exact h _ _

/-- The three ways two keys compare, for the sign `z` of a comparison. -/
inductive Decides (k l : List α) : ℤ → Prop
  | less {z : ℤ} : z < 0 → Precedes k l → Decides k l z
  | equal {z : ℤ} : z = 0 → k = l → Decides k l z
  | greater {z : ℤ} : 0 < z → Precedes l k → Decides k l z

variable {z : ℤ}

theorem Decides.neg_iff (h : Decides k l z) : z < 0 ↔ k < l := by
  cases h with
  | less hz hp => exact iff_of_true hz hp.lt
  | equal hz he => subst hz he; simp
  | greater hz hp => exact iff_of_false (by omega) (lt_asymm hp.lt)

theorem Decides.zero_iff (h : Decides k l z) : z = 0 ↔ k = l := by
  cases h with
  | less hz hp => exact iff_of_false (by omega) hp.lt.ne
  | equal hz he => exact iff_of_true hz he
  | greater hz hp => exact iff_of_false (by omega) hp.lt.ne'

theorem Decides.pos_iff (h : Decides k l z) : 0 < z ↔ l < k := by
  cases h with
  | less hz hp => exact iff_of_false (by omega) (lt_asymm hp.lt)
  | equal hz he => subst hz he; simp
  | greater hz hp => exact iff_of_true hz hp.lt

theorem Decides.cons (h : Decides k l z) (a : α) : Decides (a :: k) (a :: l) z := by
  cases h with
  | less hz hp => exact .less hz (hp.cons a)
  | equal hz he => exact .equal hz (congrArg _ he)
  | greater hz hp => exact .greater hz (hp.cons a)

theorem Decides.append_left (h : Decides k l z) (m : List α) : Decides (m ++ k) (m ++ l) z := by
  cases h with
  | less hz hp => exact .less hz (hp.append_left m)
  | equal hz he => exact .equal hz (congrArg _ he)
  | greater hz hp => exact .greater hz (hp.append_left m)

/-- A comparison of one component that does not end in a tie decides. -/
theorem Decides.append (h : Decides k l z) (hz : z ≠ 0) (s t : List α) :
    Decides (k ++ s) (l ++ t) z := by
  cases h with
  | less hz hp => exact .less hz (hp.append s t)
  | equal hz' => exact absurd hz' hz
  | greater hz hp => exact .greater hz (hp.append t s)

/-- The first entries decide, when they differ. -/
theorem decides_of_ne (hab : a ≠ b) (hlt : z < 0 ↔ a < b) (hgt : 0 < z ↔ b < a) :
    Decides (a :: k) (b :: l) z := by
  rcases lt_or_gt_of_ne hab with h | h
  · exact .less (hlt.mpr h) (precedes_of_lt h)
  · exact .greater (hgt.mpr h) (precedes_of_lt h)

/-- The first entries decide by their difference, when they are numbers that differ. -/
theorem decides_sub {a b : ℤ} {k l : List ℤ} (hab : a ≠ b) : Decides (a :: k) (b :: l) (a - b) :=
  decides_of_ne hab (by omega) (by omega)

/-- Without a difference in front, what comes behind decides. -/
theorem Decides.append_of_zero {z' : ℤ} {s t : List α} (h : Decides k l z) (hz : z = 0)
    (h' : Decides s t z') : Decides (k ++ s) (l ++ t) z' := by
  rw [h.zero_iff.mp hz]
  exact h'.append_left l

end Keys

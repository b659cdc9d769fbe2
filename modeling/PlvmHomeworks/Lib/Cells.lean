import Mathlib.Data.List.Forall2
import Mathlib.Logic.Function.Basic
import Mathlib.Order.Basic

/-! Lists laid out in a memory, one element after another, each related to the cell that holds it. -/

namespace Cells

variable {α β γ : Type*} {R : β → α → Prop} {R' : γ → α → Prop} {mem mem' : ℕ → α} {a b i n : ℕ} {x : β}
  {xs ys : List β}

/-- The elements of the list are related to the cells from `a` on. -/
def Laid (R : β → α → Prop) (mem : ℕ → α) : ℕ → List β → Prop
  | _, [] => True
  | a, x :: xs => R x (mem a) ∧ Laid R mem (a + 1) xs

@[simp] theorem laid_nil : Laid R mem a [] := trivial

@[simp] theorem laid_cons : Laid R mem a (x :: xs) ↔ R x (mem a) ∧ Laid R mem (a + 1) xs := Iff.rfl

theorem laid_append : Laid R mem a (xs ++ ys) ↔ Laid R mem a xs ∧ Laid R mem (a + xs.length) ys := by
  induction xs generalizing a with
  | nil => simp
  | cons x xs ih =>
    rw [List.cons_append, laid_cons, laid_cons, ih, and_assoc, List.length_cons,
      show a + 1 + xs.length = a + (xs.length + 1) by omega]

theorem laid_map {f : γ → β} {zs : List γ} :
    Laid R mem a (zs.map f) ↔ Laid (fun z w => R (f z) w) mem a zs := by
  induction zs generalizing a with
  | nil => exact Iff.rfl
  | cons z zs ih => exact and_congr_right fun _ => ih

/-- The same thing in every cell. -/
theorem laid_replicate {n : ℕ} (h : ∀ i < n, R x (mem (a + i))) :
    Laid R mem a (List.replicate n x) := by
  induction n generalizing a with
  | zero => trivial
  | succ n ih =>
    refine ⟨h 0 (Nat.succ_pos n), ih fun i hi => ?_⟩
    rw [Nat.add_assoc, Nat.add_comm 1 i]
    exact h (i + 1) (by omega)

theorem Laid.get (h : Laid R mem a xs) (hi : xs[i]? = some x) : R x (mem (a + i)) := by
  induction xs generalizing a i with
  | nil => cases hi
  | cons y ys ih =>
    cases i with
    | zero =>
      cases hi
      exact h.1
    | succ i =>
      rw [List.getElem?_cons_succ] at hi
      rw [← Nat.add_assoc, Nat.add_right_comm]
      exact ih h.2 hi

theorem Laid.drop (h : Laid R mem a xs) (hn : n ≤ xs.length) : Laid R mem (a + n) (xs.drop n) := by
  rw [← List.take_append_drop n xs, laid_append, List.length_take_of_le hn] at h
  exact h.2

theorem Laid.take (h : Laid R mem a xs) (n : ℕ) : Laid R mem a (xs.take n) := by
  rw [← List.take_append_drop n xs, laid_append] at h
  exact h.1

/-- Other cells, or another relation. -/
theorem Laid.imp {R' : β → α → Prop} (h : Laid R mem a xs)
    (himp : ∀ i x, xs[i]? = some x → R x (mem (a + i)) → R' x (mem' (a + i))) : Laid R' mem' a xs := by
  induction xs generalizing a with
  | nil => trivial
  | cons x xs ih =>
    refine ⟨himp 0 x rfl h.1, ih h.2 fun i y hi hy => ?_⟩
    rw [Nat.add_right_comm, Nat.add_assoc] at hy ⊢
    exact himp (i + 1) y (by rwa [List.getElem?_cons_succ]) hy

theorem Laid.congr (h : Laid R mem a xs) (heq : ∀ b, a ≤ b → b < a + xs.length → mem' b = mem b) :
    Laid R mem' a xs := by
  refine h.imp fun i x hi hx => ?_
  have hlt := (List.getElem?_eq_some_iff.mp hi).1
  rwa [heq _ (by omega) (by omega)]

/-- One cell and its element change. -/
theorem Laid.set (h : Laid R mem a xs) (hi : i < xs.length) (hx : R x (mem' (a + i)))
    (heq : ∀ b, a ≤ b → b < a + xs.length → b ≠ a + i → mem' b = mem b) :
    Laid R mem' a (xs.set i x) := by
  induction xs generalizing a i with
  | nil => trivial
  | cons y ys ih =>
    rw [List.length_cons] at hi heq
    cases i with
    | zero =>
      refine ⟨hx, h.2.congr fun b hlo hhi => heq b (by omega) (by omega) (by omega)⟩
    | succ i =>
      refine ⟨?_, ih h.2 (by omega) ?_ fun b hlo hhi hne => heq b (by omega) (by omega) (by omega)⟩
      · rw [heq a (by omega) (by omega) (by omega)]
        exact h.1
      · rwa [Nat.add_right_comm, Nat.add_assoc]

/-- The cells, read downwards, are related to the list reversed. -/
theorem Laid.forall₂_reverse (h : Laid R mem a xs) :
    List.Forall₂ R xs.reverse ((List.range xs.length).map fun i => mem (a + xs.length - 1 - i)) := by
  rw [List.forall₂_iff_get]
  refine ⟨by simp, fun i hi hi' => ?_⟩
  simp only [List.length_reverse] at hi
  simp only [List.get_eq_getElem, List.getElem_reverse, List.getElem_map, List.getElem_range]
  have hget := h.get (List.getElem?_eq_getElem (show xs.length - 1 - i < xs.length by omega))
  rwa [show a + (xs.length - 1 - i) = a + xs.length - 1 - i by omega] at hget

end Cells

import Mathlib.Data.List.Forall2

/-! Graphs seen through a view, and the trees they unfold to.

    A view gives the label of a vertex and its successors in order. Two vertices, of one graph or of
    two, mean the same when they unfold to the same tree at every depth; a relation that preserves
    labels and successors is enough for that, and cycles are no obstacle. -/

namespace Unfolding

universe u v w

/-- A tree, cut off where the unfolding stopped. -/
inductive Tree (L : Type u) where
  | cut
  | node (label : L) (children : List (Tree L))

/-- What there is to see at a vertex. -/
abbrev View (V : Type v) (L : Type u) := V → L × List V

variable {V : Type v} {W : Type w} {L : Type u}

/-- The tree of this depth below a vertex. -/
def unfold (view : View V L) : ℕ → V → Tree L
  | 0, _ => .cut
  | n + 1, x => .node (view x).1 ((view x).2.map (unfold view n))

/-- Two vertices that mean the same. -/
def Same (view : View V L) (view' : View W L) (x : V) (y : W) : Prop :=
  ∀ n, unfold view n x = unfold view' n y

/-- Related vertices have the same label and related successors. -/
def Simulation (view : View V L) (view' : View W L) (R : V → W → Prop) : Prop :=
  ∀ x y, R x y → (view x).1 = (view' y).1 ∧ List.Forall₂ R (view x).2 (view' y).2

/-- The paths from a vertex have fewer than `n` edges. -/
def EndsWithin (view : View V L) : ℕ → V → Prop
  | 0, _ => False
  | n + 1, x => ∀ y ∈ (view x).2, EndsWithin view n y

variable {view : View V L} {view' : View W L} {n m : ℕ} {x : V} {y : W}

theorem map_eq_map_iff {f : V → Tree L} {g : W → Tree L} : ∀ {xs : List V} {ys : List W},
    xs.map f = ys.map g ↔ List.Forall₂ (fun x y => f x = g y) xs ys
  | [], ys => by cases ys <;> simp
  | x :: xs, [] => by simp
  | x :: xs, y :: ys => by
    have ih : xs.map f = ys.map g ↔ _ := map_eq_map_iff
    simp [ih]

theorem unfold_succ_eq_iff : unfold view (n + 1) x = unfold view' (n + 1) y ↔
    (view x).1 = (view' y).1 ∧
      List.Forall₂ (fun a b => unfold view n a = unfold view' n b) (view x).2 (view' y).2 := by
  rw [unfold, unfold, Tree.node.injEq, map_eq_map_iff]

/-- Simulated vertices mean the same. -/
theorem Simulation.same {R : V → W → Prop} (hR : Simulation view view' R) (h : R x y) :
    Same view view' x y := by
  intro n
  induction n generalizing x y with
  | zero => rfl
  | succ n ih =>
    obtain ⟨hlabel, hchildren⟩ := hR x y h
    exact unfold_succ_eq_iff.mpr ⟨hlabel, hchildren.imp fun a b hab => ih hab⟩

theorem Same.refl (view : View V L) (x : V) : Same view view x x := fun _ => rfl

theorem Same.symm (h : Same view view' x y) : Same view' view y x := fun n => (h n).symm

theorem Same.trans {X : Type*} {view'' : View X L} {z : X} (h : Same view view' x y)
    (h' : Same view' view'' y z) : Same view view'' x z := fun n => (h n).trans (h' n)

/-- Vertices with the same label and successors that mean the same mean the same. -/
theorem same_of_children (hlabel : (view x).1 = (view' y).1)
    (hchildren : List.Forall₂ (Same view view') (view x).2 (view' y).2) : Same view view' x y := by
  intro n
  cases n with
  | zero => rfl
  | succ n => exact unfold_succ_eq_iff.mpr ⟨hlabel, hchildren.imp fun a b hab => hab n⟩

/-- Meaning the same is a simulation. -/
theorem Same.children (h : Same view view' x y) :
    (view x).1 = (view' y).1 ∧ List.Forall₂ (Same view view') (view x).2 (view' y).2 := by
  refine ⟨(unfold_succ_eq_iff.mp (h 1)).1, ?_⟩
  rw [List.forall₂_iff_get]
  have hlength := (unfold_succ_eq_iff.mp (h 1)).2.length_eq
  refine ⟨hlength, fun i hi hi' n => ?_⟩
  exact (List.forall₂_iff_get.mp (unfold_succ_eq_iff.mp (h (n + 1))).2).2 i hi hi'

theorem EndsWithin.mono (h : EndsWithin view n x) (hle : n ≤ m) : EndsWithin view m x := by
  induction n generalizing m x with
  | zero => exact h.elim
  | succ n ih =>
    obtain ⟨m, rfl⟩ := Nat.exists_eq_add_of_le' (Nat.one_le_of_lt hle)
    exact fun y hy => ih (h y hy) (Nat.le_of_succ_le_succ hle)

/-- A finite tree that has been unfolded to its leaves is all there is. -/
theorem EndsWithin.same (h : EndsWithin view n x) (heq : unfold view n x = unfold view' n y) :
    Same view view' x y := by
  induction n generalizing x y with
  | zero => exact h.elim
  | succ n ih =>
    obtain ⟨hlabel, hchildren⟩ := unfold_succ_eq_iff.mp heq
    refine same_of_children hlabel ?_
    rw [List.forall₂_iff_get] at hchildren ⊢
    refine ⟨hchildren.1, fun i hi hi' => ih (h _ (List.get_mem _ _)) (hchildren.2 i hi hi')⟩

/-- What means the same as a finite tree is finite. -/
theorem EndsWithin.congr (h : EndsWithin view n x) (hsame : Same view view' x y) : EndsWithin view' n y := by
  induction n generalizing x y with
  | zero => exact h
  | succ n ih =>
    obtain ⟨-, hchildren⟩ := hsame.children
    intro b hb
    obtain ⟨i, rfl⟩ := List.get_of_mem hb
    obtain ⟨hlength, hget⟩ := List.forall₂_iff_get.mp hchildren
    exact ih (h _ (List.get_mem _ ⟨i, by rw [hlength]; exact i.isLt⟩)) (hget i _ i.isLt)

end Unfolding

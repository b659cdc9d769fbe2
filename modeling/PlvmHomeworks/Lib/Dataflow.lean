import Mathlib.Logic.Relation

/-! Values along the paths of a graph whose edges transform them.

    All paths to a node bring the same value exactly when the equations of the edges have a
    solution: a labelling of the nodes that every edge out of a reachable node respects. -/

namespace Dataflow
open Relation

universe u v

variable {ν : Type u} {α : Type v} {edge : ν → (α → α) → ν → Prop} {root : ν} {init : α}

/-- Some path from `root` to the node brings this value, starting from `init`. -/
inductive Brings (edge : ν → (α → α) → ν → Prop) (root : ν) (init : α) : ν → α → Prop
  | start : Brings edge root init root init
  | step {n m : ν} {a : α} {f : α → α} : Brings edge root init n a → edge n f m →
      Brings edge root init m (f a)

/-- The node is reached from `root`. -/
def Reaches (edge : ν → (α → α) → ν → Prop) (root n : ν) : Prop :=
  ReflTransGen (fun n m => ∃ f, edge n f m) root n

/-- `label` solves the equations of the edges. -/
structure Solves (edge : ν → (α → α) → ν → Prop) (root : ν) (init : α) (label : ν → α) : Prop where
  start : label root = init
  edges : ∀ {n m : ν} {f : α → α}, Reaches edge root n → edge n f m → label m = f (label n)

theorem Brings.reaches {n : ν} {a : α} (h : Brings edge root init n a) : Reaches edge root n := by
  induction h with
  | start => exact .refl
  | step _ he ih => exact ih.tail ⟨_, he⟩

theorem Reaches.brings {n : ν} (h : Reaches edge root n) : ∃ a, Brings edge root init n a := by
  induction h with
  | refl => exact ⟨init, .start⟩
  | tail _ he ih =>
    obtain ⟨a, ha⟩ := ih
    obtain ⟨f, hf⟩ := he
    exact ⟨f a, ha.step hf⟩

/-- Every path brings the value of a solution. -/
theorem Solves.eq_of_brings {label : ν → α} (h : Solves edge root init label) {n : ν} {a : α}
    (ha : Brings edge root init n a) : a = label n := by
  induction ha with
  | start => exact h.start.symm
  | step hn he ih => rw [h.edges hn.reaches he, ih]

/-- It is enough that a labelling respects the edges of a set of nodes that no edge leaves. -/
theorem solves_of_closed {S : Set ν} {label : ν → α} (hroot : root ∈ S) (hinit : label root = init)
    (hS : ∀ {n m : ν} {f : α → α}, n ∈ S → edge n f m → m ∈ S ∧ label m = f (label n)) :
    Solves edge root init label := by
  have hreach : ∀ n, Reaches edge root n → n ∈ S := by
    intro n hn
    induction hn with
    | refl => exact hroot
    | tail _ he ih =>
      obtain ⟨f, hf⟩ := he
      exact (hS ih hf).1
  exact ⟨hinit, fun hn he => (hS (hreach _ hn) he).2⟩

/-- Paths agree if and only if the equations have a solution. -/
theorem agree_iff_solves :
    (∀ n a b, Brings edge root init n a → Brings edge root init n b → a = b) ↔
      ∃ label, Solves edge root init label := by
  classical
  constructor
  · intro h
    -- a node that no path reaches may have any label
    refine ⟨fun n => if hn : ∃ a, Brings edge root init n a then hn.choose else init, ?_, ?_⟩
    · have hroot : ∃ a, Brings edge root init root a := ⟨init, .start⟩
      rw [dif_pos hroot]
      exact h root _ _ hroot.choose_spec .start
    · intro n m f hn he
      have hn : ∃ a, Brings edge root init n a := hn.brings
      have hm : ∃ a, Brings edge root init m a := ⟨_, hn.choose_spec.step he⟩
      rw [dif_pos hn, dif_pos hm]
      exact h m _ _ hm.choose_spec (hn.choose_spec.step he)
  · rintro ⟨label, hlabel⟩ n a b ha hb
    rw [hlabel.eq_of_brings ha, hlabel.eq_of_brings hb]

end Dataflow

import Mathlib.Data.Nat.Notation
import Mathlib.Logic.Function.Basic

/-! Threads that are each busy with one resource at a time.

    A place in a thread's program says which resource the thread is busy with there and what state
    the resource is in. `Jobs` holds as long as no two threads are busy with one resource. -/

namespace Threads

universe u v w x

variable {θ : Type u} {π : Type v} {ρ : Type w} {κ : Type x} {doing : π → Option (ρ × κ)}
  {pc : θ → π} {life : ρ → κ}

/-- Every thread finds its resource in the state that its place says, and has it for itself. -/
structure Jobs (doing : π → Option (ρ × κ)) (pc : θ → π) (life : ρ → κ) : Prop where
  job : ∀ i q l, doing (pc i) = some (q, l) → life q = l
  alone : ∀ i j q l l', doing (pc i) = some (q, l) → doing (pc j) = some (q, l') → i = j

/-- Nobody is busy. -/
theorem Jobs.idle (h : ∀ i, doing (pc i) = none) : Jobs doing pc life where
  job i q l hi := by
    rw [h i] at hi
    cases hi
  alone i j q l l' hi := by
    rw [h i] at hi
    cases hi

variable [DecidableEq θ] [DecidableEq ρ]

/-- A thread goes on with a resource that no other thread is busy with, or lets go of it. -/
theorem Jobs.goto (h : Jobs doing pc life) {i : θ} {q : ρ} {l : κ} {next : π}
    (hfree : ∀ j l, doing (pc j) = some (q, l) → j = i)
    (hnext : doing next = some (q, l) ∨ doing next = none) :
    Jobs doing (Function.update pc i next) (Function.update life q l) := by
  have hself : ∀ {q' l'}, doing next = some (q', l') → q' = q ∧ l' = l := fun hjob => by
    rcases hnext with hnext | hnext
    · simpa [eq_comm] using hnext.symm.trans hjob
    · cases hnext.symm.trans hjob
  have hother : ∀ {j q' l'}, j ≠ i → doing (Function.update pc i next j) = some (q', l') →
      doing (pc j) = some (q', l') ∧ q' ≠ q := fun hji hj => by
    rw [Function.update_of_ne hji] at hj
    exact ⟨hj, fun hq => hji (hfree _ _ (hq ▸ hj))⟩
  refine ⟨fun j q' l' hj => ?_, fun j k q' l₁ l₂ hj hk => ?_⟩
  · by_cases hji : j = i
    · subst hji
      obtain ⟨rfl, rfl⟩ := hself (by simpa using hj)
      simp
    · obtain ⟨hj, hq⟩ := hother hji hj
      rw [Function.update_of_ne hq]
      exact h.job j q' l' hj
  · by_cases hji : j = i
    · subst hji
      by_contra hne
      obtain ⟨-, hq⟩ := hother (Ne.symm hne) hk
      exact hq (hself (by simpa using hj)).1
    · obtain ⟨hj, hq⟩ := hother hji hj
      by_cases hki : k = i
      · subst hki
        exact absurd (hself (by simpa using hk)).1 hq
      · exact h.alone j k q' l₁ l₂ hj (hother hki hk).1

/-- A thread goes on with the resource it is busy with. -/
theorem Jobs.advance (h : Jobs doing pc life) {i : θ} {q : ρ} {l l' : κ} {next : π}
    (hi : doing (pc i) = some (q, l)) (hnext : doing next = some (q, l') ∨ doing next = none) :
    Jobs doing (Function.update pc i next) (Function.update life q l') :=
  h.goto (fun j _ hj => h.alone j i q _ _ hj hi) hnext

/-- A thread goes on and leaves its resource as it is. -/
theorem Jobs.keep (h : Jobs doing pc life) {i : θ} {q : ρ} {l : κ} {next : π}
    (hi : doing (pc i) = some (q, l)) (hnext : doing next = some (q, l)) :
    Jobs doing (Function.update pc i next) life := by
  have hlife : Function.update life q l = life :=
    Function.update_eq_self_iff.mpr (h.job i q l hi).symm
  have hsame := h.advance hi (Or.inl hnext)
  rwa [hlife] at hsame

/-- A thread begins with a resource in a state that no job is about. -/
theorem Jobs.begin (h : Jobs doing pc life) {i : θ} {q : ρ} {l : κ} {next : π}
    (hidle : ∀ j l, doing (pc j) = some (q, l) → life q ≠ l)
    (hnext : doing next = some (q, l) ∨ doing next = none) :
    Jobs doing (Function.update pc i next) (Function.update life q l) :=
  h.goto (fun j l hj => absurd (h.job j q l hj) (hidle j l hj)) hnext

end Threads

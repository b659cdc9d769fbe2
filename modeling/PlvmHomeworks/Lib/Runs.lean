import Mathlib.Data.Nat.Notation
import Mathlib.Data.Set.Basic
import Mathlib.Logic.Relation

/-! Runs of a step relation, and the rules that carry an invariant along them.

    `Reach` is a run whose every step is taken in a state where a guard holds; `Path` is a run given
    state by state, for statements about all of its steps; `Reachable` is the set of the states that
    runs from a set of states reach. -/

namespace Runs
open Relation

universe u

variable {σ : Type u} {step step' : σ → σ → Prop} {ok ok' I : σ → Prop}

/-- `t` is reached from `s` by steps that are taken in states where `ok` holds. -/
def Reach (step : σ → σ → Prop) (ok : σ → Prop) (s t : σ) : Prop :=
  ReflTransGen (fun a b => ok a ∧ step a b) s t

theorem Reach.refl (s : σ) : Reach step ok s s := ReflTransGen.refl

theorem Reach.tail {s t u : σ} (h : Reach step ok s t) (hok : ok t) (hstep : step t u) :
    Reach step ok s u := ReflTransGen.tail h ⟨hok, hstep⟩

/-- What holds at the start and is kept by every guarded step holds in every state reached. -/
theorem Reach.invariant {s t : σ} (h : Reach step ok s t) (h0 : I s)
    (hI : ∀ a b, I a → ok a → step a b → I b) : I t := by
  induction h with
  | refl => exact h0
  | tail _ hab ih => exact hI _ _ ih hab.1 hab.2

/-- An invariant may be assumed in the guard. -/
theorem Reach.strengthen {s t : σ} (h : Reach step ok s t) (h0 : I s)
    (hI : ∀ a b, I a → ok a → step a b → I b) : Reach step (fun a => ok a ∧ I a) s t := by
  induction h with
  | refl => exact .refl s
  | tail hab hbc ih => exact ih.tail ⟨hbc.1, Reach.invariant hab h0 hI⟩ hbc.2

/-- A weaker guard and a larger step relation reach more. -/
theorem Reach.mono {s t : σ} (h : Reach step ok s t) (hok : ∀ a, ok a → ok' a)
    (hstep : ∀ a b, step a b → step' a b) : Reach step' ok' s t :=
  ReflTransGen.mono (fun a b hab => ⟨hok a hab.1, hstep a b hab.2⟩) s t h

/-- A run that can be computed: a turn that may fail, once for each of these inputs, and that is a step
    from a state where the guard holds. -/
theorem reach_of_foldlM {ε : Type} {η : Type} {turn : σ → η → Except ε σ}
    (hturn : ∀ a x b, turn a x = .ok b → ok a ∧ step a b) {xs : List η} {s t : σ}
    (h : xs.foldlM turn s = .ok t) : Reach step ok s t := by
  induction xs generalizing s with
  | nil =>
    cases h
    exact .refl _
  | cons x xs ih =>
    rw [List.foldlM_cons] at h
    cases hs : turn s x with
    | error e =>
      rw [hs] at h
      cases h
    | ok u =>
      rw [hs] at h
      exact ReflTransGen.head (hturn s x u hs) (ih h)

/-- The states `p 0, p 1, ..., p n` of a run. -/
def Path (step : σ → σ → Prop) (p : ℕ → σ) (n : ℕ) : Prop := ∀ i, i < n → step (p i) (p (i + 1))

theorem Path.mono {p : ℕ → σ} {m n : ℕ} (h : Path step p n) (hmn : m ≤ n) : Path step p m :=
  fun i hi => h i (Nat.lt_of_lt_of_le hi hmn)

/-- What holds at the start of a path and is kept by each of its steps holds all along it. -/
theorem Path.invariant {p : ℕ → σ} {n : ℕ} (h0 : I (p 0))
    (hI : ∀ i, i < n → I (p i) → I (p (i + 1))) : ∀ i, i ≤ n → I (p i)
  | 0, _ => h0
  | i + 1, hi => hI i hi (Path.invariant h0 hI i (Nat.le_of_lt hi))

/-- The states that runs from `roots` reach. -/
def Reachable (step : σ → σ → Prop) (roots : Set σ) : Set σ :=
  {t | ∃ s ∈ roots, ReflTransGen step s t}

/-- `S` contains every successor of its states. -/
def Closed (step : σ → σ → Prop) (S : Set σ) : Prop := ∀ s ∈ S, ∀ t, step s t → t ∈ S

theorem subset_reachable {roots : Set σ} : roots ⊆ Reachable step roots :=
  fun s hs => ⟨s, hs, .refl⟩

theorem closed_reachable {roots : Set σ} : Closed step (Reachable step roots) :=
  fun _ ⟨r, hr, hrs⟩ _ hst => ⟨r, hr, hrs.tail hst⟩

/-- The reachable states are the least closed set that contains the roots. -/
theorem Closed.reachable_subset {roots S : Set σ} (hS : Closed step S) (hroots : roots ⊆ S) :
    Reachable step roots ⊆ S := by
  rintro t ⟨r, hr, hrt⟩
  induction hrt with
  | refl => exact hroots hr
  | tail _ hab ih => exact hS _ ih _ hab

end Runs

import PlvmHomeworks.Lib.Events

/-! Linearization points.

    Some steps of a concurrent object are the moments at which an operation takes effect. If each of
    them does to an abstract state what a sequential specification says, and every other step leaves
    the abstract state alone, then a run is equivalent to the sequential history of its points. -/

namespace Linear
open Events

universe u v w x

variable {σ : Type u} {ε : Type v} {ω : Type w} {α : Type x} {step : σ → ε → Option σ}
  {ok : σ → ε → Prop} {spec : α → ω → α → Prop} {point : σ → ε → Option ω}

/-- The operations lead from one abstract state to another, one after the other. -/
inductive Legal (spec : α → ω → α → Prop) (a : α) : List ω → α → Prop
  | nil : Legal spec a [] a
  | snoc {ops : List ω} {b : α} {o : ω} {c : α} : Legal spec a ops b → spec b o c →
      Legal spec a (ops ++ [o]) c

/-- The operations that take effect along the events, in that order. -/
def points (step : σ → ε → Option σ) (point : σ → ε → Option ω) (s : σ) : List ε → List ω
  | [] => []
  | e :: es => (point s e).toList ++ match step s e with
    | some t => points step point t es
    | none => []

theorem points_append {s t : σ} {es : List ε} (h : exec step s es = some t) (es' : List ε) :
    points step point s (es ++ es') = points step point s es ++ points step point t es' := by
  induction es generalizing s with
  | nil =>
    obtain rfl : s = t := by simpa using h
    rfl
  | cons e es ih =>
    obtain ⟨u, hu, hrest⟩ := Option.bind_eq_some_iff.mp h
    simp only [List.cons_append, points, hu, ih hrest, List.append_assoc]

theorem points_snoc {s t : σ} {es : List ε} (h : exec step s es = some t) (e : ε) :
    points step point s (es ++ [e]) = points step point s es ++ (point t e).toList := by
  rw [points_append h, points]
  cases step t e <;> simp [points]

/-- What a step does to the abstract state. -/
def Takes (spec : α → ω → α → Prop) (a : α) : Option ω → α → Prop
  | none, b => b = a
  | some o, b => spec a o b

/-- A run does to the abstract state what its points do, in their order. -/
theorem legal_of_run {abs : σ → α} {I : σ → Prop} {s t : σ} {es : List ε}
    (h : Run step ok s es t) (hI : ∀ es a, Run step ok s es a → I a)
    (hsim : ∀ a e b, I a → ok a e → step a e = some b → Takes spec (abs a) (point a e) (abs b)) :
    Legal spec (abs s) (points step point s es) (abs t) := by
  induction h with
  | nil => exact .nil
  | snoc hrun hok hstep ih =>
    rw [points_snoc hrun.exec]
    have htakes := hsim _ _ _ (hI _ _ hrun) hok hstep
    revert htakes
    generalize point _ _ = o
    intro htakes
    cases o with
    | none =>
      rw [show abs _ = abs _ from htakes]
      simpa using ih
    | some o => exact ih.snoc htakes

end Linear

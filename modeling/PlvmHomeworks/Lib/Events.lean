import Mathlib.Data.Nat.Notation
import Mathlib.Data.List.Infix

/-! Runs of a system that is driven by events: `step s e` is the state after the event `e`, or none
    where `e` is not enabled.

    `Run` is a run whose every event is taken in a state where a guard admits it. `exec` plays a list
    of events, so that a run on fixed events can be computed. Threads that interleave are events that
    carry the thread; a moment of a run is a prefix of its events. -/

namespace Events

universe u v

variable {σ : Type u} {ε : Type v} {step : σ → ε → Option σ} {ok ok' : σ → ε → Prop}

/-- The events `es` lead from `s` to the last state, each of them admitted by `ok`. -/
inductive Run (step : σ → ε → Option σ) (ok : σ → ε → Prop) (s : σ) : List ε → σ → Prop
  | nil : Run step ok s [] s
  | snoc {es : List ε} {t : σ} {e : ε} {u : σ} : Run step ok s es t → ok t e → step t e = some u →
      Run step ok s (es ++ [e]) u

/-- What holds at the start and is kept by every admitted event holds at the end of every run. -/
theorem Run.invariant {I : σ → Prop} {s t : σ} {es : List ε} (h : Run step ok s es t) (h0 : I s)
    (hI : ∀ a e b, I a → ok a e → step a e = some b → I b) : I t := by
  induction h with
  | nil => exact h0
  | snoc _ hok hstep ih => exact hI _ _ _ ih hok hstep

/-- The same for a property of the events so far and the state they lead to. -/
theorem Run.history {I : List ε → σ → Prop} {s t : σ} {es : List ε} (h : Run step ok s es t)
    (h0 : I [] s) (hI : ∀ es a e b, Run step ok s es a → I es a → ok a e → step a e = some b →
      I (es ++ [e]) b) : I es t := by
  induction h with
  | nil => exact h0
  | snoc hrun hok hstep ih => exact hI _ _ _ _ hrun ih hok hstep

/-- The state that the events `es` lead to, taken in order from `s`. -/
def exec (step : σ → ε → Option σ) (s : σ) : List ε → Option σ
  | [] => some s
  | e :: es => (step s e).bind fun t => exec step t es

@[simp] theorem exec_nil (s : σ) : exec step s [] = some s := rfl

theorem exec_append (s : σ) (es es' : List ε) :
    exec step s (es ++ es') = (exec step s es).bind fun t => exec step t es' := by
  induction es generalizing s with
  | nil => rfl
  | cons e es ih =>
    simp only [List.cons_append, exec, Option.bind_assoc]
    congr 1
    funext t
    exact ih t

/-- A run is an execution of its events. -/
theorem Run.exec {s t : σ} {es : List ε} (h : Run step ok s es t) : exec step s es = some t := by
  induction h with
  | nil => rfl
  | snoc _ _ hstep ih => simp [exec_append, ih, Events.exec, hstep]

/-- The guard admits every event of an execution. -/
def Admits (step : σ → ε → Option σ) (ok : σ → ε → Prop) (s : σ) : List ε → Prop
  | [] => True
  | e :: es => ok s e ∧ match step s e with
    | some t => Admits step ok t es
    | none => True

instance Admits.decidable [∀ s e, Decidable (ok s e)] :
    ∀ (s : σ) (es : List ε), Decidable (Admits step ok s es)
  | _, [] => .isTrue trivial
  | s, e :: es => by
    unfold Admits
    cases step s e with
    | none => infer_instance
    | some t =>
      have := Admits.decidable t es
      infer_instance

theorem Run.append {s t u : σ} {es es' : List ε} (h : Run step ok s es t)
    (h' : Run step ok t es' u) : Run step ok s (es ++ es') u := by
  induction h' with
  | nil => simpa using h
  | snoc _ hok hstep ih =>
    rw [← List.append_assoc]
    exact ih.snoc hok hstep

/-- An execution whose every event is admitted is a run. -/
theorem run_of_exec {s t : σ} {es : List ε} (h : exec step s es = some t)
    (hok : Admits step ok s es) : Run step ok s es t := by
  induction es generalizing s with
  | nil =>
    obtain rfl : s = t := by simpa using h
    exact .nil
  | cons e es ih =>
    obtain ⟨u, hu, hrest⟩ := Option.bind_eq_some_iff.mp h
    have hfirst : Run step ok s ([] ++ [e]) u := Run.nil.snoc hok.1 hu
    have hadm := hok.2
    simp only [hu] at hadm
    exact hfirst.append (ih hrest hadm)

/-- An execution is a run that nothing guards. -/
theorem run_of_exec_true {s t : σ} {es : List ε} (h : exec step s es = some t) :
    Run step (fun _ _ => True) s es t := by
  refine run_of_exec h ?_
  clear h
  induction es generalizing s with
  | nil => trivial
  | cons e es ih =>
    refine ⟨trivial, ?_⟩
    split
    · exact ih
    · trivial

/-- At some moment since the last event that `starts` something, `P` held; where there is none, at
    some moment of the execution. -/
def Since (step : σ → ε → Option σ) (s : σ) (starts : ε → Prop) (P : σ → Prop) (es : List ε) : Prop :=
  ∃ before after t, es = before ++ after ∧ exec step s before = some t ∧
    (∀ e ∈ after, ¬ starts e) ∧ P t

theorem Since.now {s t : σ} {es : List ε} {starts : ε → Prop} {P : σ → Prop}
    (h : exec step s es = some t) (hP : P t) : Since step s starts P es :=
  ⟨es, [], t, (List.append_nil es).symm, h, fun _ he => absurd he List.not_mem_nil, hP⟩

theorem Since.snoc {s : σ} {es : List ε} {starts : ε → Prop} {P : σ → Prop} {e : ε}
    (h : Since step s starts P es) (he : ¬ starts e) : Since step s starts P (es ++ [e]) := by
  obtain ⟨before, after, t, rfl, hexec, hafter, hP⟩ := h
  refine ⟨before, after ++ [e], t, List.append_assoc .., hexec, fun e' he' => ?_, hP⟩
  rcases List.mem_append.mp he' with hold | hnew
  · exact hafter e' hold
  · rw [List.mem_singleton.mp hnew]
    exact he

theorem Since.mono {s : σ} {es : List ε} {starts : ε → Prop} {P Q : σ → Prop}
    (h : Since step s starts P es) (hPQ : ∀ t, P t → Q t) : Since step s starts Q es := by
  obtain ⟨before, after, t, hes, hexec, hafter, hP⟩ := h
  exact ⟨before, after, t, hes, hexec, hafter, hPQ t hP⟩

/-- After an event that starts something the moments are those of the events that follow. -/
theorem Since.after_start {s u : σ} {pre es : List ε} {starts : ε → Prop} {P : σ → Prop} {e : ε}
    (h : Since step s starts P (pre ++ e :: es)) (he : starts e)
    (hexec : exec step s (pre ++ [e]) = some u) :
    ∃ before after t, es = before ++ after ∧ exec step u before = some t ∧ P t := by
  obtain ⟨before, after, t, hes, hbefore, hafter, hP⟩ := h
  rw [List.append_cons] at hes
  rcases List.append_eq_append_iff.mp hes with ⟨rest, rfl, hrest⟩ | ⟨rest, hpre, rfl⟩
  · rw [exec_append, hexec] at hbefore
    exact ⟨rest, after, t, hrest, hbefore, hP⟩
  · rcases List.eq_nil_or_concat rest with rfl | ⟨front, last, rfl⟩
    · rw [List.append_nil] at hpre
      rw [← hpre, hexec] at hbefore
      exact ⟨[], es, t, rfl, (congrArg some (Option.some.inj hbefore)), hP⟩
    · rw [List.concat_eq_append, ← List.append_assoc] at hpre
      obtain ⟨-, hlast⟩ := List.append_inj' hpre rfl
      obtain rfl := List.singleton_inj.mp hlast
      exact absurd he (hafter e (by simp))

end Events

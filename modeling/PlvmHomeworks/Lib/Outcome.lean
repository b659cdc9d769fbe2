import Mathlib.Data.List.Basic

/-! Fallible computations as `Except`: how a sequence of steps ends well, and how it fails.

    A program that stops on a failed check is a sequence of `ensure`s and steps; the lemmas below
    take such a sequence apart without unfolding the monad. -/

namespace Outcome

universe u v

variable {ε : Type u} {α β : Type v}

/-- A check: stop with `e` unless `c` holds. -/
def ensure (c : Prop) [Decidable c] (e : ε) : Except ε Unit :=
  if c then .ok () else .error e

/-- Read an optional value, or stop with `e`. -/
def orStop (o : Option α) (e : ε) : Except ε α :=
  match o with
  | some a => .ok a
  | none => .error e

theorem bind_eq_ok {x : Except ε α} {f : α → Except ε β} {b : β} :
    x >>= f = .ok b ↔ ∃ a, x = .ok a ∧ f a = .ok b := by
  cases x <;> simp [bind, Except.bind]

theorem bind_eq_error {x : Except ε α} {f : α → Except ε β} {e : ε} :
    x >>= f = .error e ↔ x = .error e ∨ ∃ a, x = .ok a ∧ f a = .error e := by
  cases x <;> simp [bind, Except.bind]

@[simp] theorem ok_bind (a : α) (f : α → Except ε β) : (Except.ok a >>= f) = f a := rfl

@[simp] theorem error_bind (e : ε) (f : α → Except ε β) :
    ((Except.error e : Except ε α) >>= f) = .error e := rfl

@[simp] theorem pure_eq_ok (a : α) : (pure a : Except ε α) = .ok a := rfl

@[simp] theorem ensure_eq_ok {c : Prop} [Decidable c] {e : ε} {u : Unit} :
    ensure c e = .ok u ↔ c := by
  unfold ensure; split <;> simp_all

@[simp] theorem ensure_eq_error {c : Prop} [Decidable c] {e e' : ε} :
    ensure c e = .error e' ↔ ¬ c ∧ e = e' := by
  unfold ensure; split <;> simp_all

/-- A check that holds. -/
theorem ensure_of {c : Prop} [Decidable c] {e : ε} (h : c) : ensure c e = .ok () := if_pos h

@[simp] theorem orStop_eq_ok {o : Option α} {e : ε} {a : α} :
    orStop o e = .ok a ↔ o = some a := by
  cases o <;> simp [orStop]

@[simp] theorem orStop_eq_error {o : Option α} {e e' : ε} :
    orStop o e = .error e' ↔ o = none ∧ e = e' := by
  cases o <;> simp [orStop]

instance decidableForallOk {p : α → Prop} [DecidablePred p] :
    ∀ x : Except ε α, Decidable (∀ a, x = .ok a → p a)
  | .ok a => decidable_of_iff (p a) ⟨fun h _ heq => Except.ok.inj heq ▸ h, fun h => h a rfl⟩
  | .error _ => isTrue nofun

/-! ### Which errors a computation can end in -/

/-- If `x` fails, it fails with an error that satisfies `P`. -/
def ErrorsIn (P : ε → Prop) (x : Except ε α) : Prop := ∀ e, x = .error e → P e

variable {P : ε → Prop}

@[simp] theorem errorsIn_ok {a : α} : ErrorsIn P (.ok a : Except ε α) := fun _ h => nomatch h

@[simp] theorem errorsIn_error {e : ε} : ErrorsIn P (.error e : Except ε α) ↔ P e :=
  ⟨fun h => h e rfl, fun h _ he => Except.error.inj he ▸ h⟩

/-- The errors of a sequence are those of its first step and those of the rest after it. -/
theorem errorsIn_bind {x : Except ε α} {f : α → Except ε β} :
    ErrorsIn P (x >>= f) ↔ ErrorsIn P x ∧ ∀ a, x = .ok a → ErrorsIn P (f a) := by
  cases x with
  | error e => simp
  | ok a => simp

theorem errorsIn_ensure {c : Prop} [Decidable c] {e : ε} :
    ErrorsIn P (ensure c e) ↔ (¬ c → P e) := by
  unfold ensure
  split <;> simp_all

theorem errorsIn_orStop {o : Option α} {e : ε} :
    ErrorsIn P (orStop o e) ↔ (o = none → P e) := by
  cases o <;> simp [orStop]

/-- A list of steps errs where its first failing step does. -/
theorem errorsIn_mapM {γ δ : Type v} {g : γ → Except ε δ} : ∀ {l : List γ},
    ErrorsIn P (l.mapM g) ↔ ∀ pre a post, l = pre ++ a :: post →
      (∀ b ∈ pre, ∃ r, g b = .ok r) → ErrorsIn P (g a)
  | [] => by simp
  | c :: l => by
    rw [List.mapM_cons, errorsIn_bind]
    have rest : ∀ d : δ, ErrorsIn P (l.mapM g >>= fun ds => (.ok (d :: ds) : Except ε _)) ↔
        ErrorsIn P (l.mapM g) := fun d => by rw [errorsIn_bind]; exact and_iff_left fun _ _ => errorsIn_ok
    constructor
    · rintro ⟨hc, hl⟩ (_ | ⟨b, pre⟩) a post heq hpre
      · cases heq; exact hc
      · cases heq
        obtain ⟨d, hd⟩ := hpre _ List.mem_cons_self
        exact errorsIn_mapM.mp ((rest d).mp (hl d hd)) pre a post rfl
          fun b hb => hpre b (List.mem_cons_of_mem _ hb)
    · intro h
      refine ⟨h [] c l rfl (by simp), fun d hd => (rest d).mpr (errorsIn_mapM.mpr ?_)⟩
      rintro pre a post rfl hpre
      refine h (c :: pre) a post rfl fun b hb => ?_
      rcases List.mem_cons.mp hb with rfl | hb
      · exact ⟨d, hd⟩
      · exact hpre b hb

theorem mapM_eq_ok {γ δ : Type v} {g : γ → Except ε δ} : ∀ {l : List γ} {r : List δ},
    l.mapM g = .ok r → r.length = l.length ∧ ∀ a ∈ l, ∃ b ∈ r, g a = .ok b
  | [], r, h => by
    cases h
    exact ⟨rfl, by simp⟩
  | c :: l, r, h => by
    rw [List.mapM_cons] at h
    obtain ⟨d, hd, h⟩ := bind_eq_ok.mp h
    obtain ⟨ds, hds, h⟩ := bind_eq_ok.mp h
    cases h
    obtain ⟨hlen, hall⟩ := mapM_eq_ok hds
    refine ⟨by rw [List.length_cons, List.length_cons, hlen], fun a ha => ?_⟩
    rcases List.mem_cons.mp ha with rfl | ha
    · exact ⟨d, List.mem_cons_self, hd⟩
    · obtain ⟨b, hb, hab⟩ := hall a ha
      exact ⟨b, List.mem_cons_of_mem _ hb, hab⟩

/-- What a list of steps yields comes from its steps. -/
theorem mapM_mem {γ δ : Type v} {g : γ → Except ε δ} : ∀ {l : List γ} {r : List δ},
    l.mapM g = .ok r → ∀ b ∈ r, ∃ a ∈ l, g a = .ok b
  | [], r, h => by
    cases h
    exact fun b hb => absurd hb List.not_mem_nil
  | c :: l, r, h => by
    rw [List.mapM_cons] at h
    obtain ⟨d, hd, h⟩ := bind_eq_ok.mp h
    obtain ⟨ds, hds, h⟩ := bind_eq_ok.mp h
    cases h
    intro b hb
    rcases List.mem_cons.mp hb with rfl | hb
    · exact ⟨c, List.mem_cons_self, hd⟩
    · obtain ⟨a, ha, hab⟩ := mapM_mem hds b hb
      exact ⟨a, List.mem_cons_of_mem _ ha, hab⟩

/-! ### How a computation ends

    `Ends P Q x` is the triple of a fallible computation: it fails within `P`, or yields a value that
    satisfies `Q`. A sequence is taken apart at its binds, with the value of each step bound to what
    the step is known to yield. -/

/-- `x` fails with an error that satisfies `P` or yields a value that satisfies `Q`. -/
def Ends (P : ε → Prop) (Q : α → Prop) (x : Except ε α) : Prop :=
  ErrorsIn P x ∧ ∀ a, x = .ok a → Q a

variable {Q Q' : α → Prop} {R : β → Prop}

theorem ends_ok {a : α} : Ends P Q (.ok a : Except ε α) ↔ Q a :=
  ⟨fun h => h.2 a rfl, fun h => ⟨errorsIn_ok, fun _ ha => Except.ok.inj ha ▸ h⟩⟩

theorem ends_error {e : ε} : Ends P Q (.error e : Except ε α) ↔ P e :=
  ⟨fun h => h.1 e rfl, fun h => ⟨errorsIn_error.mpr h, fun _ ha => nomatch ha⟩⟩

theorem Ends.mono {x : Except ε α} (h : Ends P Q x) (hQ : ∀ a, Q a → Q' a) : Ends P Q' x :=
  ⟨h.1, fun a ha => hQ a (h.2 a ha)⟩

theorem Ends.bind {x : Except ε α} {f : α → Except ε β} (hx : Ends P Q x)
    (hf : ∀ a, Q a → Ends P R (f a)) : Ends P R (x >>= f) := by
  refine ⟨errorsIn_bind.mpr ⟨hx.1, fun a ha => (hf a (hx.2 a ha)).1⟩, fun b hb => ?_⟩
  obtain ⟨a, ha, hb⟩ := bind_eq_ok.mp hb
  exact (hf a (hx.2 a ha)).2 b hb

theorem ErrorsIn.ends {x : Except ε α} (h : ErrorsIn P x) : Ends P (fun _ => True) x :=
  ⟨h, fun _ _ => trivial⟩

/-- A step whose value does not matter. -/
theorem ErrorsIn.bind {x : Except ε α} {f : α → Except ε β} (hx : ErrorsIn P x)
    (hf : ∀ a, Ends P R (f a)) : Ends P R (x >>= f) := hx.ends.bind fun a _ => hf a

theorem Ends.ensure {c : Prop} [Decidable c] {e : ε} (h : ¬ c → P e) :
    Ends P (fun _ => c) (ensure c e) :=
  ⟨errorsIn_ensure.mpr h, fun _ hu => ensure_eq_ok.mp hu⟩

theorem exists_of_map_eq_ok {x : Except ε α} {g : α → β} {b : β} (h : x.map g = .ok b) :
    ∃ a, x = .ok a ∧ g a = b := by
  cases x with
  | error e => cases h
  | ok a => cases h; exact ⟨a, rfl, rfl⟩

end Outcome

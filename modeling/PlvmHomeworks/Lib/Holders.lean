import Mathlib.Data.Set.Card
import Mathlib.Logic.Equiv.Basic

/-! Who holds what, where every holder refers to one thing or to none.

    A reference counter is right where it agrees with the number of holders. The lemmas say what
    becomes of the holders of a thing when one reference is redirected, and when two are swapped. -/

namespace Holders

universe u v

variable {α : Type u} {κ : Type v} {f : α → Option κ} {a b : α} {c d : κ} {v : Option κ}

/-- The holders of c. -/
def holders (f : α → Option κ) (c : κ) : Set α := {a | f a = some c}

@[simp] theorem mem_holders : a ∈ holders f c ↔ f a = some c := Iff.rfl

theorem holders_eq_empty_iff : holders f c = ∅ ↔ ∀ a, f a ≠ some c := Set.eq_empty_iff_forall_notMem

variable [DecidableEq α]

/-- A reference to c is taken. -/
theorem holders_take : holders (Function.update f a (some c)) c = insert a (holders f c) := by
  ext b
  rcases eq_or_ne b a with rfl | hne
  · simp
  · simp [hne]

/-- A reference is redirected to something else. -/
theorem holders_drop (hv : v ≠ some c) :
    holders (Function.update f a v) c = holders f c \ {a} := by
  ext b
  rcases eq_or_ne b a with rfl | hne
  · simp [hv]
  · simp [hne]

/-- What is neither let go nor taken keeps its holders. -/
theorem holders_keep (h : f a ≠ some c) (hv : v ≠ some c) :
    holders (Function.update f a v) c = holders f c := by
  rw [holders_drop hv]
  exact Set.sdiff_singleton_eq_self h

theorem encard_take (h : f a ≠ some c) :
    (holders (Function.update f a (some c)) c).encard = (holders f c).encard + 1 := by
  rw [holders_take]
  exact Set.encard_insert_of_notMem h

theorem encard_drop (h : f a = some c) (hv : v ≠ some c) :
    (holders (Function.update f a v) c).encard + 1 = (holders f c).encard := by
  rw [holders_drop hv]
  exact Set.encard_sdiff_singleton_add_one h

/-- Two references are swapped. -/
theorem encard_swap :
    (holders (Function.update (Function.update f a (f b)) b (f a)) c).encard =
      (holders f c).encard := by
  have hswap : Function.update (Function.update f a (f b)) b (f a) = f ∘ Equiv.swap a b := by
    funext x
    rcases eq_or_ne x b with rfl | hb
    · simp
    · rcases eq_or_ne x a with rfl | ha
      · simp [hb]
      · simp [hb, ha, Equiv.swap_apply_of_ne_of_ne]
  have himage : holders (f ∘ Equiv.swap a b) c = Equiv.swap a b '' holders f c := by
    ext x
    constructor
    · intro hx
      exact ⟨Equiv.swap a b x, hx, Equiv.swap_apply_self ..⟩
    · rintro ⟨y, hy, rfl⟩
      simpa using hy
  rw [hswap, himage]
  exact (Equiv.swap a b).injective.encard_image _

/-- A reference moves from b to a, which has not held it, and b is left with something else. -/
theorem encard_move (ha : f a ≠ some c) (hv : v ≠ some c) :
    (holders (Function.update (Function.update f a (f b)) b v) c).encard =
      (holders f c).encard := by
  have hb : Function.update (Function.update f a (f b)) b (f a) b ≠ some c := by simpa using ha
  rw [← encard_swap (f := f) (a := a) (b := b), ← holders_keep hb hv, Function.update_idem]

end Holders

import Mathlib.Data.Set.Finite.Lattice
import Mathlib.Order.Bounds.Basic
import Mathlib.Order.SuccPred.Basic

/-! Tables of limits, and what is asked of them.

    A demand is a key with a value that the entry under the key must not exceed. Two finite sets of
    demands are met by the same tables exactly when each demand of one is covered by the other. -/

namespace Tables

universe u v

variable {κ : Type u} {α : Type v} [DecidableEq κ] {table : List (κ × α)} {D E : Set (κ × α)}

/-- Looking a key up in a table that is computed from its keys. -/
theorem lookup_map_pair (g : κ → α) {keys : List κ} {k : κ} (hk : k ∈ keys) :
    (keys.map fun k => (k, g k)).lookup k = some (g k) := by
  induction keys with
  | nil => cases hk
  | cons k' keys ih =>
    rw [List.map_cons, List.lookup_cons]
    by_cases heq : k = k'
    · rw [heq, beq_self_eq_true]
    · rw [beq_false_of_ne heq]
      exact ih ((List.mem_cons.mp hk).resolve_left heq)

/-- The table has an entry under every key that is asked for, within its limit. -/
def Meets [LE α] (table : List (κ × α)) (D : Set (κ × α)) : Prop :=
  ∀ p ∈ D, ∃ a, table.lookup p.1 = some a ∧ a ≤ p.2

/-- The table has some entry under every key that is asked for. -/
def Answers (table : List (κ × α)) (D : Set (κ × α)) : Prop := ∀ p ∈ D, table.lookup p.1 ≠ none

/-- Every demand of `E` is made by `D`, with the same limit or a lower one. -/
def Covers [LE α] (D E : Set (κ × α)) : Prop := ∀ p ∈ E, ∃ q ∈ D, q.1 = p.1 ∧ q.2 ≤ p.2

theorem Meets.of_covers [Preorder α] (hm : Meets table D) (hc : Covers D E) : Meets table E := by
  intro p hp
  obtain ⟨q, hq, hkey, hle⟩ := hc p hp
  obtain ⟨a, ha, hlimit⟩ := hm q hq
  exact ⟨a, hkey ▸ ha, hlimit.trans hle⟩

variable [LinearOrder α] [SuccOrder α] [NoMaxOrder α]

/-- A demand of `E` that `D` does not cover is missed by a table that meets `D`: its entry is just above
    the limit, and all others are low. -/
theorem covers_of_meets (hD : D.Finite) (hE : E.Finite)
    (h : ∀ table : List (κ × α), Answers table (D ∪ E) → Meets table D → Meets table E) : Covers D E := by
  intro p hp
  by_contra hno
  have hfinite := hD.union hE
  have : Nonempty α := ⟨p.2⟩
  obtain ⟨low, hlow⟩ := (hfinite.image Prod.snd).bddBelow
  let limit : κ → α := fun k => if k = p.1 then Order.succ p.2 else low
  have hlookup : ∀ q ∈ D ∪ E,
      ((hfinite.image Prod.fst).toFinset.toList.map fun k => (k, limit k)).lookup q.1 =
        some (limit q.1) := fun q hq =>
    lookup_map_pair limit (by simpa using ⟨q.2, hq⟩)
  have hmeets := h _ (fun q hq => by rw [hlookup q hq]; exact Option.some_ne_none _) fun q hq => by
    refine ⟨_, hlookup q (Or.inl hq), ?_⟩
    by_cases hkey : q.1 = p.1
    · have hlt : p.2 < q.2 := not_le.mp fun hle => hno ⟨q, hq, hkey, hle⟩
      simpa only [limit, if_pos hkey] using Order.succ_le_of_lt hlt
    · simpa only [limit, if_neg hkey] using hlow ⟨q, Or.inl hq, rfl⟩
  obtain ⟨a, ha, hle⟩ := hmeets p hp
  rw [hlookup p (Or.inr hp), Option.some.injEq] at ha
  simp only [limit, if_pos] at ha
  exact absurd (ha ▸ hle) (not_le.mpr (Order.lt_succ p.2))

/-- The tables with an entry for every key of `E` meet both or neither exactly when both cover each
    other. -/
theorem meets_iff_meets_iff (hD : D.Finite) (hE : E.Finite) :
    (∀ table : List (κ × α), Answers table E → (Meets table D ↔ Meets table E)) ↔
      Covers D E ∧ Covers E D := by
  constructor
  · intro h
    refine ⟨covers_of_meets hD hE fun t ht => (h t fun p hp => ht p (Or.inr hp)).mp, ?_⟩
    exact covers_of_meets hE hD fun t ht => (h t fun p hp => ht p (Or.inl hp)).mpr
  · rintro ⟨hDE, hED⟩ t -
    exact ⟨fun hm => hm.of_covers hDE, fun hm => hm.of_covers hED⟩

end Tables

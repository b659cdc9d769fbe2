import Mathlib.Data.List.Nodup
import Mathlib.Data.List.Perm.Basic
import Mathlib.Data.List.Range
import Mathlib.Logic.Function.Basic

/-! Numbers that are handed out, given back and handed out again.

    Below a mark every number is the number of one holder or is free; a new number is the mark itself,
    which then moves on. The lemmas are one for each way to hand a number out or back. -/

namespace Slots

universe u

variable {α : Type u} {index : α → ℕ} {held : List α} {free : List ℕ} {top k : ℕ} {a b : α}

/-- Every number below `top` is the number of one holder or free, and that once. -/
def Shared (index : α → ℕ) (held : List α) (free : List ℕ) (top : ℕ) : Prop :=
  (held.map index ++ free).Perm (List.range top)

namespace Shared

theorem start : Shared index [] [] 0 := .refl _

theorem nodup (h : Shared index held free top) : (held.map index ++ free).Nodup :=
  h.nodup_iff.mpr List.nodup_range

theorem lt (h : Shared index held free top) (ha : a ∈ held) : index a < top :=
  List.mem_range.mp (h.subset (List.mem_append_left _ (List.mem_map_of_mem ha)))

theorem free_lt (h : Shared index held free top) (hk : k ∈ free) : k < top :=
  List.mem_range.mp (h.subset (List.mem_append_right _ hk))

/-- No two holders have one number. -/
theorem unique (h : Shared index held free top) (ha : a ∈ held) (hb : b ∈ held) (hab : index a = index b) :
    a = b :=
  List.inj_on_of_nodup_map h.nodup.of_append_left ha hb hab

theorem length (h : Shared index held free top) : held.length + free.length = top := by
  have hlen := List.Perm.length_eq h
  rwa [List.length_append, List.length_map, List.length_range] at hlen

/-- A number that nobody holds is free. -/
theorem count_free (h : Shared index held free top) (hk : k < top) (hno : ∀ a ∈ held, index a ≠ k) :
    free.count k = 1 := by
  have hcount := h.count_eq k
  have hheld : (held.map index).count k = 0 :=
    List.count_eq_zero.mpr fun hmem => by
      obtain ⟨a, ha, hak⟩ := List.mem_map.mp hmem
      exact hno a ha hak
  rwa [List.count_append, hheld, Nat.zero_add,
    List.count_eq_one_of_mem List.nodup_range (List.mem_range.mpr hk)] at hcount

variable [DecidableEq α]

theorem map_update (ha : a ∉ held) : held.map (Function.update index a k) = held.map index :=
  List.map_congr_left fun b hb => Function.update_of_ne (fun hba : b = a => ha (hba ▸ hb)) ..

/-- The first of the free numbers is handed out. -/
theorem take (h : Shared index held (k :: free) top) (ha : a ∉ held) :
    Shared (Function.update index a k) (a :: held) free top := by
  rw [Shared, List.map_cons, Function.update_self, map_update ha, List.cons_append]
  exact List.perm_middle.symm.trans h

/-- A new number is handed out. -/
theorem grow (h : Shared index held free top) (ha : a ∉ held) :
    Shared (Function.update index a top) (a :: held) free (top + 1) := by
  rw [Shared, List.map_cons, Function.update_self, map_update ha, List.cons_append, List.range_succ]
  exact (h.cons top).trans (List.perm_append_singleton top _).symm

/-- A number is given back. -/
theorem giveBack (h : Shared index held free top) (ha : a ∈ held) :
    Shared index (held.erase a) (free ++ [index a]) top := by
  have hheld : (index a :: (held.erase a).map index).Perm (held.map index) :=
    ((List.perm_cons_erase ha).map index).symm
  rw [Shared, ← List.append_assoc]
  exact (List.perm_append_singleton _ _).trans ((hheld.append_right free).trans h)

/-- A thing that holds no number may get any. -/
theorem other (h : Shared index held free top) (ha : a ∉ held) :
    Shared (Function.update index a k) held free top := by
  rw [Shared, map_update ha]
  exact h

end Shared

end Slots

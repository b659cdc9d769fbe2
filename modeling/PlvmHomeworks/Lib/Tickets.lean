import Mathlib.Data.List.Basic
import Mathlib.Data.List.Nodup
import Mathlib.Logic.Function.Iterate

/-! A counter that hands out its values, one to each call.

    A call is begun, is handed the next value at one moment, and returns it later. `handed` lists the
    calls in the order of those moments. `Numbered` says that the k-th of them has the k-th value
    after the first, so that no value is handed out twice or left out. -/

namespace Tickets

universe u v

/-- What has become of a call. -/
inductive Life (ν : Type u)
  | fresh
  | pending          -- begun
  | got (value : ν)  -- was handed the value
  | done (value : ν) -- has returned it
  deriving DecidableEq

/-- The counter, the calls, and the calls that were handed a value, in order. -/
structure Counter (κ : Type v) (ν : Type u) where
  current : ν
  life : κ → Life ν
  handed : List κ

variable {κ : Type v} {ν : Type u}

/-- Before the first call. -/
def Counter.start (first : ν) : Counter κ ν := ⟨first, fun _ => .fresh, []⟩

/-- The call was handed the value. -/
def Counter.Got (s : Counter κ ν) (c : κ) (x : ν) : Prop := s.life c = .got x ∨ s.life c = .done x

/-- The k-th call has the k-th value after the first. -/
structure Numbered (advance : ν → ν) (first : ν) (s : Counter κ ν) : Prop where
  nodup : s.handed.Nodup
  current : s.current = advance^[s.handed.length] first
  exact : ∀ c x, s.Got c x ↔ ∃ k, s.handed[k]? = some c ∧ x = advance^[k + 1] first

variable {advance : ν → ν} {first : ν} {s : Counter κ ν} {c : κ} {x : ν}

theorem Numbered.start : Numbered advance first (Counter.start first : Counter κ ν) where
  nodup := List.nodup_nil
  current := rfl
  exact c x := by simp [Counter.Got, Counter.start]

/-- A call that was handed no value is not listed. -/
theorem Numbered.not_mem (h : Numbered advance first s) (hc : ∀ x, ¬ s.Got c x) : c ∉ s.handed := by
  intro hmem
  obtain ⟨k, hk⟩ := List.mem_iff_getElem?.mp hmem
  exact hc _ ((h.exact c _).mpr ⟨k, hk, rfl⟩)

theorem getElem?_concat_iff {α : Type v} {l : List α} {a b : α} {k : ℕ} :
    (l ++ [a])[k]? = some b ↔ l[k]? = some b ∨ k = l.length ∧ a = b := by
  rcases Nat.lt_trichotomy k l.length with hlt | rfl | hgt
  · rw [List.getElem?_append_left hlt]
    simp [Nat.ne_of_lt hlt]
  · simp
  · rw [List.getElem?_append_right (Nat.le_of_lt hgt), List.getElem?_eq_none (Nat.le_of_lt hgt),
      List.getElem?_eq_none (by simp only [List.length_singleton]; omega)]
    simp [Nat.ne_of_gt hgt]

variable [DecidableEq κ]

/-- A call begins. -/
def Counter.begin (s : Counter κ ν) (c : κ) : Counter κ ν :=
  { s with life := Function.update s.life c .pending }

/-- A call is handed the value that the counter is set to. -/
def Counter.hand (s : Counter κ ν) (c : κ) (x : ν) : Counter κ ν :=
  { current := x, life := Function.update s.life c (.got x), handed := s.handed ++ [c] }

/-- A call returns. -/
def Counter.finish (s : Counter κ ν) (c : κ) (x : ν) : Counter κ ν :=
  { s with life := Function.update s.life c (.done x) }

theorem Numbered.begin (h : Numbered advance first s) (hc : s.life c = .fresh) :
    Numbered advance first (s.begin c) := by
  refine ⟨h.nodup, h.current, fun c' x => Iff.trans ?_ (h.exact c' x)⟩
  by_cases hcc : c' = c
  · subst hcc
    simp [Counter.Got, Counter.begin, hc]
  · simp [Counter.Got, Counter.begin, Function.update_of_ne hcc]

theorem Numbered.finish (h : Numbered advance first s) (hc : s.life c = .got x) :
    Numbered advance first (s.finish c x) := by
  refine ⟨h.nodup, h.current, fun c' y => Iff.trans ?_ (h.exact c' y)⟩
  by_cases hcc : c' = c
  · subst hcc
    simp [Counter.Got, Counter.finish, hc]
  · simp [Counter.Got, Counter.finish, Function.update_of_ne hcc]

theorem Numbered.hand (h : Numbered advance first s) (hc : s.life c = .pending) :
    Numbered advance first (s.hand c (advance s.current)) := by
  have hnot : c ∉ s.handed := h.not_mem fun x hgot => by
    rcases hgot with hgot | hgot <;> rw [hc] at hgot <;> cases hgot
  have hnext : advance s.current = advance^[s.handed.length + 1] first := by
    rw [Function.iterate_succ_apply', ← h.current]
  refine ⟨?_, ?_, fun c' x => ?_⟩
  · exact List.nodup_append.mpr ⟨h.nodup, List.nodup_singleton c, fun a ha b hb => by
      rw [List.mem_singleton.mp hb]
      rintro rfl
      exact hnot ha⟩
  · rw [Counter.hand, hnext, List.length_append, List.length_singleton]
  · by_cases hcc : c' = c
    · subst hcc
      have hgot : (s.hand c' (advance s.current)).Got c' x ↔ x = advance s.current := by
        simp [Counter.Got, Counter.hand, eq_comm]
      rw [hgot]
      constructor
      · exact fun hx => ⟨s.handed.length, getElem?_concat_iff.mpr (Or.inr ⟨rfl, rfl⟩), hx.trans hnext⟩
      · rintro ⟨k, hk, hx⟩
        rcases getElem?_concat_iff.mp hk with hk | ⟨rfl, -⟩
        · exact absurd (List.mem_of_getElem? hk) hnot
        · exact hx.trans hnext.symm
    · have hold : (s.hand c (advance s.current)).Got c' x ↔ s.Got c' x := by
        simp [Counter.Got, Counter.hand, Function.update_of_ne hcc]
      rw [hold, h.exact]
      refine exists_congr fun k => and_congr_left fun _ => ?_
      exact (getElem?_concat_iff.trans (or_iff_left fun hk => hcc hk.2.symm)).symm

end Tickets

import Mathlib.Algebra.BigOperators.Group.List.Basic
import Mathlib.Algebra.GroupWithZero.Nat
import Mathlib.Data.List.Nodup
import Mathlib.Data.Set.Basic

/-! Blocks laid out one after another, and where they go when some of them are dropped and the others
    slide down to close the gaps. -/

namespace Sliding

variable {size size' : ℕ → ℕ} {keep : Set ℕ} {a b p q n m : ℕ} {ps qs : List ℕ}

/-- The blocks that start at the positions of a list fill the positions from `a` to `b`. -/
def Tiles (size : ℕ → ℕ) : ℕ → List ℕ → ℕ → Prop
  | a, [], b => a = b
  | a, p :: ps, b => p = a ∧ 0 < size p ∧ Tiles size (a + size p) ps b

theorem Tiles.append : ∀ {a : ℕ} {ps : List ℕ}, Tiles size a (ps ++ qs) b →
    ∃ c, Tiles size a ps c ∧ Tiles size c qs b
  | a, [], h => ⟨a, rfl, h⟩
  | a, p :: ps, ⟨hp, hpos, h⟩ => by
    obtain ⟨c, hps, hqs⟩ := Tiles.append (show Tiles size (a + size p) (ps ++ qs) b from h)
    exact ⟨c, ⟨hp, hpos, hps⟩, hqs⟩

theorem Tiles.concat {c : ℕ} : ∀ {a : ℕ} {ps : List ℕ}, Tiles size a ps c → Tiles size c qs b →
    Tiles size a (ps ++ qs) b
  | _, [], rfl, h => h
  | _, _ :: _, ⟨hp, hpos, h⟩, h' => ⟨hp, hpos, h.concat h'⟩

theorem Tiles.congr (heq : ∀ p ∈ ps, size' p = size p) (h : Tiles size a ps b) :
    Tiles size' a ps b := by
  induction ps generalizing a with
  | nil => exact h
  | cons p ps ih =>
    obtain ⟨hp, hpos, h⟩ := h
    have hsize := heq p (List.mem_cons_self ..)
    refine ⟨hp, by omega, ih (fun q hq => heq q (List.mem_cons_of_mem _ hq)) ?_⟩
    rw [hsize]; exact h

/-- There are no more blocks than positions. -/
theorem Tiles.length_le (h : Tiles size a ps b) : a + ps.length ≤ b := by
  induction ps generalizing a with
  | nil => exact Nat.le_of_eq h
  | cons p ps ih =>
    obtain ⟨-, hpos, h⟩ := h
    have := ih h
    rw [List.length_cons]
    omega

theorem Tiles.bounds (h : Tiles size a ps b) (hp : p ∈ ps) :
    a ≤ p ∧ p + size p ≤ b ∧ 0 < size p := by
  induction ps generalizing a with
  | nil => exact absurd hp List.not_mem_nil
  | cons q qs ih =>
    obtain ⟨rfl, hpos, h⟩ := h
    rcases List.mem_cons.mp hp with rfl | hp
    · have := h.length_le
      omega
    · have := ih h hp
      omega

/-- The blocks are listed upwards. -/
theorem Tiles.pairwise (h : Tiles size a ps b) : ps.Pairwise (· < ·) := by
  induction ps generalizing a with
  | nil => exact List.Pairwise.nil
  | cons q qs ih =>
    obtain ⟨rfl, hpos, h⟩ := h
    refine List.pairwise_cons.mpr ⟨fun p hp => ?_, ih h⟩
    have := (h.bounds hp).1
    omega

theorem Tiles.nodup (h : Tiles size a ps b) : ps.Nodup := h.pairwise.imp Nat.ne_of_lt

/-- A block ends before the next one starts. -/
theorem Tiles.disjoint (h : Tiles size a ps b) (hp : p ∈ ps) (hq : q ∈ ps) (hlt : p < q) :
    p + size p ≤ q := by
  induction ps generalizing a with
  | nil => exact absurd hp List.not_mem_nil
  | cons r rs ih =>
    obtain ⟨rfl, hpos, h⟩ := h
    rcases List.mem_cons.mp hp with rfl | hps
    · rcases List.mem_cons.mp hq with rfl | hqs
      · omega
      · exact (h.bounds hqs).1
    · rcases List.mem_cons.mp hq with rfl | hqs
      · have := (h.bounds hps).1
        omega
      · exact ih h hps hqs

/-- A position belongs to one block. -/
theorem Tiles.eq_of_mem_block (h : Tiles size a ps b) (hp : p ∈ ps) (hq : q ∈ ps)
    (hpn : p ≤ n ∧ n < p + size p) (hqn : q ≤ n ∧ n < q + size q) : p = q := by
  rcases Nat.lt_trichotomy p q with hlt | heq | hlt
  · have := h.disjoint hp hq hlt
    omega
  · exact heq
  · have := h.disjoint hq hp hlt
    omega

/-! ### The place after some blocks -/

/-- Where the blocks after the first `n` start. -/
def place (ps : List ℕ) (b n : ℕ) : ℕ := (ps.drop n).headD b

theorem place_zero (h : Tiles size a ps b) : place ps b 0 = a := by
  cases ps with
  | nil => exact h.symm
  | cons p ps => exact h.1

theorem Tiles.place (h : Tiles size a ps b) (hp : ps[n]? = some p) :
    place ps b n = p ∧ Sliding.place ps b (n + 1) = p + size p := by
  induction ps generalizing a n with
  | nil => simp at hp
  | cons q qs ih =>
    obtain ⟨rfl, hpos, h⟩ := h
    cases n with
    | zero =>
      obtain rfl : q = p := by simpa using hp
      exact ⟨rfl, place_zero h⟩
    | succ n => exact ih h (by simpa using hp)

theorem Tiles.place_lt (h : Tiles size a ps b) (hn : n < m) (hm : m ≤ ps.length) :
    Sliding.place ps b n < Sliding.place ps b m := by
  induction m with
  | zero => omega
  | succ m ih =>
    obtain ⟨p, hp⟩ : ∃ p, ps[m]? = some p := ⟨ps[m], List.getElem?_eq_getElem (by omega)⟩
    obtain ⟨hm0, hm1⟩ := h.place hp
    have hpos := (h.bounds (List.mem_of_getElem? hp)).2.2
    rcases Nat.lt_or_ge n m with hlt | hge
    · have := ih hlt (by omega)
      omega
    · obtain rfl : n = m := by omega
      omega

theorem Tiles.place_inj (h : Tiles size a ps b) (hn : n ≤ m) (hm : m ≤ ps.length) :
    Sliding.place ps b n = Sliding.place ps b m ↔ n = m := by
  refine ⟨fun heq => ?_, fun heq => by rw [heq]⟩
  rcases Nat.lt_or_ge n m with hlt | hge
  · have := h.place_lt hlt hm
    omega
  · omega

/-! ### Sliding -/

open scoped Classical in
/-- The size of the blocks that are kept. -/
noncomputable def total (size : ℕ → ℕ) (keep : Set ℕ) (ps : List ℕ) : ℕ :=
  ((ps.filter (· ∈ keep)).map size).sum

/-- Where a block goes: behind the blocks before it that are kept. -/
noncomputable def target (size : ℕ → ℕ) (keep : Set ℕ) (ps : List ℕ) (p : ℕ) : ℕ :=
  total size keep (ps.filter (· < p))

theorem total_append : total size keep (ps ++ qs) = total size keep ps + total size keep qs := by
  simp [total, List.filter_append]

theorem total_kept (hp : p ∈ keep) : total size keep [p] = size p := by simp [total, hp]

theorem total_dropped (hp : p ∉ keep) : total size keep [p] = 0 := by simp [total, hp]

theorem Tiles.total_le (h : Tiles size a ps b) : a + total size keep ps ≤ b := by
  induction ps generalizing a with
  | nil => exact Nat.le_of_eq h
  | cons p ps ih =>
    obtain ⟨rfl, hpos, h⟩ := h
    have := ih h
    rw [← List.singleton_append, total_append]
    by_cases hp : p ∈ keep
    · rw [total_kept hp]; omega
    · rw [total_dropped hp]; omega

/-- The target of a block is the size of what is kept of the blocks before it. -/
theorem Tiles.target_eq (h : Tiles size a (ps ++ p :: qs) b) :
    target size keep (ps ++ p :: qs) p = total size keep ps := by
  obtain ⟨c, hps, rfl, hpos, hqs⟩ := h.append
  have hbefore : ps.filter (· < p) = ps := by
    rw [List.filter_eq_self]
    intro q hq
    have := hps.bounds hq
    exact decide_eq_true (by omega)
  have hafter : qs.filter (· < p) = [] := by
    rw [List.filter_eq_nil_iff]
    intro q hq
    have := hqs.bounds hq
    simp only [decide_eq_true_eq]
    omega
  rw [target, List.filter_append, List.filter_cons_of_neg (by simp), hbefore, hafter, List.append_nil]

/-- Blocks slide down, and the ones that are kept stay in the space they fill together. -/
theorem Tiles.target_le (h : Tiles size a ps b) (hp : p ∈ ps) (hk : p ∈ keep) :
    a + target size keep ps p ≤ p ∧ target size keep ps p + size p ≤ total size keep ps := by
  obtain ⟨pre, post, rfl⟩ := List.append_of_mem hp
  rw [h.target_eq]
  obtain ⟨c, hpre, rfl, -, -⟩ := h.append
  refine ⟨hpre.total_le, ?_⟩
  rw [total_append, ← List.singleton_append, total_append, total_kept hk]
  omega

/-- Blocks that are kept stay apart. -/
theorem Tiles.target_add_le (h : Tiles size a (ps ++ q :: qs) b) (hp : p ∈ ps) (hk : p ∈ keep) :
    target size keep (ps ++ q :: qs) p + size p ≤ target size keep (ps ++ q :: qs) q := by
  rw [h.target_eq]
  obtain ⟨pre, mid, rfl⟩ := List.append_of_mem hp
  have hsplit : pre ++ p :: mid ++ q :: qs = pre ++ p :: (mid ++ q :: qs) := by simp
  rw [hsplit] at h ⊢
  rw [h.target_eq, total_append, ← List.singleton_append, total_append, total_kept hk]
  omega

open scoped Classical in
/-- The blocks that are kept fill the space from 0 after sliding. -/
theorem Tiles.packed (h : Tiles size a ps b)
    (hsize : ∀ p ∈ ps, p ∈ keep → size' (target size keep ps p) = size p) :
    Tiles size' 0 ((ps.filter (· ∈ keep)).map (target size keep ps)) (total size keep ps) := by
  -- by induction on the blocks that are still to be placed
  suffices key : ∀ post pre, ps = pre ++ post →
      Tiles size' (total size keep pre) ((post.filter (· ∈ keep)).map (target size keep ps))
        (total size keep ps) from key ps [] rfl
  intro post
  induction post with
  | nil =>
    rintro pre rfl
    rw [List.append_nil]
    rfl
  | cons p post ih =>
    intro pre hps
    have hstep := ih (pre ++ [p]) (by rw [hps, List.append_assoc]; rfl)
    rw [total_append] at hstep
    by_cases hk : p ∈ keep
    · have hp : p ∈ ps := by simp [hps]
      have hs := hsize p hp hk
      have ht : target size keep ps p = total size keep pre := by rw [hps]; exact (hps ▸ h).target_eq
      rw [total_kept hk] at hstep
      rw [List.filter_cons_of_pos (by simpa using hk), List.map_cons]
      exact ⟨ht, by rw [hs]; exact (h.bounds hp).2.2, by rw [hs]; exact hstep⟩
    · rw [total_dropped hk, Nat.add_zero] at hstep
      rw [List.filter_cons_of_neg (by simpa using hk)]
      exact hstep

end Sliding

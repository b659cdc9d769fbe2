import Mathlib.Data.List.Perm.Basic
import Mathlib.Data.List.Induction
import Mathlib.Data.List.Sort

/-! Sorting by a comparison, and groups that count the keys of a list.

    A library sort promises nothing but a sorted permutation, and that only for a strict weak order.
    `Tallies` says that a list of groups has one group for each key of a list, with the number of
    times it occurs; in a sorted list, the groups can be built from left to right. -/

namespace Sorting

universe u

/-- The comparisons that a sort accepts. -/
structure StrictWeak {α : Type u} (lt : α → α → Bool) : Prop where
  irrefl : ∀ a, lt a a = false
  trans : ∀ a b c, lt a b = true → lt b c = true → lt a c = true
  incomparable : ∀ a b c, lt a b = false → lt b a = false → lt b c = false → lt c b = false →
    lt a c = false

namespace StrictWeak
variable {α : Type u} {lt : α → α → Bool} (h : StrictWeak lt)
include h

theorem asymm (a b : α) (hab : lt a b = true) : lt b a = false := by
  by_contra hba
  have hloop := h.trans a b a hab (Bool.not_eq_false _ ▸ hba)
  rw [h.irrefl] at hloop
  cases hloop

/-- Not coming after is transitive. -/
theorem not_after_trans (a b c : α) (hba : lt b a = false) (hcb : lt c b = false) : lt c a = false := by
  by_contra hca
  rw [Bool.not_eq_false] at hca
  have hab : lt a b = false := by
    by_contra hab
    rw [h.trans c a b hca (Bool.not_eq_false _ ▸ hab)] at hcb
    cases hcb
  have hbc : lt b c = false := by
    by_contra hbc
    rw [h.trans b c a (Bool.not_eq_false _ ▸ hbc) hca] at hba
    cases hba
  rw [h.incomparable c b a hcb hbc hba hab] at hca
  cases hca

theorem not_after_total (a b : α) : lt b a = false ∨ lt a b = false := by
  cases hba : lt b a with
  | false => exact Or.inl rfl
  | true => exact Or.inr (h.asymm b a hba)

end StrictWeak

/-- A sort of a library: what it returns for a comparison and a list. -/
structure Sorter where
  sort : {α : Type} → (α → α → Bool) → List α → List α
  perm : ∀ {α : Type} {lt : α → α → Bool}, StrictWeak lt → ∀ l, (sort lt l).Perm l
  sorted : ∀ {α : Type} {lt : α → α → Bool}, StrictWeak lt → ∀ l,
    (sort lt l).Pairwise fun a b => lt b a = false

/-- One such sort. -/
def insertion : Sorter where
  sort lt l := l.insertionSort fun a b => lt b a = false
  perm _ l := List.perm_insertionSort _ l
  sorted {α} {lt} h l := by
    have total : Std.Total fun a b : α => lt b a = false := ⟨h.not_after_total⟩
    have trans : IsTrans α fun a b => lt b a = false := ⟨h.not_after_trans⟩
    exact List.pairwise_insertionSort _ l

/-! ### Tallies -/

variable {γ κ : Type u} [BEq κ] [LawfulBEq κ] {key : γ → κ} {count : γ → ℕ}
  {gs gs' : List γ} {ks ks' : List κ}
  {g g' : γ} {k : κ}

/-- Each key of the list has one group, which counts how often the key occurs. -/
structure Tallies (key : γ → κ) (count : γ → ℕ) (gs : List γ) (ks : List κ) : Prop where
  distinct : (gs.map key).Nodup
  occurs : ∀ g ∈ gs, key g ∈ ks
  counted : ∀ g ∈ gs, count g = ks.count (key g)
  complete : ∀ k ∈ ks, ∃ g ∈ gs, key g = k

namespace Tallies

omit [LawfulBEq κ] in
theorem nil : Tallies key count [] [] := ⟨List.nodup_nil, by simp, by simp, by simp⟩

theorem singleton (h : count g = 1) : Tallies key count [g] [key g] :=
  ⟨by simp, by simp, by simpa using h, by simp⟩

omit [LawfulBEq κ] in
/-- The order of the groups and of the keys does not matter. -/
theorem perm (h : Tallies key count gs ks) (hg : gs.Perm gs') (hk : ks.Perm ks') :
    Tallies key count gs' ks' where
  distinct := (hg.map key).nodup_iff.mp h.distinct
  occurs g hmem := hk.mem_iff.mp (h.occurs g (hg.mem_iff.mpr hmem))
  counted g hmem := by rw [← hk.count_eq]; exact h.counted g (hg.mem_iff.mpr hmem)
  complete k hmem := by
    obtain ⟨g, hg', hk'⟩ := h.complete k (hk.mem_iff.mpr hmem)
    exact ⟨g, hg.mem_iff.mp hg', hk'⟩

/-- Groups of different keys tally them together. -/
theorem append (h : Tallies key count gs ks) (h' : Tallies key count gs' ks')
    (hdisjoint : ∀ k ∈ ks, k ∉ ks') : Tallies key count (gs ++ gs') (ks ++ ks') where
  distinct := by
    rw [List.map_append, List.nodup_append]
    refine ⟨h.distinct, h'.distinct, ?_⟩
    rintro a ha b hb rfl
    obtain ⟨g, hg, rfl⟩ := List.mem_map.mp ha
    obtain ⟨g', hg', heq⟩ := List.mem_map.mp hb
    exact hdisjoint _ (h.occurs g hg) (heq ▸ h'.occurs g' hg')
  occurs g hmem := by
    rcases List.mem_append.mp hmem with hg | hg
    · exact List.mem_append_left _ (h.occurs g hg)
    · exact List.mem_append_right _ (h'.occurs g hg)
  counted g hmem := by
    rw [List.count_append]
    rcases List.mem_append.mp hmem with hg | hg
    · rw [List.count_eq_zero.mpr (hdisjoint _ (h.occurs g hg)), h.counted g hg, Nat.add_zero]
    · have hno : key g ∉ ks := fun hks => hdisjoint _ hks (h'.occurs g hg)
      rw [List.count_eq_zero.mpr hno, h'.counted g hg, Nat.zero_add]
  complete k hmem := by
    rcases List.mem_append.mp hmem with hk | hk
    · obtain ⟨g, hg, hkey⟩ := h.complete k hk
      exact ⟨g, List.mem_append_left _ hg, hkey⟩
    · obtain ⟨g, hg, hkey⟩ := h'.complete k hk
      exact ⟨g, List.mem_append_right _ hg, hkey⟩

/-- The last group counts another occurrence of its key. -/
theorem raise (h : Tallies key count (gs ++ [g]) ks) (hkey : key g' = key g)
    (hcount : count g' = count g + 1) : Tallies key count (gs ++ [g']) (ks ++ [key g]) where
  distinct := by
    have hd := h.distinct
    rw [List.map_append] at hd ⊢
    simpa only [List.map_cons, List.map_nil, hkey] using hd
  occurs a hmem := by
    rcases List.mem_append.mp hmem with ha | ha
    · exact List.mem_append_left _ (h.occurs a (List.mem_append_left _ ha))
    · rw [List.mem_singleton.mp ha, hkey]
      exact List.mem_append_right _ List.mem_cons_self
  counted a hmem := by
    rw [List.count_append, List.count_singleton]
    rcases List.mem_append.mp hmem with ha | ha
    · have hne : key g ≠ key a := by
        intro heq
        have hd := h.distinct
        rw [List.map_append, List.nodup_append] at hd
        exact hd.2.2 (key a) (List.mem_map_of_mem ha) (key g) (by simp) heq.symm
      rw [h.counted a (List.mem_append_left _ ha), if_neg (by simpa using hne), Nat.add_zero]
    · rw [List.mem_singleton.mp ha, hkey, hcount, h.counted g (by simp), if_pos (by simp)]
  complete k hmem := by
    have hg' : g' ∈ gs ++ [g'] := by simp
    rcases List.mem_append.mp hmem with hk | hk
    · obtain ⟨a, ha, hkey'⟩ := h.complete k hk
      rcases List.mem_append.mp ha with ha | ha
      · exact ⟨a, List.mem_append_left _ ha, hkey'⟩
      · rw [List.mem_singleton.mp ha] at hkey'
        exact ⟨g', hg', hkey.trans hkey'⟩
    · exact ⟨g', hg', hkey.trans (List.mem_singleton.mp hk).symm⟩

/-- A key that occurs has exactly one group. -/
theorem exactly_one (h : Tallies key count gs ks) (hk : k ∈ ks) :
    ∃ g, gs.filter (fun g => key g == k) = [g] ∧ count g = ks.count k := by
  obtain ⟨g, hg, rfl⟩ := h.complete k hk
  obtain ⟨pre, post, rfl⟩ := List.append_of_mem hg
  have hd := h.distinct
  rw [List.map_append, List.map_cons, List.nodup_append, List.nodup_cons] at hd
  have hpre : pre.filter (fun a => key a == key g) = [] := by
    refine List.filter_eq_nil_iff.mpr fun a ha heq => ?_
    exact hd.2.2 (key a) (List.mem_map_of_mem ha) (key g) List.mem_cons_self (eq_of_beq heq)
  have hpost : post.filter (fun a => key a == key g) = [] := by
    refine List.filter_eq_nil_iff.mpr fun a ha heq => hd.2.1.1 ?_
    rw [← eq_of_beq heq]
    exact List.mem_map_of_mem ha
  refine ⟨g, ?_, h.counted g hg⟩
  rw [List.filter_append, hpre, List.filter_cons_of_pos (by simp), hpost, List.nil_append]

end Tallies

/-! ### The groups of a sorted list -/

omit [BEq κ] [LawfulBEq κ] in
/-- In a list sorted by an order of its keys, a key that differs from the last one is new. -/
theorem fresh_of_sorted {lt : κ → κ → Bool}
    (hanti : ∀ a b, lt a b = false → lt b a = false → a = b)
    (hsorted : (ks ++ [k'] ++ [k]).Pairwise fun a b => lt b a = false) (hne : k ≠ k') :
    k ∉ ks ++ [k'] := by
  intro hmem
  rw [List.pairwise_append] at hsorted
  obtain ⟨hpre, -, hk⟩ := hsorted
  rcases List.mem_append.mp hmem with hk' | hk'
  · have h1 : lt k' k = false := (List.pairwise_append.mp hpre).2.2 k hk' k' (by simp)
    have h2 : lt k k' = false := hk k' (by simp) k (by simp)
    exact hne (hanti k k' h2 h1)
  · exact hne (List.mem_singleton.mp hk')

/-- How a loop adds the element a to the groups it has: to the last one, if a has its key, or as a new
    one. -/
structure Joins {α : Type u} (key : γ → κ) (count : γ → ℕ) (keyOf : α → κ)
    (push : List γ → α → List γ) : Prop where
  first : ∀ a, ∃ g, push [] a = [g] ∧ key g = keyOf a ∧ count g = 1
  same : ∀ gs g a, keyOf a = key g → ∃ g', push (gs ++ [g]) a = gs ++ [g'] ∧ key g' = key g ∧
    count g' = count g + 1
  other : ∀ gs g a, keyOf a ≠ key g → ∃ g', push (gs ++ [g]) a = gs ++ [g] ++ [g'] ∧
    key g' = keyOf a ∧ count g' = 1

/-- The groups of a sorted list tally its keys, and the last group has the last key. -/
theorem Joins.tallies {α : Type u} {keyOf : α → κ} {push : List γ → α → List γ}
    (hjoins : Joins key count keyOf push) (lt : κ → κ → Bool)
    (hanti : ∀ a b, lt a b = false → lt b a = false → a = b) (l : List α)
    (hsorted : (l.map keyOf).Pairwise fun a b => lt b a = false) :
    Tallies key count (l.foldl push []) (l.map keyOf) ∧
      ∀ pre a, l = pre ++ [a] → ∃ gs g, l.foldl push [] = gs ++ [g] ∧ key g = keyOf a := by
  induction l using List.reverseRecOn with
  | nil => exact ⟨.nil, fun pre a h => by simp at h⟩
  | append_singleton l a ih =>
    rw [List.map_append, List.map_cons, List.map_nil] at hsorted ⊢
    obtain ⟨htally, hlast⟩ := ih (List.pairwise_append.mp hsorted).1
    rw [List.foldl_append, List.foldl_cons, List.foldl_nil]
    suffices key_step : ∃ gs g, push (l.foldl push []) a = gs ++ [g] ∧ key g = keyOf a ∧
        Tallies key count (gs ++ [g]) (l.map keyOf ++ [keyOf a]) by
      obtain ⟨gs, g, hpush, hkey, htally'⟩ := key_step
      rw [hpush]
      refine ⟨htally', fun pre b hb => ?_⟩
      obtain ⟨-, rfl⟩ := List.append_inj' hb rfl |>.imp id List.singleton_inj.mp
      exact ⟨gs, g, rfl, hkey⟩
    rcases List.eq_nil_or_concat' l with rfl | ⟨pre, b, rfl⟩
    · obtain ⟨g, hpush, hkey, hone⟩ := hjoins.first a
      exact ⟨[], g, hpush, hkey, hkey ▸ Tallies.singleton hone⟩
    · obtain ⟨gs, g, hgroups, hkeyb⟩ := hlast pre b rfl
      rw [hgroups] at htally ⊢
      by_cases hsame : keyOf a = key g
      · obtain ⟨g', hpush, hkey, hcount⟩ := hjoins.same gs g a hsame
        exact ⟨gs, g', hpush, hkey.trans hsame.symm, hsame ▸ htally.raise hkey hcount⟩
      · obtain ⟨g', hpush, hkey, hone⟩ := hjoins.other gs g a hsame
        refine ⟨gs ++ [g], g', hpush, hkey, htally.append (hkey ▸ Tallies.singleton hone) ?_⟩
        intro k hk hmem
        rw [List.mem_singleton.mp hmem, List.map_append, List.map_cons, List.map_nil] at hk
        rw [List.map_append, List.map_cons, List.map_nil] at hsorted
        exact fresh_of_sorted hanti hsorted (hkeyb ▸ hsame) hk

end Sorting

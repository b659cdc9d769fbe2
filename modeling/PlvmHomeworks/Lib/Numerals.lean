import Mathlib.Data.List.GetD
import Mathlib.Data.Nat.Digits.Lemmas

/-! Numerals over an alphabet: words read as numbers whose digits are the places of their letters, the
    most significant digit first, and numbers spelled as words.

    A number is spelled without leading zeros, so a word comes back from its number exactly when it
    does not begin with the first letter. -/

namespace Numerals

universe u

variable {α : Type u} {letters word : List α} {blank : α} {n : ℕ}

/-- The numeral of a number. -/
def spell (letters : List α) (blank : α) (n : ℕ) : List α :=
  ((Nat.digits letters.length n).map fun d => letters.getD d blank).reverse

theorem spell_zero : spell letters blank 0 = [] := by
  rw [spell, Nat.digits_zero, List.map_nil, List.reverse_nil]

/-- The last letter is the one at the place of the remainder. -/
theorem spell_pos (blank : α) (hb : 1 < letters.length) (hn : 0 < n) : spell letters blank n =
    spell letters blank (n / letters.length) ++ [letters.getD (n % letters.length) blank] := by
  rw [spell, Nat.digits_def' hb hn, List.map_cons, List.reverse_cons, spell]

theorem spell_length_le (blank : α) (hb : 1 < letters.length) {k : ℕ}
    (hn : n < letters.length ^ k) : (spell letters blank n).length ≤ k := by
  rw [spell, List.length_reverse, List.length_map]
  exact (Nat.digits_length_le_iff hb n).mpr hn

variable [DecidableEq α]

/-- The number that a word is a numeral of. -/
def value (letters word : List α) : ℕ :=
  Nat.ofDigits letters.length (word.map letters.idxOf).reverse

/-- A word over the alphabet without a leading zero. -/
structure IsNumeral (letters word : List α) : Prop where
  mem : ∀ c ∈ word, c ∈ letters
  lead : ∀ c, word.head? = some c → letters.idxOf c ≠ 0

theorem value_concat (letters word : List α) (c : α) :
    value letters (word ++ [c]) = value letters word * letters.length + letters.idxOf c := by
  rw [value, value, List.map_append, List.reverse_append, List.map_singleton, List.reverse_singleton,
    List.singleton_append, Nat.ofDigits_cons, Nat.add_comm, Nat.mul_comm]

theorem digits_lt (hword : ∀ c ∈ word, c ∈ letters) :
    ∀ d ∈ (word.map letters.idxOf).reverse, d < letters.length := by
  intro d hd
  obtain ⟨c, hc, rfl⟩ := List.mem_map.mp (List.mem_reverse.mp hd)
  exact List.idxOf_lt_length_of_mem (hword c hc)

theorem value_lt (hb : 1 < letters.length) (hword : ∀ c ∈ word, c ∈ letters) :
    value letters word < letters.length ^ word.length := by
  have h := Nat.ofDigits_lt_base_pow_length hb (digits_lt hword)
  rwa [List.length_reverse, List.length_map] at h

/-- A numeral comes back from its number. -/
theorem spell_value (blank : α) (hb : 1 < letters.length) (hword : IsNumeral letters word) :
    spell letters blank (value letters word) = word := by
  have hdigits : Nat.digits letters.length (value letters word) = (word.map letters.idxOf).reverse := by
    refine Nat.digits_ofDigits _ hb _ (digits_lt hword.mem) fun hne => ?_
    rw [List.getLast_reverse]
    cases word with
    | nil => exact absurd rfl hne
    | cons c cs => exact hword.lead c rfl
  rw [spell, hdigits, List.map_reverse, List.reverse_reverse, List.map_map]
  refine (List.map_congr_left fun c hc => ?_).trans (List.map_id word)
  have hlt := List.idxOf_lt_length_of_mem (hword.mem c hc)
  simp only [Function.comp_apply, id_eq]
  rw [List.getD_eq_getElem _ _ hlt, List.getElem_idxOf]

/-- What a number is spelled as is a numeral. -/
theorem isNumeral_spell (hb : 1 < letters.length) (hnodup : letters.Nodup) (blank : α) (n : ℕ) :
    IsNumeral letters (spell letters blank n) where
  mem c hc := by
    obtain ⟨d, hd, rfl⟩ := List.mem_map.mp (List.mem_reverse.mp hc)
    have hlt := Nat.digits_lt_base hb hd
    rw [List.getD_eq_getElem _ _ hlt]
    exact List.getElem_mem hlt
  lead c hc := by
    rcases Nat.eq_zero_or_pos n with rfl | hn
    · rw [spell_zero] at hc
      cases hc
    · have hne := Nat.digits_ne_nil_iff_ne_zero (b := letters.length).mpr (Nat.ne_of_gt hn)
      have hlast := Nat.getLast_digit_ne_zero letters.length (Nat.ne_of_gt hn)
      have hlt := Nat.digits_lt_base hb (List.getLast_mem hne)
      rw [spell, List.head?_reverse, List.getLast?_map, List.getLast?_eq_getLast_of_ne_nil hne] at hc
      obtain rfl : letters.getD _ blank = c := Option.some.inj hc
      rw [List.getD_eq_getElem _ _ hlt, hnodup.idxOf_getElem]
      exact hlast

/-- Two numerals of one number are the same. -/
theorem value_inj {word' : List α} (hb : 1 < letters.length) (hword : IsNumeral letters word)
    (hword' : IsNumeral letters word') : value letters word = value letters word' ↔ word = word' := by
  obtain ⟨blank⟩ : Nonempty α := ⟨letters[0]⟩
  refine ⟨fun h => ?_, congrArg _⟩
  rw [← spell_value blank hb hword, h, spell_value blank hb hword']

end Numerals

import PlvmHomeworks.Tools.IdiomPairs
import Mathlib.Data.List.Lex

/-! The report of `bcstats`: one group for each encoding, with the number of its occurrences.

    An occurrence is kept by its length: one byte and two bytes in tables, anything longer in a list that
    is sorted and grouped. No instruction has two bytes, so these are always pairs; their index is
    made from signed characters, and a byte from `0x80` on makes it negative. -/

namespace Lama
open Outcome Worklist Runs Sorting

/-! ### The order of compare_idioms -/

theorem signedChar_eq (b : UInt8) : signedChar b = Int.bmod b.toNat 256 := by
  rw [signedChar, charWord, BitVec.toInt_signExtend_of_le (by decide),
    BitVec.setWidth_ofNat_of_le (by decide),
    BitVec.toInt_eq_toNat_bmod, BitVec.toNat_ofNat, Nat.mod_eq_of_lt b.toNat_lt]

theorem signedChar_injective : Function.Injective signedChar := by
  intro a b h
  rw [signedChar_eq, signedChar_eq, Int.bmod_def, Int.bmod_def] at h
  have ha := a.toNat_lt
  have hb := b.toNat_lt
  refine UInt8.toNat_inj.mp ?_
  split at h <;> split at h <;> omega

theorem compareBytes_cons (a b : UInt8) (as bs : List UInt8) : compareBytes (a :: as) (b :: bs) =
    if a ≠ b then signedChar a - signedChar b else compareBytes as bs := by
  unfold compareBytes
  rw [firstDifference]
  by_cases hab : a ≠ b
  · rw [if_pos hab, if_pos hab]
  · rw [if_neg hab, if_neg hab]
    cases firstDifference as bs with
    | some d => rfl
    | none =>
      simp only [List.length_cons]
      omega

theorem compareBytes_nil_left (bs : List UInt8) : compareBytes [] bs = -bs.length := by
  simp [compareBytes, firstDifference]

theorem compareBytes_nil_right (as : List UInt8) : compareBytes as [] = as.length := by
  cases as <;> simp [compareBytes, firstDifference]

theorem compareBytes_eq_zero_iff : ∀ as bs : List UInt8, compareBytes as bs = 0 ↔ as = bs
  | [], bs => by
    rw [compareBytes_nil_left, neg_eq_zero, Int.natCast_eq_zero, List.length_eq_zero_iff]
    exact eq_comm
  | a :: as, [] => by simp [compareBytes_nil_right]; omega
  | a :: as, b :: bs => by
    rw [compareBytes_cons, List.cons.injEq]
    split
    · rename_i hab
      rw [sub_eq_zero]
      exact ⟨fun h => absurd (signedChar_injective h) hab, fun h => absurd h.1 hab⟩
    · rename_i hab
      rw [compareBytes_eq_zero_iff as bs, not_not.mp hab]
      exact (and_iff_right rfl).symm

/-- The comparison is the lexicographic order of the signed characters. -/
theorem compareBytes_neg_iff : ∀ as bs : List UInt8,
    compareBytes as bs < 0 ↔ as.map signedChar < bs.map signedChar
  | [], [] => by simp [compareBytes_nil_left]
  | [], b :: bs => by simp [compareBytes_nil_left]; omega
  | a :: as, [] => by simp [compareBytes_nil_right]; omega
  | a :: as, b :: bs => by
    rw [compareBytes_cons, List.map_cons, List.map_cons, List.cons_lt_cons_iff, ← compareBytes_neg_iff as bs]
    split
    · rename_i hab
      have hne : signedChar a ≠ signedChar b := fun h => hab (signedChar_injective h)
      rw [sub_neg]
      exact ⟨Or.inl, fun h => h.resolve_right fun h => hne h.1⟩
    · rename_i hab
      rw [not_not.mp hab]
      simp

/-- `compare_idioms` orders the idioms as a sort needs it. -/
theorem strictWeak_compareIdioms (f : Bytefile) :
    StrictWeak fun fst snd => decide (compareIdioms f fst snd < 0) where
  irrefl a := by simp [compareIdioms, compareBytes_neg_iff]
  trans a b c := by
    simp only [decide_eq_true_eq, compareIdioms, compareBytes_neg_iff]
    exact lt_trans
  incomparable a b c := by
    simp only [decide_eq_false_iff_not, compareIdioms, compareBytes_neg_iff, not_lt]
    exact fun hab _ hbc _ => hbc.trans hab

theorem strictWeak_count : StrictWeak fun fst snd : IdiomGroup => decide (fst.count > snd.count) where
  irrefl a := by simp
  trans a b c := by
    simp only [decide_eq_true_eq]
    omega
  incomparable a b c := by
    simp only [decide_eq_false_iff_not]
    omega

/-! ### The groups of the long idioms -/

variable {f : Bytefile} {ip next : ℤ} {inst : Inst} {l : List InstAt} {fuel : ℕ} {es : List ℤ}
  {c c' : Containers} {ks : List (List UInt8)}

/-- The bytes that a group is reported with. -/
def IdiomGroup.bytes (f : Bytefile) (g : IdiomGroup) : List UInt8 := g.idiom.bytes f

theorem joins_pushIdiom (f : Bytefile) :
    Joins (IdiomGroup.bytes f) IdiomGroup.count (Idiom.bytes f) (pushIdiom f) where
  first a := ⟨⟨a, 1⟩, rfl, rfl, rfl⟩
  same gs g a h := by
    refine ⟨{ g with count := g.count + 1 }, ?_, rfl, rfl⟩
    have hzero : compareIdioms f a g.idiom = 0 := (compareBytes_eq_zero_iff ..).mpr h
    rw [pushIdiom, List.getLast?_concat]
    simp only [hzero, ne_eq, not_true_eq_false, if_false, List.dropLast_concat]
  other gs g a h := by
    refine ⟨⟨a, 1⟩, ?_, rfl, rfl⟩
    have hne : compareIdioms f a g.idiom ≠ 0 := fun hzero => h ((compareBytes_eq_zero_iff ..).mp hzero)
    rw [pushIdiom, List.getLast?_concat]
    simp only [if_pos hne]

/-- The grouping loop tallies the long idioms. -/
theorem tallies_long (sorter : Sorter) (f : Bytefile) (idioms : List Idiom) :
    Tallies (IdiomGroup.bytes f) IdiomGroup.count
      ((sorter.sort (fun fst snd => decide (compareIdioms f fst snd < 0)) idioms).foldl (pushIdiom f) [])
      (idioms.map (Idiom.bytes f)) := by
  have hperm := sorter.perm (strictWeak_compareIdioms f) idioms
  have hsorted := sorter.sorted (strictWeak_compareIdioms f) idioms
  refine Tallies.perm ?_ (.refl _) (hperm.map (Idiom.bytes f))
  refine ((joins_pushIdiom f).tallies (fun as bs => decide (compareBytes as bs < 0)) ?_ _ ?_).1
  · intro as bs h1 h2
    simp only [decide_eq_false_iff_not, compareBytes_neg_iff, not_lt] at h1 h2
    exact signedChar_injective.list_map (le_antisymm h2 h1)
  · exact List.pairwise_map.mpr hsorted

/-! ### The tables of the short idioms -/

/-- The entries of a table count the encodings `keyAt i`. -/
structure TableCounts (f : Bytefile) (keyAt : ℕ → List UInt8) (size : ℕ) (table : ℕ → ShortIdiomGroup)
    (ks : List (List UInt8)) : Prop where
  count : ∀ i < size, (table i).count = ks.count (keyAt i)
  used : ∀ i < size, (table i).idiom = none ↔ (table i).count = 0
  bytes : ∀ i < size, ∀ d, (table i).idiom = some d → d.bytes f = keyAt i

variable {keyAt : ℕ → List UInt8} {size : ℕ} {table : ℕ → ShortIdiomGroup}

/-- An encoding that has no entry changes nothing. -/
theorem TableCounts.other (h : TableCounts f keyAt size table ks) {k : List UInt8}
    (hk : ∀ i < size, keyAt i ≠ k) : TableCounts f keyAt size table (ks ++ [k]) where
  count i hi := by
    rw [List.count_append, List.count_singleton, if_neg (by simpa using (hk i hi).symm), Nat.add_zero]
    exact h.count i hi
  used := h.used
  bytes := h.bytes

/-- The entry of an encoding counts one more occurrence. -/
theorem TableCounts.add (h : TableCounts f keyAt size table ks)
    (hinj : ∀ i < size, ∀ j < size, keyAt i = keyAt j → i = j) {index : ℕ} (hindex : index < size) {d : Idiom}
    (hd : d.bytes f = keyAt index) : TableCounts f keyAt size (addAt table index d) (ks ++ [d.bytes f]) where
  count i hi := by
    rw [List.count_append, List.count_singleton, hd, addAt]
    by_cases hix : i = index
    · rw [if_pos hix, hix, if_pos (by simp), ShortIdiomGroup.add, h.count index hindex]
    · have hne : keyAt index ≠ keyAt i := fun heq => hix (hinj _ hindex _ hi heq).symm
      rw [if_neg hix, if_neg (by simpa using hne), Nat.add_zero, h.count i hi]
  used i hi := by
    rw [addAt]
    split
    · simp [ShortIdiomGroup.add]
    · exact h.used i hi
  bytes i hi e he := by
    rw [addAt] at he
    split at he
    · rename_i hix
      cases he
      rw [hix]
      exact hd
    · exact h.bytes i hi e he

theorem mem_shortGroups {g : IdiomGroup} : g ∈ shortGroups table size ↔
    ∃ i < size, ∃ d, (table i).idiom = some d ∧ g = ⟨d, (table i).count⟩ := by
  simp only [shortGroups, List.mem_filterMap, List.mem_range, Option.map_eq_some_iff, eq_comm (a := g)]

/-- The groups of a table tally the encodings it has entries for. -/
theorem TableCounts.tallies (h : TableCounts f keyAt size table ks)
    (hinj : ∀ i < size, ∀ j < size, keyAt i = keyAt j → i = j) (hall : ∀ k ∈ ks, ∃ i < size, keyAt i = k) :
    Tallies (IdiomGroup.bytes f) IdiomGroup.count (shortGroups table size) ks where
  distinct := by
    have hkeys : ((shortGroups table size).map (IdiomGroup.bytes f)) =
        ((List.range size).filter fun i => (table i).idiom.isSome).map keyAt := by
      have hlt : ∀ i ∈ List.range size, i < size := fun i => List.mem_range.mp
      revert hlt
      rw [shortGroups]
      generalize List.range size = is
      intro hlt
      induction is with
      | nil => rfl
      | cons i is ih =>
        obtain ⟨hi, his⟩ := List.forall_mem_cons.mp hlt
        cases hd : (table i).idiom with
        | none => simpa [hd] using ih his
        | some d =>
          have hbytes := h.bytes i hi d hd
          simpa [hd, IdiomGroup.bytes, hbytes] using ih his
    rw [hkeys]
    refine List.Nodup.map_on (fun i hi j hj => ?_) (List.nodup_range.filter _)
    exact hinj i (List.mem_range.mp (List.mem_of_mem_filter hi)) j
      (List.mem_range.mp (List.mem_of_mem_filter hj))
  occurs g hg := by
    obtain ⟨i, hi, d, hd, rfl⟩ := mem_shortGroups.mp hg
    have hpos : 0 < (table i).count := by
      refine Nat.pos_of_ne_zero fun hzero => ?_
      rw [(h.used i hi).mpr hzero] at hd
      cases hd
    rw [h.count i hi] at hpos
    rw [IdiomGroup.bytes, h.bytes i hi d hd]
    exact List.count_pos_iff.mp hpos
  counted g hg := by
    obtain ⟨i, hi, d, hd, rfl⟩ := mem_shortGroups.mp hg
    rw [IdiomGroup.bytes, h.bytes i hi d hd]
    exact h.count i hi
  complete k hk := by
    obtain ⟨i, hi, rfl⟩ := hall k hk
    have hpos := List.count_pos_iff.mpr hk
    rw [← h.count i hi] at hpos
    cases hd : (table i).idiom with
    | none =>
      have := (h.used i hi).mp hd
      omega
    | some d => exact ⟨⟨d, _⟩, mem_shortGroups.mpr ⟨i, hi, d, hd, rfl⟩, h.bytes i hi d hd⟩

/-! ### What the containers hold -/

/-- The encoding of an entry of the tables. -/
def oneKey (i : ℕ) : List UInt8 := [UInt8.ofNat i]

def twoKey (i : ℕ) : List UInt8 := [UInt8.ofNat (i / 256), UInt8.ofNat (i % 256)]

theorem oneKey_injective : ∀ i < 2 ^ 8, ∀ j < 2 ^ 8, oneKey i = oneKey j → i = j := by
  intro i hi j hj h
  simp only [oneKey, List.cons.injEq, and_true, ← UInt8.toNat_inj, UInt8.toNat_ofNat'] at h
  omega

theorem twoKey_injective : ∀ i < 2 ^ 16, ∀ j < 2 ^ 16, twoKey i = twoKey j → i = j := by
  intro i hi j hj h
  simp only [twoKey, List.cons.injEq, and_true, ← UInt8.toNat_inj, UInt8.toNat_ofNat'] at h
  omega

/-- The containers hold the encodings `ks`, each by its length. -/
structure Stores (f : Bytefile) (c : Containers) (ks : List (List UInt8)) : Prop where
  one : TableCounts f oneKey (2 ^ 8) c.oneByteIdioms (ks.filter fun k => k.length = 1)
  two : TableCounts f twoKey (2 ^ 16) c.twoByteIdioms (ks.filter fun k => k.length = 2)
  long : c.longIdioms.map (Idiom.bytes f) = ks.filter fun k => 2 < k.length
  nonempty : ∀ k ∈ ks, k ≠ []

theorem stores_empty (f : Bytefile) : Stores f .empty [] :=
  ⟨⟨by simp [Containers.empty], by simp [Containers.empty], by simp [Containers.empty]⟩,
    ⟨by simp [Containers.empty], by simp [Containers.empty], by simp [Containers.empty]⟩, rfl, by simp⟩

theorem exists_oneKey {k : List UInt8} (h : k.length = 1) : ∃ i < 2 ^ 8, oneKey i = k := by
  obtain ⟨x, rfl⟩ := List.length_eq_one_iff.mp h
  exact ⟨x.toNat, x.toNat_lt, by rw [oneKey, UInt8.ofNat_toNat]⟩

theorem exists_twoKey {k : List UInt8} (h : k.length = 2) : ∃ i < 2 ^ 16, twoKey i = k := by
  obtain ⟨x, y, rfl⟩ := List.length_eq_two.mp h
  have hx := x.toNat_lt
  have hy := y.toNat_lt
  refine ⟨x.toNat * 256 + y.toNat, by omega, ?_⟩
  rw [twoKey, show (x.toNat * 256 + y.toNat) / 256 = x.toNat by omega,
    show (x.toNat * 256 + y.toNat) % 256 = y.toNat by omega, UInt8.ofNat_toNat, UInt8.ofNat_toNat]

/-- An encoding has one byte, two bytes or more. -/
theorem perm_by_length : ∀ ks : List (List UInt8), (∀ k ∈ ks, k ≠ []) →
    ((ks.filter fun k => 2 < k.length) ++ (ks.filter fun k => k.length = 1) ++
      ks.filter fun k => k.length = 2).Perm ks
  | [], _ => .refl _
  | k :: ks, h => by
    obtain ⟨hk, hks⟩ := List.forall_mem_cons.mp h
    have ih := perm_by_length ks hks
    have hpos := List.length_pos_of_ne_nil hk
    simp only [List.filter_cons]
    obtain h1 | h2 | h3 : k.length = 1 ∨ k.length = 2 ∨ 2 < k.length := by omega
    · simp only [h1, decide_true, if_true, show ¬ 2 < 1 by decide, show ¬ 1 = 2 by decide, decide_false,
        Bool.false_eq_true, if_false, List.append_assoc, List.cons_append]
      exact List.perm_middle.trans (.cons k (List.append_assoc .. ▸ ih))
    · simp only [h2, decide_true, if_true, show ¬ 2 < 2 by decide, show ¬ 2 = 1 by decide, decide_false,
        Bool.false_eq_true, if_false]
      exact List.perm_middle.trans (.cons k ih)
    · simp only [h3, decide_true, if_true, show ¬ k.length = 1 by omega, show ¬ k.length = 2 by omega,
        decide_false, Bool.false_eq_true, if_false, List.cons_append]
      exact .cons k ih

/-- The groups of `main` tally what the containers hold. -/
theorem Stores.tallies (sorter : Sorter) (h : Stores f c ks) :
    Tallies (IdiomGroup.bytes f) IdiomGroup.count (idiomGroups sorter f c) ks := by
  have hlong := tallies_long sorter f c.longIdioms
  rw [h.long] at hlong
  have hone := h.one.tallies oneKey_injective fun k hk =>
    exists_oneKey (by simpa using List.of_mem_filter hk)
  have htwo := h.two.tallies twoKey_injective fun k hk =>
    exists_twoKey (by simpa using List.of_mem_filter hk)
  have hall := (hlong.append hone ?_).append htwo ?_
  · exact hall.perm (.refl _) (perm_by_length ks h.nonempty)
  · intro k hk hk'
    have h1 := List.of_mem_filter hk
    have h2 := List.of_mem_filter hk'
    simp only [decide_eq_true_eq] at h1 h2
    omega
  · intro k hk hk'
    have h2 := List.of_mem_filter hk'
    rcases List.mem_append.mp hk with hk | hk <;>
    · have h1 := List.of_mem_filter hk
      simp only [decide_eq_true_eq] at h1 h2
      omega

/-! ### One counting step -/

/-- No instruction has two bytes. -/
theorem readInst_length (h : readInst f ip = .ok (inst, next)) : next = ip + 1 ∨ ip + 5 ≤ next := by
  obtain ⟨x, -, ⟨-, hs, -⟩ | ⟨-, -, hnext⟩ | ⟨-, entry, n, -, -, hs⟩⟩ := readInst_taken h
  · have := hs.le_next
    omega
  · exact Or.inl hnext
  · have := hs.le_next
    omega

/-- The opcodes from `0x80` on are those of `STOP`. -/
theorem readInst_stop_iff {x : ℕ} (h : readInst f ip = .ok (inst, next)) (hx : rawByte f ip = .ok x) :
    x < 128 ↔ inst ≠ .stop := by
  obtain ⟨y, hy, htaken⟩ := readInst_taken h
  rw [hx] at hy
  cases hy
  rcases htaken with ⟨hop, -, -⟩ | ⟨hu, rfl, -⟩ | ⟨rfl, entry, n, rfl, -, -⟩
  · cases inst <;> simp only [Inst.IsOpcode, ne_eq, reduceCtorEq, not_false_eq_true, not_true_eq_false,
      iff_true,
      iff_false] at hop ⊢ <;> omega
  · simp only [ne_eq, reduceCtorEq, not_false_eq_true, iff_true]
    rcases hu with hu | hu | hu <;> omega
  · simp

theorem charWord_of_lt {a : ℕ} (h : a < 128) : charWord (BitVec.ofNat 32 a) = BitVec.ofNat 32 a := by
  have hmsb : ((BitVec.ofNat 32 a).setWidth 8).msb = false := by
    rw [BitVec.msb_eq_false_iff_two_mul_lt, BitVec.toNat_setWidth, BitVec.toNat_ofNat]
    omega
  rw [charWord, BitVec.signExtend_eq_setWidth_of_msb_false hmsb]
  refine BitVec.eq_of_toNat_eq ?_
  simp only [BitVec.toNat_setWidth, BitVec.toNat_ofNat]
  omega

/-- The index of two characters below `0x80`. -/
theorem pairIndex_of_lt {a b : ℕ} (ha : a < 128) (hb : b < 128) : pairIndex a b = a * 256 + b := by
  have hshift : a <<< 8 = a * 256 := Nat.shiftLeft_eq a 8
  have hor : a <<< 8 ||| b = a * 256 + b := by
    rw [← Nat.shiftLeft_add_eq_or_of_lt (by omega), hshift]
  have ha' : a % 2 ^ 32 = a := Nat.mod_eq_of_lt (by omega)
  have hb' : b % 2 ^ 32 = b := Nat.mod_eq_of_lt (by omega)
  have hshift' : a <<< 8 % 2 ^ 32 = a <<< 8 := Nat.mod_eq_of_lt (by omega)
  have hval : (BitVec.ofNat 32 a <<< 8 ||| BitVec.ofNat 32 b).toNat = a * 256 + b := by
    rw [BitVec.toNat_or, BitVec.toNat_shiftLeft, BitVec.toNat_ofNat, BitVec.toNat_ofNat,
      ha', hb', hshift', hor]
  rw [pairIndex, charWord_of_lt ha, charWord_of_lt hb, BitVec.toInt_eq_toNat_of_lt (by omega), hval]
  rfl

theorem charWord_of_ge : ∀ a : Fin 256, 128 ≤ a.val →
    (charWord (BitVec.ofNat 32 a)).msb = true ∧ (charWord (BitVec.ofNat 32 a)).getMsbD 8 = true := by
  decide +kernel

/-- A character from `0x80` on makes the index negative. -/
theorem pairIndex_neg {a b : ℕ} (ha : a < 256) (hb : b < 256) (h : ¬ (a < 128 ∧ b < 128)) :
    pairIndex a b < 0 := by
  have hmsb : (charWord (BitVec.ofNat 32 a) <<< 8 ||| charWord (BitVec.ofNat 32 b)).msb = true := by
    rw [BitVec.msb_or, BitVec.msb_shiftLeft, Bool.or_eq_true]
    by_cases hlo : a < 128
    · exact Or.inr (charWord_of_ge ⟨b, hb⟩ (by simp only; omega)).1
    · exact Or.inl (charWord_of_ge ⟨a, ha⟩ (by simp only; omega)).2
  rw [BitVec.msb_eq_toInt, decide_eq_true_eq] at hmsb
  exact hmsb

section Push
variable {d : Idiom} {x y : UInt8}

theorem filter_snoc_of {p : List UInt8 → Bool} {k : List UInt8} (h : p k = true) :
    (ks ++ [k]).filter p = ks.filter p ++ [k] := by
  rw [List.filter_append, List.filter_cons_of_pos h, List.filter_nil]

theorem filter_snoc_not {p : List UInt8 → Bool} {k : List UInt8} (h : ¬ p k = true) :
    (ks ++ [k]).filter p = ks.filter p := by
  rw [List.filter_append, List.filter_cons_of_neg h, List.filter_nil, List.append_nil]

theorem Stores.push_one (h : Stores f c ks) (hd : d.bytes f = [x]) :
    Stores f { c with oneByteIdioms := addAt c.oneByteIdioms x.toNat d } (ks ++ [d.bytes f]) where
  one := by
    rw [filter_snoc_of (by simp [hd])]
    exact h.one.add oneKey_injective x.toNat_lt (by rw [hd, oneKey, UInt8.ofNat_toNat])
  two := by
    rw [filter_snoc_not (by simp [hd])]
    exact h.two
  long := by
    rw [filter_snoc_not (by simp [hd])]
    exact h.long
  nonempty := List.forall_mem_append.mpr ⟨h.nonempty, by simp [hd]⟩

theorem Stores.push_two (h : Stores f c ks) (hd : d.bytes f = [x, y]) :
    Stores f { c with twoByteIdioms := addAt c.twoByteIdioms (x.toNat * 256 + y.toNat) d }
      (ks ++ [d.bytes f]) where
  one := by
    rw [filter_snoc_not (by simp [hd])]
    exact h.one
  two := by
    have hx := x.toNat_lt
    have hy := y.toNat_lt
    rw [filter_snoc_of (by simp [hd])]
    refine h.two.add twoKey_injective (by omega) ?_
    rw [hd, twoKey, show (x.toNat * 256 + y.toNat) / 256 = x.toNat by omega,
      show (x.toNat * 256 + y.toNat) % 256 = y.toNat by omega, UInt8.ofNat_toNat, UInt8.ofNat_toNat]
  long := by
    rw [filter_snoc_not (by simp [hd])]
    exact h.long
  nonempty := List.forall_mem_append.mpr ⟨h.nonempty, by simp [hd]⟩

theorem Stores.push_long (h : Stores f c ks) (hd : 2 < (d.bytes f).length) :
    Stores f { c with longIdioms := c.longIdioms ++ [d] } (ks ++ [d.bytes f]) where
  one := by
    rw [filter_snoc_not (by simp only [decide_eq_true_eq]; omega)]
    exact h.one
  two := by
    rw [filter_snoc_not (by simp only [decide_eq_true_eq]; omega)]
    exact h.two
  long := by
    rw [filter_snoc_of (by simpa using hd), List.map_append, h.long]
    rfl
  nonempty := by
    refine List.forall_mem_append.mpr ⟨h.nonempty, fun k hk => ?_⟩
    rw [List.mem_singleton.mp hk]
    exact List.ne_nil_of_length_pos (by omega)

end Push

/-- An occurrence stands in the code section as it was decoded. -/
structure Occurrence.Decoded (f : Bytefile) (o : Occurrence) : Prop where
  last : readInst f o.last.ip = .ok (o.last.inst, o.last.next)
  prev : ∀ a, o.prev = some a → readInst f a.ip = .ok (a.inst, a.next) ∧ a.next = o.last.ip

/-- A pair of two bytes has no `STOP` in it. -/
def Occurrence.Fits (o : Occurrence) : Prop :=
  ∀ a, o.prev = some a → o.last.next - a.ip = 2 → a.inst ≠ .stop ∧ o.last.inst ≠ .stop

theorem Idiom.length_bytes (f : Bytefile) (d : Idiom) : (d.bytes f).length = (d.end_ - d.begin).toNat := by
  rw [Idiom.bytes, List.length_map, List.length_range]

theorem codeByte_of_rawByte {x : ℕ} (h : rawByte f ip = .ok x) :
    ∃ b, f.codeByte ip = some b ∧ b.toNat = x := by
  obtain ⟨b, hb, h⟩ := bind_eq_ok.mp h
  cases h
  exact ⟨b, orStop_eq_ok.mp hb, rfl⟩

/-- What an occurrence that fits leaves in the containers. -/
theorem Stores.count (h : Stores f c ks) {o : Occurrence} (ho : o.Decoded f) (hfits : o.Fits) :
    ∃ c', countOccurrence f c o = .ok c' ∧ Stores f c' (ks ++ [o.idiom.bytes f]) := by
  obtain ⟨prev, ⟨ip, inst, next⟩⟩ := o
  obtain ⟨hi, hprev⟩ := ho
  obtain ⟨x, hx, -⟩ := readInst_taken hi
  obtain ⟨b, hb, rfl⟩ := codeByte_of_rawByte hx
  have hlen := readInst_length hi
  cases prev with
  | none =>
    simp only [countOccurrence, countInst, Occurrence.idiom, Option.getD_none]
    by_cases hone : next - ip = 1
    · have hbytes : Idiom.bytes f ⟨ip, next⟩ = [b] := by simp [Idiom.bytes, hone, hb]
      refine ⟨_, by rw [if_pos hone, hx]; rfl, h.push_one hbytes⟩
    · refine ⟨_, if_neg hone, h.push_long ?_⟩
      rw [Idiom.length_bytes]
      simp only at hlen ⊢
      omega
  | some a =>
    obtain ⟨hi', hnext⟩ := hprev a rfl
    obtain ⟨y, hy, -⟩ := readInst_taken hi'
    obtain ⟨d, hd, rfl⟩ := codeByte_of_rawByte hy
    have hlen' := readInst_length hi'
    have hpairs : Stores f { c with pairs := c.pairs ++ [(a.ip, ip)] } ks :=
      ⟨h.one, h.two, h.long, h.nonempty⟩
    simp only [countOccurrence, countPair, Occurrence.idiom, Option.getD_some]
    by_cases htwo : next - a.ip = 2
    · obtain ⟨hstop, hstop'⟩ := hfits a rfl htwo
      have hpair := pairIndex_of_lt ((readInst_stop_iff hi' hy).mpr hstop)
        ((readInst_stop_iff hi hx).mpr hstop')
      have hbytes : Idiom.bytes f ⟨a.ip, next⟩ = [d, b] := by
        simp only at hnext hlen
        have hip : ip = a.ip + 1 := by omega
        rw [hip] at hb
        simp [Idiom.bytes, htwo, List.range_succ, hd, hb]
      have hd' := d.toNat_lt
      have hb' := b.toNat_lt
      refine ⟨_, ?_, hpairs.push_two hbytes⟩
      rw [if_pos htwo, hy, ok_bind, hx, ok_bind, hpair, ensure_of (by omega), ok_bind]
      rfl
    · refine ⟨_, if_neg htwo, hpairs.push_long ?_⟩
      rw [Idiom.length_bytes]
      simp only at hlen hnext ⊢
      omega

/-- An occurrence that was counted fits. -/
theorem fits_of_count {o : Occurrence} (ho : o.Decoded f) (h : countOccurrence f c o = .ok c') : o.Fits := by
  obtain ⟨prev, ⟨ip, inst, next⟩⟩ := o
  rintro a rfl htwo
  obtain ⟨hi, hprev⟩ := ho
  obtain ⟨hi', -⟩ := hprev a rfl
  obtain ⟨x, hx, -⟩ := readInst_taken hi
  obtain ⟨y, hy, -⟩ := readInst_taken hi'
  simp only at htwo
  simp only [countOccurrence, countPair] at h
  rw [if_pos htwo, hy, ok_bind, hx, ok_bind] at h
  obtain ⟨_, hindex, -⟩ := bind_eq_ok.mp h
  rw [ensure_eq_ok] at hindex
  rw [← readInst_stop_iff hi hx, ← readInst_stop_iff hi' hy]
  obtain ⟨b, -, rfl⟩ := codeByte_of_rawByte hx
  obtain ⟨d, -, rfl⟩ := codeByte_of_rawByte hy
  by_contra hlt
  have := pairIndex_neg d.toNat_lt b.toNat_lt hlt
  omega

/-! ### The whole collection -/

theorem foldlM_stores : ∀ {os : List Occurrence} {c : Containers} {ks : List (List UInt8)},
    (∀ o ∈ os, o.Decoded f ∧ o.Fits) → Stores f c ks →
      ∃ c', os.foldlM (countOccurrence f) c = .ok c' ∧ Stores f c' (ks ++ os.map fun o => o.idiom.bytes f)
  | [], c, ks, _, h => ⟨c, rfl, by simpa using h⟩
  | o :: os, c, ks, hos, h => by
    obtain ⟨⟨ho, hfits⟩, hos⟩ := List.forall_mem_cons.mp hos
    obtain ⟨c₁, h₁, hstores⟩ := h.count ho hfits
    obtain ⟨c', h', hstores'⟩ := foldlM_stores hos hstores
    refine ⟨c', by rw [List.foldlM_cons, h₁, ok_bind, h'], ?_⟩
    rw [List.append_assoc] at hstores'
    exact hstores'

theorem fits_of_foldlM : ∀ {os : List Occurrence} {c c' : Containers}, (∀ o ∈ os, o.Decoded f) →
    os.foldlM (countOccurrence f) c = .ok c' → ∀ o ∈ os, o.Fits
  | [], _, _, _, _ => by simp
  | o :: os, c, c', hos, h => by
    obtain ⟨ho, hos⟩ := List.forall_mem_cons.mp hos
    rw [List.foldlM_cons] at h
    obtain ⟨c₁, h₁, h⟩ := bind_eq_ok.mp h
    exact List.forall_mem_cons.mpr ⟨fits_of_count ho h₁, fits_of_foldlM hos h⟩

/-- What is counted was decoded. -/
theorem decoded_of_counted {reach jump label : ℤ → Bool} (hl : LinearDecode f ip l) :
    ∀ o ∈ counted reach jump label none l, o.Decoded f := by
  intro o ho
  rw [(counted_perm none l (by simp)).mem_iff, List.mem_append, singles, pairs] at ho
  rcases ho with ho | ho
  · obtain ⟨p, hp, rfl⟩ := List.mem_map.mp ho
    refine ⟨hl.readInst p (List.mem_of_mem_filter hp), fun a ha => ?_⟩
    cases ha
  · obtain ⟨⟨a, b⟩, hab, rfl⟩ := List.mem_map.mp ho
    obtain ⟨ha, hb, hnext⟩ := hl.mem_adjacent (List.mem_of_mem_filter hab)
    refine ⟨hl.readInst b hb, fun a' ha' => ?_⟩
    cases ha'
    exact ⟨hl.readInst a ha, hnext.symm⟩

/-- The encodings of the occurrences: of the reachable instructions, and of the pairs of adjacent
    reachable instructions whose first is not marked in `jump` and whose second is not marked in
    `label`. -/
noncomputable def encodings (f : Bytefile) (es : List ℤ) (l : List InstAt) : List (List UInt8) :=
  (occurrences (reachBit f es) (jumpBit f) (labelBit l) l).map fun o => o.idiom.bytes f

/-- Each encoding has one group, which counts its occurrences, there are no other groups, and they are
    in the order of their counts. -/
structure CountsExactly (f : Bytefile) (ks : List (List UInt8)) (groups : List IdiomGroup) : Prop where
  reported : ∀ w ∈ ks, ∃ g, (groups.filter fun g => g.bytes f == w) = [g] ∧ g.count = ks.count w
  unreported : ∀ w, w ∉ ks → ∀ g ∈ groups, g.bytes f ≠ w
  ordered : groups.Pairwise fun g g' => g'.count ≤ g.count

/-- No pair of one-byte instructions that is counted has a `STOP` in it. -/
def NoStopPair (f : Bytefile) (es : List ℤ) (l : List InstAt) : Prop :=
  ∀ a b, (a, b) ∈ l.zip l.tail → paired (reachBit f es) (jumpBit f) (labelBit l) a b = true →
    b.next - a.ip = 2 → a.inst ≠ .stop ∧ b.inst ≠ .stop

theorem fits_iff : (∀ o ∈ counted (reachBit f es) (jumpBit f) (labelBit l) none l, o.Fits) ↔
    NoStopPair f es l := by
  simp only [(counted_perm none l (fun a ha => nomatch ha)).mem_iff, List.mem_append]
  constructor
  · intro h a b hab hpaired htwo
    exact h ⟨some a, b⟩ (Or.inr (List.mem_map.mpr ⟨(a, b), List.mem_filter.mpr ⟨hab, hpaired⟩, rfl⟩))
      a rfl htwo
  · rintro h o (ho | ho)
    · obtain ⟨p, -, rfl⟩ := List.mem_map.mp ho
      exact fun a ha => nomatch ha
    · obtain ⟨⟨a, b⟩, hab, rfl⟩ := List.mem_map.mp ho
      obtain ⟨hab, hpaired⟩ := List.mem_filter.mp hab
      intro a' ha' htwo
      cases ha'
      exact h a b hab hpaired htwo

/-- The groups that `main` reports for the containers. -/
theorem Stores.countsExactly (sorter : Sorter) (h : Stores f c ks) : CountsExactly f ks
    (sorter.sort (fun fst snd => decide (fst.count > snd.count)) (idiomGroups sorter f c)) := by
  have hperm := sorter.perm strictWeak_count (idiomGroups sorter f c)
  have htally := (h.tallies sorter).perm hperm.symm (.refl ks)
  refine ⟨fun w hw => htally.exactly_one hw, fun w hw g hg heq => hw (heq ▸ htally.occurs g hg), ?_⟩
  refine (sorter.sorted strictWeak_count _).imp fun {a b} hab => ?_
  simp only [decide_eq_false_iff_not] at hab
  omega

/-- On a code section whose linear decode is complete and has the reachable instructions on it,
    `bcstats` reports each encoding once with the number of its occurrences if and only if every label
    is in the code section and no counted pair of one-byte instructions has a `STOP` in it. -/
theorem counts_exactly_iff (sorter : Sorter) (hf : CodePlaced f) (hes : getEntrypoints f = .ok es)
    (hl : LinearDecode f 0 l) (hreach : ∀ o ∈ EntryReachable f es, ∃ p ∈ l, p.ip = o)
    (hfuel : es.length + (getCodeSize f).toNat ≤ fuel) :
    (∃ groups, bcstats sorter fuel f = .ok groups ∧ CountsExactly f (encodings f es l) groups) ↔
      LabelsInside f l ∧ NoStopPair f es l := by
  have hdecoded : ∀ o ∈ counted (reachBit f es) (jumpBit f) (labelBit l) none l, o.Decoded f :=
    decoded_of_counted hl
  constructor
  · rintro ⟨groups, h, -⟩
    obtain ⟨c, hc, -⟩ := bind_eq_ok.mp h
    obtain ⟨l', hl', hin, hcount⟩ := collectIdioms_ok hf hes hc
    cases hl.unique hl'
    exact ⟨hin, fits_iff.mp (fits_of_foldlM hdecoded hcount)⟩
  · rintro ⟨hin, hstop⟩
    have hfits := fits_iff.mpr hstop
    obtain ⟨c, hc, hstores⟩ := foldlM_stores (fun o ho => ⟨hdecoded o ho, hfits o ho⟩) (stores_empty f)
    rw [← collectIdioms_eq hf hes hl hreach hin hfuel] at hc
    refine ⟨_, by rw [bcstats, hc]; rfl, ?_⟩
    have hcount := hstores.countsExactly sorter
    rw [List.nil_append] at hcount
    -- the loop counts the occurrences in its own order
    have hperm : ((counted (reachBit f es) (jumpBit f) (labelBit l) none l).map
        fun o => o.idiom.bytes f).Perm (encodings f es l) :=
      (counted_perm none l (fun a ha => nomatch ha)).map _
    refine ⟨fun w hw => ?_, fun w hw => hcount.unreported w fun hmem => hw (hperm.mem_iff.mp hmem),
      hcount.ordered⟩
    obtain ⟨g, hg, hone⟩ := hcount.reported w (hperm.mem_iff.mpr hw)
    exact ⟨g, hg, hone.trans (hperm.count_eq w)⟩

theorem counts_exactly_iff_loopCode :
    (∃ groups, bcstats insertion 21 (program 0 loopCode) = .ok groups ∧
      CountsExactly (program 0 loopCode) (encodings (program 0 loopCode) [0]
        [⟨0, .begin 0 0, 9⟩, ⟨9, .cjmpz 19, 14⟩, ⟨14, .jmp 9, 19⟩, ⟨19, .end_, 20⟩]) groups) ↔
      LabelsInside (program 0 loopCode)
        [⟨0, .begin 0 0, 9⟩, ⟨9, .cjmpz 19, 14⟩, ⟨14, .jmp 9, 19⟩, ⟨19, .end_, 20⟩] ∧
      NoStopPair (program 0 loopCode) [0]
        [⟨0, .begin 0 0, 9⟩, ⟨9, .cjmpz 19, 14⟩, ⟨14, .jmp 9, 19⟩, ⟨19, .end_, 20⟩] := by
  refine counts_exactly_iff insertion ⟨by decide, by decide, by decide, by decide⟩ (by decide +kernel) ?_
    (fun o ho => ?_) (by decide)
  · refine .step (by decide) (by decide +kernel) (.step (by decide) (by decide +kernel) ?_)
    refine .step (by decide) (by decide +kernel) (.step (by decide) (by decide +kernel) ?_)
    exact .done
  · obtain ⟨-, -, hmem, -⟩ := mem_of_closedIn (l := [0, 9, 14, 19]) (by decide +kernel) (by decide) ho
    have hall : ∀ o ∈ [0, 9, 14, 19], ∃ p ∈ ([⟨0, .begin 0 0, 9⟩, ⟨9, .cjmpz 19, 14⟩, ⟨14, .jmp 9, 19⟩,
        ⟨19, .end_, 20⟩] : List InstAt), p.ip = o := by decide
    exact hall o hmem

theorem bcstats_error {e : Stop} (h : (collectIdioms fuel f).map (·.pairs) = .error e) (sorter : Sorter) :
    bcstats sorter fuel f = .error e := by
  cases hc : collectIdioms fuel f with
  | ok c =>
    rw [hc] at h
    cases h
  | error e' =>
    rw [hc] at h
    cases h
    rw [bcstats, hc]
    rfl

/-- `DROP; STOP`. -/
def dropStop : List UInt8 := [24, 240]

/-- `END; JMP 100`. -/
def strayJump : List UInt8 := 22 :: 21 :: intBytes 100

/-- The index of the first pair is negative, and the label of the second program, which is not
    reachable, is outside the bitmap: nothing is reported. -/
theorem reports_lost : (∃ l, LinearDecode (program 0 dropStop) 0 l ∧
      (∀ o ∈ EntryReachable (program 0 dropStop) [0], ∃ p ∈ l, p.ip = o) ∧ pairIndex 24 240 = -16 ∧
      ∀ sorter, bcstats sorter 3 (program 0 dropStop) = .error (.undefined "two_byte_idioms")) ∧
    ∃ l, LinearDecode (program 0 strayJump) 0 l ∧
      (∀ o ∈ EntryReachable (program 0 strayJump) [0], ∃ p ∈ l, p.ip = o) ∧
      ∀ sorter, bcstats sorter 7 (program 0 strayJump) = .error (.uncaught "std::out_of_range") := by
  refine ⟨⟨[⟨0, .drop, 1⟩, ⟨1, .stop, 2⟩], ?_, fun o ho => ?_, by decide, bcstats_error (by decide +kernel)⟩,
    [⟨0, .end_, 1⟩, ⟨1, .jmp 100, 6⟩], ?_, fun o ho => ?_, bcstats_error (by decide +kernel)⟩
  · exact .step (by decide) (by decide +kernel) (.step (by decide) (by decide +kernel) .done)
  · obtain ⟨-, -, hmem, -⟩ := mem_of_closedIn (l := [0, 1]) (by decide +kernel) (by decide) ho
    have hall : ∀ o ∈ [0, 1], ∃ p ∈ ([⟨0, .drop, 1⟩, ⟨1, .stop, 2⟩] : List InstAt), p.ip = o := by decide
    exact hall o hmem
  · exact .step (by decide) (by decide +kernel) (.step (by decide) (by decide +kernel) .done)
  · obtain ⟨-, -, hmem, -⟩ := mem_of_closedIn (l := [0]) (by decide +kernel) (by decide) ho
    have hall : ∀ o ∈ [0], ∃ p ∈ ([⟨0, .end_, 1⟩, ⟨1, .jmp 100, 6⟩] : List InstAt), p.ip = o := by decide
    exact hall o hmem

end Lama

import PlvmHomeworks.Lib.Keys
import PlvmHomeworks.Library.Compare

/-! `Lcompare` orders the finite values, as long as no difference is so large that `BOX` turns its
    sign: integers, then objects by their types, heads, lengths and fields, then pointers out of the
    heap. -/

namespace Lama
open Unfolding Keys

/-- What `Lcompare` looks at in a value that it does not recurse into, in this order. -/
def Label.key (fields : ℕ) : Label → List ℤ
  | .int v => [0, (unbox v).toInt]
  | .string s => 1 :: (stringTag.toNat : ℤ) :: ((Lama.cut s).map (fun c => (c.toNat : ℤ)) ++ [0])
  | .object type head => [1, type.tag.toNat, head.toNat, fields]
  | .foreign p => [2, p.toNat]

/-- The numbers in a value are so small that their differences have 31 bits. -/
def Label.Narrow : Label → Prop
  | .int v => -2 ^ 29 ≤ (unbox v).toInt ∧ (unbox v).toInt < 2 ^ 29
  | .foreign p => p.toNat < 2 ^ 30
  | .string _ => True
  | .object _ head => head.toNat < 2 ^ 30

/-- What `Lcompare` looks at in a value, down to this depth. -/
def valueKey {V : Type*} (view : View V Label) : ℕ → V → List ℤ
  | 0, _ => []
  | depth + 1, x => (view x).1.key (view x).2.length ++ ((view x).2.map (valueKey view depth)).flatten

/-! ### One comparison -/

/-- The sign of an answer is that of the difference. -/
theorem answer_sub {a b : Word} (hlo : -2 ^ 30 ≤ a.toInt - b.toInt) (hhi : a.toInt - b.toInt < 2 ^ 30) :
    (unbox (box (a - b))).toInt = a.toInt - b.toInt := by
  have hsub : (a - b).toInt = a.toInt - b.toInt := by
    rw [BitVec.toInt_sub, Int.bmod_eq_of_le (by omega) (by omega)]
  rw [unbox_box, hsub, Int.bmod_eq_of_le (by omega) (by omega)]

theorem answer_sub_nat {a b : Word} (ha : a.toNat < 2 ^ 30) (hb : b.toNat < 2 ^ 30) :
    (unbox (box (a - b))).toInt = (a.toNat : ℤ) - b.toNat := by
  have hainto : a.toInt = a.toNat := BitVec.toInt_eq_toNat_of_lt (by omega)
  have hbinto : b.toInt = b.toNat := BitVec.toInt_eq_toNat_of_lt (by omega)
  rw [← hainto, ← hbinto]
  exact answer_sub (by omega) (by omega)

theorem answer_zero_iff {c : Word} (hc : unboxed c = true) : (unbox c).toInt = 0 ↔ c = box 0 := by
  rw [← unbox_toInt_inj hc (unboxed_box 0)]
  rfl

/-- `strcmp` decides by the first characters that differ. -/
theorem strcmp_decides : ∀ {s t : List Word}, (∀ c ∈ s, c.toNat < 256 ∧ c ≠ 0) →
    (∀ c ∈ t, c.toNat < 256 ∧ c ≠ 0) →
    Decides (s.map (fun c => (c.toNat : ℤ)) ++ [0]) (t.map (fun c => (c.toNat : ℤ)) ++ [0])
      (unbox (box (strcmp s t))).toInt
  | [], [], _, _ => .equal rfl rfl
  | [], b :: t, _, ht => by
    obtain ⟨hlt, hne⟩ := ht b List.mem_cons_self
    have hpos : (0 : ℤ) ≠ b.toNat := fun h0 => hne (BitVec.eq_of_toNat_eq (Int.ofNat_inj.mp h0.symm))
    rw [strcmp, answer_sub_nat (by decide) (by omega)]
    exact decides_sub hpos
  | a :: s, [], hs, _ => by
    obtain ⟨hlt, hne⟩ := hs a List.mem_cons_self
    have hpos : (a.toNat : ℤ) ≠ 0 := fun h0 => hne (BitVec.eq_of_toNat_eq (Int.ofNat_inj.mp h0))
    rw [strcmp, ← BitVec.sub_zero a, answer_sub_nat (by omega) (by decide), BitVec.sub_zero]
    exact decides_sub hpos
  | a :: s, b :: t, hs, ht => by
    rw [strcmp]
    split
    · next hab =>
      subst hab
      exact (strcmp_decides (fun c hc => hs c (List.mem_cons_of_mem _ hc))
        fun c hc => ht c (List.mem_cons_of_mem _ hc)).cons _
    · next hab =>
      have hlt := (hs a List.mem_cons_self).1
      have hlt' := (ht b List.mem_cons_self).1
      have hne : (a.toNat : ℤ) ≠ b.toNat := fun heq => hab (BitVec.eq_of_toNat_eq (Int.ofNat_inj.mp heq))
      rw [answer_sub_nat (by omega) (by omega)]
      exact decides_sub hne

section Labels
variable {k l : ℕ} {a b : Label} {c : Word}

/-- Values of different sorts: integers first, pointers out of the heap last. -/
theorem answer_less {s t : ℕ} (hst : (s : ℤ) < t) {k l : List ℤ} :
    Decides ((s : ℤ) :: k) (t :: l) (unbox (box (-1))).toInt :=
  .less (by decide) (precedes_of_lt hst)

theorem answer_greater {s t : ℕ} (hst : (t : ℤ) < s) {k l : List ℤ} :
    Decides ((s : ℤ) :: k) (t :: l) (unbox (box 1)).toInt :=
  .greater (by decide) (precedes_of_lt hst)

/-- Values of different types. -/
theorem answer_tag (type type' : LamaType) (hne : type ≠ type') {k l : List ℤ} :
    Decides ((type.tag.toNat : ℤ) :: k) (type'.tag.toNat :: l)
      (unbox (box (type.tag - type'.tag))).toInt := by
  have hlt := type.tag_lt
  have hlt' := type'.tag_lt
  have htag : (type.tag.toNat : ℤ) ≠ type'.tag.toNat := fun heq =>
    hne (LamaType.tag_inj.mp (BitVec.eq_of_toNat_eq (Int.ofNat_inj.mp heq)))
  rw [answer_sub_nat (by omega) (by omega)]
  exact decides_sub htag

/-- Where the labels decide, they decide by their keys. -/
theorem compareLabels_decides (hs : a.Sound) (hs' : b.Sound) (hn : a.Narrow) (hn' : b.Narrow)
    (hk : k < 2 ^ 30) (hl : l < 2 ^ 30) (hc : compareLabels k l a b = some c) :
    Decides (a.key k) (b.key l) (unbox c).toInt := by
  cases a with
  | int v =>
    cases b with
    | int w =>
      obtain ⟨hlo, hhi⟩ := hn
      obtain ⟨hlo', hhi'⟩ := hn'
      cases hc
      rw [answer_sub (by omega) (by omega)]
      refine Decides.cons ?_ 0
      by_cases heq : (unbox v).toInt = (unbox w).toInt
      · exact .equal (by omega) (by rw [heq])
      · exact decides_sub heq
    | string t =>
      cases hc
      exact answer_less (by decide)
    | object type head =>
      cases hc
      exact answer_less (by decide)
    | foreign q =>
      cases hc
      exact answer_less (by decide)
  | string s =>
    cases b with
    | int w =>
      cases hc
      exact answer_greater (by decide)
    | string t =>
      cases hc
      exact ((strcmp_decides (cut_bytes hs) (cut_bytes hs')).cons _).cons _
    | object type head =>
      cases hc
      exact (answer_tag .string _ hs'.symm).cons 1
    | foreign q =>
      cases hc
      exact answer_less (by decide)
  | object type head =>
    cases b with
    | int w =>
      cases hc
      exact answer_greater (by decide)
    | string t =>
      cases hc
      exact (answer_tag _ .string hs).cons 1
    | object type' head' =>
      refine Decides.cons ?_ 1
      simp only [compareLabels] at hc
      split at hc
      · next hne =>
        cases hc
        exact answer_tag _ _ hne
      · next htype =>
        rw [not_not.mp htype]
        refine Decides.cons ?_ _
        split at hc
        · next hne =>
          cases hc
          have hhead : (head.toNat : ℤ) ≠ head'.toNat := fun heq =>
            hne (BitVec.eq_of_toNat_eq (Int.ofNat_inj.mp heq))
          rw [answer_sub_nat hn hn']
          exact decides_sub hhead
        · next hhead =>
          rw [not_not.mp hhead]
          refine Decides.cons ?_ _
          split at hc
          · next hne =>
            cases hc
            have hk32 : (BitVec.ofNat 32 k).toNat = k := by
              rw [BitVec.toNat_ofNat, Nat.mod_eq_of_lt (by omega)]
            have hl32 : (BitVec.ofNat 32 l).toNat = l := by
              rw [BitVec.toNat_ofNat, Nat.mod_eq_of_lt (by omega)]
            rw [answer_sub_nat (by omega) (by omega), hk32, hl32]
            exact decides_sub (Int.ofNat_inj.not.mpr hne)
          · cases hc
    | foreign q =>
      cases hc
      exact answer_less (by decide)
  | foreign p =>
    cases b with
    | int w =>
      cases hc
      exact answer_greater (by decide)
    | string t =>
      cases hc
      exact answer_greater (by decide)
    | object type head =>
      cases hc
      exact answer_greater (by decide)
    | foreign q =>
      cases hc
      rw [answer_sub_nat hn hn']
      refine Decides.cons ?_ 2
      by_cases heq : (p.toNat : ℤ) = q.toNat
      · exact .equal (by omega) (by rw [heq])
      · exact decides_sub heq

end Labels

section Values
variable {V : Type*} {view : View V Label} {compare : V → V → Option Word} {key : V → List ℤ}
  {depth : ℕ} {x y : V} {c : Word} {S : Set V}

/-- The first fields that differ decide. -/
theorem compareFields_decides : ∀ {xs ys : List V} {c : Word}, xs.length = ys.length →
    (∀ x ∈ xs, ∀ y ∈ ys, ∀ c, compare x y = some c →
      Decides (key x) (key y) (unbox c).toInt ∧ unboxed c = true) →
    compareFields compare xs ys = some c →
    Decides (xs.map key).flatten (ys.map key).flatten (unbox c).toInt ∧ unboxed c = true
  | [], [], _, _, _, hc => by
    cases hc
    exact ⟨.equal rfl rfl, rfl⟩
  | x :: xs, y :: ys, c, hlen, hfields, hc => by
    cases hd : compare x y with
    | none =>
      rw [compareFields, hd] at hc
      cases hc
    | some d =>
      rw [compareFields_cons hd] at hc
      obtain ⟨hfirst, hu⟩ := hfields x List.mem_cons_self y List.mem_cons_self d hd
      simp only [List.map_cons, List.flatten_cons]
      split at hc
      · next hz =>
        obtain ⟨hrest, hu'⟩ := compareFields_decides (Nat.succ.inj hlen)
          (fun a ha b hb => hfields a (List.mem_cons_of_mem _ ha) b (List.mem_cons_of_mem _ hb)) hc
        exact ⟨hfirst.append_of_zero ((answer_zero_iff hu).mpr hz) hrest, hu'⟩
      · next hz =>
        cases hc
        exact ⟨hfirst.append (fun h => hz ((answer_zero_iff hu).mp h)) _ _, hu⟩

/-- Every answer is an integer. -/
theorem compareLabels_unboxed {k l : ℕ} {a b : Label} (hc : compareLabels k l a b = some c) :
    unboxed c = true := by
  cases a <;> cases b <;> simp only [compareLabels] at hc
  all_goals try (cases hc; exact unboxed_box _)
  split at hc
  · cases hc
    exact unboxed_box _
  · split at hc
    · cases hc
      exact unboxed_box _
    · split at hc
      · cases hc
        exact unboxed_box _
      · cases hc

/-- An answer is what the keys decide. -/
theorem compareValues_decides [DecidableEq V] (hS : Comparable view S (2 ^ 31))
    (hnarrow : ∀ x ∈ S, (view x).1.Narrow) (hx : x ∈ S) (hy : y ∈ S)
    (hc : compareValues view depth x y = some c) :
    Decides (valueKey view depth x) (valueKey view depth y) (unbox c).toInt ∧ unboxed c = true := by
  induction depth generalizing x y c with
  | zero => cases hc
  | succ depth ih =>
    rw [compareValues] at hc
    split at hc
    · next heq =>
      cases hc
      exact ⟨.equal rfl (by rw [heq]), rfl⟩
    · have hlen := hS.length x hx
      have hlen' := hS.length y hy
      rw [valueKey, valueKey]
      split at hc
      · next d hd =>
        cases hc
        have hu := compareLabels_unboxed hd
        have hdec := compareLabels_decides (hS.sound x hx) (hS.sound y hy) (hnarrow x hx)
          (hnarrow y hy) hlen hlen' hd
        refine ⟨?_, hu⟩
        by_cases hz : c = box 0
        · -- two leaves
          subst hz
          obtain ⟨-, hleaf, hleaf'⟩ := compareLabels_zero (hS.sound x hx) (hS.sound y hy)
            (hS.below x hx) (hS.below y hy) (by omega) (by omega) hd
          rw [hS.leaf x hx hleaf, hS.leaf y hy hleaf'] at hdec ⊢
          simpa using hdec
        · exact hdec.append (fun h => hz ((answer_zero_iff hu).mp h)) _ _
      · next hnone =>
        obtain ⟨type, head, hlx, hly, hcount⟩ := compareLabels_none hnone
        obtain ⟨hdec, hu⟩ := compareFields_decides hcount (fun a ha b hb c hc =>
          ih (hS.closed x hx a ha) (hS.closed y hy b hb) hc) hc
        rw [hlx, hly, hcount]
        exact ⟨hdec.append_left _, hu⟩

end Values

section Heap
variable {h : MemoryChunk} {S : Set Word} {v w : Word} {depth : ℕ}

theorem Label.Narrow.below {a : Label} (hn : a.Narrow) : a.Below (2 ^ 31) := by
  cases a with
  | int v => trivial
  | string s => trivial
  | foreign p => exact Nat.lt_trans hn (by decide)
  | object type head => exact Nat.lt_trans hn (by decide)

/-- The sign of `Lcompare` is the lexicographic order of what it looks at, so that it orders finite
    values. -/
theorem lcompare_orders (hS : Readable h S) (hnarrow : ∀ v ∈ S, (valueView h v).1.Narrow)
    (hv : v ∈ S) (hw : w ∈ S) (hfinite : EndsWithin (valueView h) depth v) :
    ∃ c, lcompare h depth v w = some c ∧
      ((unbox c).toInt < 0 ↔ valueKey (valueView h) depth v < valueKey (valueView h) depth w) ∧
      ((unbox c).toInt = 0 ↔ valueKey (valueView h) depth v = valueKey (valueView h) depth w) ∧
      (0 < (unbox c).toInt ↔ valueKey (valueView h) depth w < valueKey (valueView h) depth v) := by
  have hcmp := hS.comparable fun v hv => (hnarrow v hv).below
  obtain ⟨c, hc⟩ := compareValues_answers (y := w) hfinite
  obtain ⟨hdec, -⟩ := compareValues_decides hcmp hnarrow hv hw hc
  exact ⟨c, by rw [lcompare_eq hS hv hw, hc], hdec.neg_iff, hdec.zero_iff, hdec.pos_iff⟩

end Heap

/-- Two S-expressions, compared field by field. -/
theorem lcompare_orders_sharingHeap : ∃ c, lcompare sharingHeap 2 (ptr 21) (ptr 26) = some c ∧
    ((unbox c).toInt < 0 ↔
      valueKey (valueView sharingHeap) 2 (ptr 21) < valueKey (valueView sharingHeap) 2 (ptr 26)) ∧
    ((unbox c).toInt = 0 ↔
      valueKey (valueView sharingHeap) 2 (ptr 21) = valueKey (valueView sharingHeap) 2 (ptr 26)) ∧
    (0 < (unbox c).toInt ↔
      valueKey (valueView sharingHeap) 2 (ptr 26) < valueKey (valueView sharingHeap) 2 (ptr 21)) := by
  refine lcompare_orders sharingWords_readable ?_ ?_ ?_ ?_
  · intro v hv
    rcases mem_sharingWords.mp hv with rfl | rfl | rfl | rfl
    · exact (by decide : -2 ^ 29 ≤ (unbox 3).toInt ∧ (unbox 3).toInt < 2 ^ 29)
    · exact trivial
    · exact (by decide : (7 : Word).toNat < 2 ^ 30)
    · exact (by decide : (7 : Word).toNat < 2 ^ 30)
  · exact mem_sharingWords.mpr (by decide)
  · exact mem_sharingWords.mpr (by decide)
  · have hfields : (valueView sharingHeap (ptr 21)).2 = [3, ptr 18] := by decide
    have hleaves : (valueView sharingHeap 3).2 = [] ∧ (valueView sharingHeap (ptr 18)).2 = [] := by decide
    simp only [EndsWithin, hfields, List.forall_mem_cons, hleaves, List.not_mem_nil, false_implies,
      implies_true, and_self]

end Lama

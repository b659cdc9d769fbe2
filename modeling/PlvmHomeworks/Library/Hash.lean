import PlvmHomeworks.Library.Compare

/-! `Lhash`: the hash of a value, of its first levels.

    It comes to an end on every value, also on a cyclic one, and depends on the value alone: a collection
    does not change it, and what `Lcompare` finds equal has one hash if no string has a NUL inside. -/

namespace Lama
open Unfolding

/-! ### The code -/

/-- `HASH_DEPTH`. -/
def hashDepth : ℕ := 3

/-- `HASH_APPEND`: the halves of the sum change places. -/
def hashAppend (acc x : Word) : Word := (acc + x) <<< 16 ||| (acc + x) >>> 16

/-- The characters of a string. -/
def hashChars (acc : Word) (s : List Word) : Word :=
  s.foldl (fun acc c => hashAppend acc (charWord c)) acc

/-- The loop of `inner_hash` over `n` words of the contents, from word `i` on. -/
def hashContents (h : MemoryChunk) (hash : Word → Word → Option Word) (a : ℕ) :
    ℕ → ℕ → Word → Option Word
  | 0, _, acc => some acc
  | n + 1, i, acc => do hashContents h hash a n (i + 1) (← hash acc (← h.load (ptrAdd a i)))

/-- `inner_hash`, with the number of levels left. -/
def innerHash (h : MemoryChunk) : ℕ → Word → Word → Option Word
  | 0, acc, _ => some acc
  | levels + 1, acc, p =>
    if unboxed p then some (hashAppend acc (unbox p))
    else if isValidHeapPointer h p then do
      let a ← aligned p
      let x ← h.load (ptrAdd a (-2))
      let l := lenOf x
      let acc := hashAppend (hashAppend acc (tagOf x)) (BitVec.ofNat 32 l)
      match LamaType.ofTag (tagOf x) with
      | some .string => return hashChars acc (← cStringOf h a)
      | some .closure =>
        let entry ← h.load (ptrAdd a (0 : ℕ))
        hashContents h (innerHash h levels) a (l - 1) 1 (hashAppend acc entry)
      | some .array => hashContents h (innerHash h levels) a l 0 acc
      | some .sexp =>
        let tag ← h.load (ptrAdd a (0 : ℕ))
        hashContents h (innerHash h levels) a l 1 (hashAppend acc tag)
      | none => none
    else some (hashAppend acc p)

/-- `Lhash`. -/
def lhash (h : MemoryChunk) (p : Word) : Option Word := do
  return box (0x3fffff &&& (← innerHash h (hashDepth + 1) 0 p))

/-! ### The hash of a value -/

/-- What a label and the number of fields add. -/
def hashLabel (fields : ℕ) (acc : Word) : Label → Word
  | .int v => hashAppend acc (unbox v)
  | .foreign p => hashAppend acc p
  | .string s => hashChars (hashAppend (hashAppend acc stringTag) (BitVec.ofNat 32 s.length)) (cut s)
  | .object .array _ => hashAppend (hashAppend acc arrayTag) (BitVec.ofNat 32 fields)
  | .object .closure entry =>
    hashAppend (hashAppend (hashAppend acc closureTag) (BitVec.ofNat 32 (fields + 1))) entry
  | .object type tag => hashAppend (hashAppend (hashAppend acc type.tag) (BitVec.ofNat 32 fields)) tag

variable {V W : Type*}

/-- The hash of a vertex of a view, of this many levels. -/
def hashValues (view : View V Label) : ℕ → Word → V → Word
  | 0, acc, _ => acc
  | levels + 1, acc, x =>
    (view x).2.foldl (hashValues view levels) (hashLabel (view x).2.length acc (view x).1)

theorem foldl_eq_of_forall₂ {α β γ : Type*} {f : γ → α → γ} {g : γ → β → γ} {xs : List α} {ys : List β}
    (heq : List.Forall₂ (fun x y => ∀ acc, f acc x = g acc y) xs ys) :
    ∀ acc, xs.foldl f acc = ys.foldl g acc := by
  induction heq with
  | nil => exact fun _ => rfl
  | cons hxy _ ih =>
    intro acc
    rw [List.foldl_cons, List.foldl_cons, hxy, ih]

/-- The hash depends on what the vertex unfolds to. -/
theorem hashValues_congr {view : View V Label} {view' : View W Label} {levels : ℕ} {x : V} {y : W}
    (heq : unfold view levels x = unfold view' levels y) (acc : Word) :
    hashValues view levels acc x = hashValues view' levels acc y := by
  induction levels generalizing x y acc with
  | zero => rfl
  | succ levels ih =>
    obtain ⟨hlabel, hfields⟩ := unfold_succ_eq_iff.mp heq
    rw [hashValues, hashValues, hlabel, hfields.length_eq]
    exact foldl_eq_of_forall₂ (hfields.imp fun a b hab => ih hab) _

variable {h h' : MemoryChunk} {S S' : Set Word} {p : ℕ} {v v' w : Word}

/-- `hashContents` goes over the fields. -/
theorem hashContents_eq (ho : ReadableObject h p) {hash : Word → Word → Option Word}
    {hash' : Word → Word → Word} : ∀ {n i : ℕ} (acc : Word), headerSize + i + n ≤ objectWords (h.words p) →
    (∀ acc, ∀ w ∈ (List.range' i n).map (contentAt h p), hash acc w = some (hash' acc w)) →
    hashContents h hash (h.begin + p + headerSize) n i acc =
      some (((List.range' i n).map (contentAt h p)).foldl hash' acc) := by
  intro n
  induction n with
  | zero => intro i acc _ _; rfl
  | succ n ih =>
    intro i acc hn hhash
    rw [List.range'_succ, List.map_cons] at hhash
    rw [hashContents, ho.load (by omega), List.range'_succ, List.map_cons, List.foldl_cons,
      Option.bind_eq_bind, Option.bind_some, hhash acc _ List.mem_cons_self, Option.bind_some,
      ih _ (by omega) fun acc w hw => hhash acc w (List.mem_cons_of_mem _ hw)]

/-- The fields of an aggregate. -/
theorem hashContents_fields (ho : ReadableObject h p) {type : LamaType} (ht : typeAt h p = some type)
    (hne : type ≠ .string) {hash : Word → Word → Option Word} {hash' : Word → Word → Word} (acc : Word)
    (hhash : ∀ acc, ∀ w ∈ fieldWords h p, hash acc w = some (hash' acc w)) :
    hashContents h hash (h.begin + p + headerSize) (type.fieldCount (lenOf (h.words p))) type.firstIndex
      acc = some ((fieldWords h p).foldl hash' acc) := by
  obtain ⟨-, hwords⟩ := ho.shape ht hne
  rw [ho.fieldWords ht hne] at hhash ⊢
  exact hashContents_eq ho acc (Nat.le_of_eq hwords.symm) hhash

/-- On words that can be read, `inner_hash` is the hash of their values. -/
theorem innerHash_eq {levels : ℕ} {acc : Word} (hS : Readable h S) (hv : v ∈ S) :
    innerHash h levels acc v = some (hashValues (valueView h) levels acc v) := by
  induction levels generalizing v acc with
  | zero => rfl
  | succ levels ih =>
    cases hS v hv with
    | int hu =>
      rw [innerHash, if_pos hu, hashValues, valueView_int hu]
      rfl
    | foreign hu hf =>
      rw [innerHash, if_neg (by simp [hu]), if_neg (by simp [hf]), hashValues, valueView_foreign hu hf]
      rfl
    | @object p ho hfields =>
      obtain ⟨type, ht, -⟩ := objectWords_spec ho.object.pos
      have hcall : ∀ acc, ∀ w ∈ fieldWords h p,
          innerHash h levels acc w = some (hashValues (valueView h) levels acc w) :=
        fun acc w hw => ih (hfields w hw)
      rw [innerHash, if_neg (by simp [unboxed_contentWord]), if_pos ho.valid, hashValues, ho.view, labelAt,
        show typeAt h p = some type from ht]
      simp only [ho.aligned, ho.load_header, Option.bind_eq_bind, Option.bind_some, ht]
      have htag := ofTag_eq_some_iff.mp ht
      cases type with
      | string =>
        rw [ho.cStringOf ht, fieldWords_string ht]
        simp only [hashLabel, List.foldl_nil, Option.bind_some, htag, chars, List.length_map,
          List.length_range]
        rfl
      | array =>
        have hfields := hashContents_fields ho ht (by decide) (hashAppend (hashAppend acc (tagOf (h.words p)))
          (BitVec.ofNat 32 (lenOf (h.words p)))) hcall
        simp only [hashLabel, ho.fieldWords_length ht (by decide), LamaType.fieldCount]
        rw [← show tagOf (h.words p) = arrayTag from htag]
        exact hfields
      | sexp =>
        have hfields := hashContents_fields ho ht (by decide) (hashAppend (hashAppend (hashAppend acc
          (tagOf (h.words p))) (BitVec.ofNat 32 (lenOf (h.words p)))) (contentAt h p 0)) hcall
        rw [ho.load_head ht rfl (by decide)]
        simp only [hashLabel, ho.fieldWords_length ht (by decide), LamaType.fieldCount, Option.bind_some,
          ← htag]
        exact hfields
      | closure =>
        have hfields := hashContents_fields ho ht (by decide) (hashAppend (hashAppend (hashAppend acc
          (tagOf (h.words p))) (BitVec.ofNat 32 (lenOf (h.words p)))) (contentAt h p 0)) hcall
        have hpos := ho.entry ht
        rw [ho.load_head ht rfl (by decide)]
        simp only [hashLabel, ho.fieldWords_length ht (by decide), LamaType.fieldCount, Option.bind_some,
          Nat.sub_add_cancel hpos]
        rw [← show tagOf (h.words p) = closureTag from htag]
        exact hfields

/-- The strings in `S` have no NUL inside. -/
def NoNul (view : View V Label) (S : Set V) : Prop :=
  ∀ x ∈ S, ∀ s, (view x).1 = .string s → ∀ c ∈ s, c ≠ 0

theorem cut_eq_self {s : List Word} (hs : ∀ c ∈ s, c ≠ 0) : cut s = s :=
  List.takeWhile_eq_self_iff.mpr fun c hc => by simpa using hs c hc

/-- Without NULs, values that `Lcompare` cannot tell apart are the same. -/
theorem EqualValues.same (hS : Readable h S) (hnul : NoNul (valueView h) S) (hv : v ∈ S) (hw : w ∈ S)
    (heq : EqualValues h v w) : SameValue h h v w := by
  have hcut : ∀ x ∈ S, (valueView h x).1.cut = (valueView h x).1 := by
    intro x hx
    cases hl : (valueView h x).1 with
    | string s => exact congrArg Label.string (cut_eq_self (hnul x hx s hl))
    | _ => rfl
  have hsim : Simulation (valueView h) (valueView h) fun v w =>
      v ∈ S ∧ w ∈ S ∧ EqualValues h v w := by
    rintro v w ⟨hv, hw, heq⟩
    obtain ⟨hlabel, hfields⟩ := heq.children
    refine ⟨(hcut v hv).symm.trans (hlabel.trans (hcut w hw)), ?_⟩
    rw [List.forall₂_iff_get] at hfields ⊢
    refine ⟨hfields.1, fun i hi hi' => ⟨?_, ?_, hfields.2 i hi hi'⟩⟩
    · exact hS.fields hv _ (List.get_mem _ _)
    · exact hS.fields hw _ (List.get_mem _ _)
  exact hsim.same ⟨hv, hw, heq⟩

theorem lhash_eq (hS : Readable h S) (hv : v ∈ S) :
    lhash h v = some (box (0x3fffff &&& hashValues (valueView h) (hashDepth + 1) 0 v)) := by
  rw [lhash, innerHash_eq hS hv]
  rfl

/-- Words with one value have one hash, in whatever heaps they are. -/
theorem lhash_of_sameValue (hS : Readable h S) (hS' : Readable h' S') (hv : v ∈ S) (hv' : v' ∈ S')
    (hsame : SameValue h h' v v') : lhash h v = lhash h' v' := by
  rw [lhash_eq hS hv, lhash_eq hS' hv', hashValues_congr (hsame (hashDepth + 1))]

/-- Words that `Lcompare` finds equal have one hash, if no string has a NUL inside. -/
theorem lhash_of_lcompare (depth : ℕ) (hS : Readable h S)
    (hbelow : ∀ v ∈ S, (valueView h v).1.Below (2 ^ 31)) (hnul : NoNul (valueView h) S) (hv : v ∈ S)
    (hw : w ∈ S) (hz : lcompare h depth v w = some (box 0)) :
    ∃ x, lhash h v = some x ∧ lhash h w = some x := by
  have hequal := (lcompare_zero_iff hS hbelow hv hw).1 depth hz
  rw [lhash_of_sameValue hS hS hv hw (hequal.same hS hnul hv hw)]
  exact ⟨_, lhash_eq hS hw, lhash_eq hS hw⟩

/-- Two objects with the same fields. -/
theorem lhash_of_lcompare_sharingHeap :
    ∃ x, lhash sharingHeap (ptr 21) = some x ∧ lhash sharingHeap (ptr 26) = some x := by
  refine lhash_of_lcompare 2 sharingWords_readable sharingWords_below ?_
    (mem_sharingWords.mpr (by decide)) (mem_sharingWords.mpr (by decide)) (by decide)
  have hstring : (valueView sharingHeap (ptr 18)).1 = .string [0x61, 0x62] := by decide
  have hother : (valueView sharingHeap 3).1 = .int 3 ∧ (valueView sharingHeap (ptr 21)).1 = .object .sexp 7 ∧
      (valueView sharingHeap (ptr 26)).1 = .object .sexp 7 := by decide
  intro v hv s hs
  rcases mem_sharingWords.mp hv with rfl | rfl | rfl | rfl
  · rw [hother.1] at hs
    cases hs
  · rw [hstring] at hs
    cases hs
    exact List.forall_mem_cons.mpr ⟨by decide, List.forall_mem_singleton.mpr (by decide)⟩
  · rw [hother.2.1] at hs
    cases hs
  · rw [hother.2.2] at hs
    cases hs

end Lama

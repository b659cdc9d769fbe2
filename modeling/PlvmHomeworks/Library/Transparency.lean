import PlvmHomeworks.Library.Values
import PlvmHomeworks.Runtime.Collect

/-! A collection cannot be observed: the words that a program holds keep their values and their
    identities, whatever the runtime moves. -/

namespace Lama
open Unfolding Sliding

/-- The words that the roots and the fields of the objects they reach hold. -/
def Mentioned (m : Memory) (objects : List ℕ) (roots : Roots) : Set Word :=
  {v | (∃ a ∈ scannedRoots roots, v = m.ram a) ∨
    ∃ p ∈ objects, p ∈ liveObjects m objects roots ∧ v ∈ fieldWords m.heap p}

/-- The words of `h`, `v` among them, after a collection has put the heap at `begin`. -/
noncomputable abbrev moved (m : Memory) (objects : List ℕ) (roots : Roots) (begin : ℕ) (v : Word) :
    Word := redirect m.heap objects (liveObjects m objects roots) begin v

/-- Character `i` of the string at `p` is a byte of the heap. -/
theorem charAt_toNat (h : MemoryChunk) (p i : ℕ) :
    (charAt h p i).toNat = byteAt h.words (4 * p + (8 + i)) := by
  rw [charAt, byteOf_toNat, byteAt, contentAt, headerSize,
    show (4 * p + (8 + i)) / 4 = p + 2 + i / 4 by omega, show (4 * p + (8 + i)) % 4 = i % 4 by omega]

/-! ### The image of an object -/

section Image
variable {h h' : MemoryChunk} {objects : List ℕ} {live : Set ℕ} {p q : ℕ} (hs : Objects h objects)
  (hp : p ∈ objects) (himage : ObjectImage h objects live h' p q)
include himage

theorem ObjectImage.typeAt : typeAt h' q = typeAt h p := by
  rw [Lama.typeAt, Lama.typeAt, himage.header]

/-- The fields have been redirected. -/
theorem ObjectImage.fieldWords :
    fieldWords h' q = (fieldWords h p).map (redirect h objects live h'.begin) := by
  rw [Lama.fieldWords, Lama.fieldWords, himage.header, List.map_map]
  refine List.map_congr_left fun j hj => ?_
  have hlt := List.mem_range.mp hj
  exact himage.fields _ ⟨by omega, by omega⟩

/-- A word behind the header that is not a field. -/
theorem ObjectImage.word {i : ℕ} (hlo : 2 ≤ i) (hhi : 4 * i + 4 ≤ objectBytes (h.words p))
    (hf : ¬ IsField h p (p + i)) : h'.words (q + i) = h.words (p + i) := by
  refine word_eq_of_bytes fun b hb => ?_
  have hbyte := himage.bytes (4 * i + b) (by omega) (by omega)
    (by rwa [show (4 * i + b) / 4 = i by omega])
  rw [byteAt, byteAt, show (4 * q + (4 * i + b)) / 4 = q + i by omega,
    show (4 * p + (4 * i + b)) / 4 = p + i by omega, show (4 * q + (4 * i + b)) % 4 = b by omega,
    show (4 * p + (4 * i + b)) % 4 = b by omega] at hbyte
  exact hbyte

/-- The entry of a closure, the tag of an S-expression. -/
theorem ObjectImage.head (hfirst : firstField (h.words p) = 3) (hroom : 12 ≤ objectBytes (h.words p)) :
    contentAt h' q 0 = contentAt h p 0 :=
  himage.word (i := 2) (by omega) (by omega) fun hf => by
    have := hf.1
    omega

include hs hp

/-- A character of a string, or its NUL. -/
theorem ObjectImage.charAt {i : ℕ} (htype : Lama.typeAt h p = some .string)
    (hi : i ≤ lenOf (h.words p)) : charAt h' q i = charAt h p i := by
  obtain ⟨type, ht, hbytes, -⟩ := objectWords_spec (hs.object hp).pos
  obtain rfl : LamaType.string = type := Option.some.inj (htype.symm.trans ht)
  have hfirst : firstField (h.words p) = objectWords (h.words p) := by simp only [firstField, ht]
  refine BitVec.eq_of_toNat_eq ?_
  rw [charAt_toNat, charAt_toNat]
  refine himage.bytes (8 + i) (by omega) ?_ fun hf => ?_
  · rw [hbytes]
    simp only [objBytes]
    omega
  · have hlo := hf.1
    have hhi := hf.2
    omega

theorem ObjectImage.label (hentry : Lama.typeAt h p = some .closure → 0 < lenOf (h.words p)) :
    labelAt h' q = labelAt h p := by
  obtain ⟨type, ht, hbytes, -⟩ := objectWords_spec (hs.object hp).pos
  have htype : Lama.typeAt h p = some type := ht
  rw [labelAt, labelAt, himage.typeAt, htype]
  cases type with
  | array => rfl
  | string =>
    have hchars : chars h' q = chars h p := by
      rw [chars, chars, himage.header]
      exact List.map_congr_left fun i hi =>
        himage.charAt hs hp htype (Nat.le_of_lt (List.mem_range.mp hi))
    simp only [hchars]
  | closure =>
    have hlen := hentry htype
    have hfirst : firstField (h.words p) = 3 := by simp only [firstField, ht]
    have hroom : 12 ≤ objectBytes (h.words p) := by
      rw [hbytes]
      simp only [objBytes]
      omega
    simp only [himage.head hfirst hroom]
  | sexp =>
    have hfirst : firstField (h.words p) = 3 := by simp only [firstField, ht]
    have hroom : 12 ≤ objectBytes (h.words p) := by
      rw [hbytes]
      simp only [objBytes]
      omega
    simp only [himage.head hfirst hroom]

end Image

/-! ### The words of a program -/

section Collect
variable {m m' : Memory} {objects : List ℕ} {roots : Roots} {begin size : ℕ} {v w : Word}

/-- A word that the program holds. -/
inductive MentionedCase (m : Memory) (objects : List ℕ) (roots : Roots) : Word → Prop
  | still {v : Word} : isValidHeapPointer m.heap v = false → MentionedCase m objects roots v
  | object {p : ℕ} : p ∈ objects → p ∈ liveObjects m objects roots →
      MentionedCase m objects roots (contentWord m.heap p)

/-- A pointer that the program holds leads to a live object. -/
theorem Mentioned.cases (hwf : WellFormed m.heap objects) (hv : ValidRoots m objects roots)
    (hw : v ∈ Mentioned m objects roots) : MentionedCase m objects roots v := by
  cases hvalid : isValidHeapPointer m.heap v with
  | false => exact .still hvalid
  | true =>
    rcases hw with ⟨a, ha, rfl⟩ | ⟨p, hp, hlive, hfield⟩
    · obtain ⟨p, hp, hlive, heq⟩ := hv.live ha hvalid
      rw [heq]
      exact .object hp hlive
    · obtain ⟨j, hj, rfl⟩ := List.mem_map.mp hfield
      have hlt := List.mem_range.mp hj
      have hf : IsField m.heap p (p + (firstField (m.heap.words p) + j)) := ⟨by omega, by omega⟩
      obtain ⟨q, hq, heq⟩ := hwf.fields p hp _ hf hvalid
      rw [heq]
      exact .object hq (closed_liveObjects p hlive q ⟨hq, _, hf, heq⟩)

/-- A live object moves to its new offset. -/
theorem moved_content (hs : Objects m.heap objects) (hc : Compacted m objects roots begin size m') {p : ℕ}
    (hp : p ∈ objects) : moved m objects roots begin (contentWord m.heap p) =
      contentWord m'.heap (newOffset m.heap objects (liveObjects m objects roots) p) := by
  rw [moved, redirect_content hs hp, contentWord, hc.begin_eq]

section Compacted
variable (hs : Objects m.heap objects) (hc : Compacted m objects roots begin size m')
  (hfits : m'.heap.end_ = begin + m'.heap.size ∧ m'.heap.end_ < 2 ^ 30)
include hc

/-- No two live objects move to one place. -/
theorem Compacted.newOffset_inj {p q : ℕ} (hp : p ∈ objects) (hplive : p ∈ liveObjects m objects roots)
    (hq : q ∈ objects) (hqlive : q ∈ liveObjects m objects roots)
    (heq : newOffset m.heap objects (liveObjects m objects roots) p =
      newOffset m.heap objects (liveObjects m objects roots) q) : p = q :=
  List.inj_on_of_nodup_map hc.packed.nodup (List.mem_filter.mpr ⟨hp, by simpa using hplive⟩)
    (List.mem_filter.mpr ⟨hq, by simpa using hqlive⟩) heq

include hs hfits

/-- The image of an object that could be read can be read. -/
theorem Compacted.readableObject {p : ℕ} (hp : p ∈ objects) (hlive : p ∈ liveObjects m objects roots)
    (ho : ReadableObject m.heap p) :
    ReadableObject m'.heap (newOffset m.heap objects (liveObjects m objects roots) p) := by
  have himage := hc.images p hp hlive
  have hle : newOffset m.heap objects (liveObjects m objects roots) p +
      objectWords (m.heap.words p) ≤ liveWords m.heap objects (liveObjects m objects roots) :=
    (hs.tiles.target_le hp hlive).2
  have hcur := hc.current
  have hroom := hc.room
  have htwo := ho.object.two_le
  have hbegin := hc.begin_eq
  refine ⟨⟨?_, ?_⟩, ?_, by rw [hbegin, hfits.1], hfits.2, ?_, ?_⟩
  · rw [himage.header]
    exact ho.object.pos
  · rw [himage.header]
    omega
  · unfold headerSize
    omega
  · rw [himage.typeAt, himage.header]
    exact ho.entry
  · intro htype
    rw [himage.typeAt] at htype
    rw [himage.header, himage.charAt hs hp htype (Nat.le_refl _)]
    exact ho.terminated htype

end Compacted

/-- No pointer out of the old heap points into the new one. -/
def ForeignApart (m : Memory) (objects : List ℕ) (roots : Roots) (begin size : ℕ) : Prop :=
  ∀ v ∈ Mentioned m objects roots, unboxed v = false → isValidHeapPointer m.heap v = false →
    ¬ (4 * begin ≤ v.toNat ∧
      v.toNat ≤ 4 * (begin + liveWords m.heap objects (liveObjects m objects roots) + size))

/-- A pointer out of the heap stays one. -/
theorem foreign_stays (hapart : ForeignApart m objects roots begin size)
    (hc : Compacted m objects roots begin size m') (hw : v ∈ Mentioned m objects roots)
    (hu : unboxed v = false) (hf : isValidHeapPointer m.heap v = false) :
    isValidHeapPointer m'.heap v = false := by
  have hnot := hapart v hw hu hf
  rw [isValidHeapPointer, hc.begin_eq, hc.current, hu]
  simpa using hnot

section Transparent
variable (hwf : WellFormed m.heap objects) (hv : ValidRoots m objects roots)
  (hentry : ∀ p ∈ objects, typeAt m.heap p = some .closure → 0 < lenOf (m.heap.words p))
  (hterm : Terminated m.heap objects) (hapart : ForeignApart m objects roots begin size)
  (hc : Compacted m objects roots begin size m')
  (hfits : m'.heap.end_ = begin + m'.heap.size ∧ m'.heap.end_ < 2 ^ 30)
include hwf hentry hterm hc hfits

theorem readableObject_image {p : ℕ} (hp : p ∈ objects) (hlive : p ∈ liveObjects m objects roots) :
    ReadableObject m'.heap (newOffset m.heap objects (liveObjects m objects roots) p) :=
  hc.readableObject hwf.toObjects hfits hp hlive (hwf.readableObject hp (hentry p hp) (hterm p hp))

include hv hapart

/-- A collection keeps different words apart. -/
theorem moved_inj (hw : v ∈ Mentioned m objects roots) (hw' : w ∈ Mentioned m objects roots)
    (heq : moved m objects roots begin v = moved m objects roots begin w) : v = w := by
  have hs := hwf.toObjects
  -- a word that stays is no pointer into the new heap
  have apart : ∀ {u : Word} {p : ℕ}, u ∈ Mentioned m objects roots → p ∈ objects →
      p ∈ liveObjects m objects roots → isValidHeapPointer m.heap u = false →
      u ≠ moved m objects roots begin (contentWord m.heap p) := by
    rintro _ p hu hp hlive hf rfl
    have ho := readableObject_image hwf hentry hterm hc hfits hp hlive
    rw [moved_content hs hc hp] at hu hf
    have hstays := foreign_stays hapart hc hu unboxed_contentWord hf
    rw [ho.valid] at hstays
    cases hstays
  cases Mentioned.cases hwf hv hw with
  | still hf =>
    cases Mentioned.cases hwf hv hw' with
    | still hf' => rwa [moved, moved, redirect_other hf, redirect_other hf'] at heq
    | object hq hqlive =>
      have hne := apart hw hq hqlive hf
      rw [moved, redirect_other hf] at heq
      exact absurd heq hne
  | @object p hp hlive =>
    cases Mentioned.cases hwf hv hw' with
    | still hf' =>
      have hne := apart hw' hp hlive hf'
      rw [eq_comm, moved, redirect_other hf'] at heq
      exact absurd heq hne
    | @object q hq hqlive =>
      rw [moved_content hs hc hp, moved_content hs hc hq] at heq
      have hoff := ptr_inj (readableObject_image hwf hentry hterm hc hfits hp hlive).content_lt
        (readableObject_image hwf hentry hterm hc hfits hq hqlive).content_lt heq
      rw [hc.newOffset_inj hp hlive hq hqlive (by omega)]

/-- A word and what a collection makes of it have the same label, and their fields correspond. -/
theorem moved_simulation : Simulation (valueView m.heap) (valueView m'.heap) fun v v' =>
    v ∈ Mentioned m objects roots ∧ v' = moved m objects roots begin v := by
  rintro v _ ⟨hw, rfl⟩
  cases Mentioned.cases hwf hv hw with
  | still hf =>
    rw [moved, redirect_other hf]
    cases hu : unboxed v with
    | true =>
      rw [valueView_int hu, valueView_int hu]
      exact ⟨rfl, .nil⟩
    | false =>
      rw [valueView_foreign hu hf, valueView_foreign hu (foreign_stays hapart hc hw hu hf)]
      exact ⟨rfl, .nil⟩
  | @object p hp hlive =>
    have hs := hwf.toObjects
    have himage := hc.images p hp hlive
    have ho := hwf.readableObject hp (hentry p hp) (hterm p hp)
    have ho' := readableObject_image hwf hentry hterm hc hfits hp hlive
    rw [moved_content hs hc hp, ho.view, ho'.view, himage.label hs hp (hentry p hp), himage.fieldWords,
      hc.begin_eq]
    refine ⟨rfl, List.forall₂_map_right_iff.mpr (List.forall₂_same.mpr fun w hfield => ⟨?_, rfl⟩)⟩
    exact Or.inr ⟨p, hp, hlive, hfield⟩

/-- What the words lead to after the collection can be read. -/
theorem readable_moved :
    Readable m'.heap {v' | ∃ v ∈ Mentioned m objects roots, v' = moved m objects roots begin v} := by
  rintro _ ⟨v, hw, rfl⟩
  cases Mentioned.cases hwf hv hw with
  | still hf =>
    rw [moved, redirect_other hf]
    cases hu : unboxed v with
    | true => exact .int hu
    | false => exact .foreign hu (foreign_stays hapart hc hw hu hf)
  | @object p hp hlive =>
    rw [moved_content hwf.toObjects hc hp]
    refine .object (readableObject_image hwf hentry hterm hc hfits hp hlive) fun w hfield => ?_
    rw [(hc.images p hp hlive).fieldWords, hc.begin_eq] at hfield
    obtain ⟨u, hu, rfl⟩ := List.mem_map.mp hfield
    exact ⟨u, Or.inr ⟨p, hp, hlive, hu⟩, rfl⟩

end Transparent

/-- What `gc_alloc` needs for the program not to notice it. -/
structure Unnoticed (m : Memory) (objects : List ℕ) (roots : Roots) (begin size : ℕ) : Prop where
  wellFormed : WellFormed m.heap objects
  valid : ValidRoots m objects roots
  entry : ∀ p ∈ objects, typeAt m.heap p = some .closure → 0 < lenOf (m.heap.words p)
  terminated : Terminated m.heap objects
  fits : FitsAt m objects roots begin size
  fixed : ∀ a ∈ roots.extraRoots, ¬ Unfixed roots a
  foreign : ForeignApart m objects roots begin size

/-- The collection, with what it makes of the words that the program holds. -/
theorem Unnoticed.collects (hn : Unnoticed m objects roots begin size) :
    ∃ r m', gcAlloc roots (some begin) size m = some (some r, m') ∧
      Compacted m objects roots begin size m' ∧
      (m'.heap.end_ = begin + m'.heap.size ∧ m'.heap.end_ < 2 ^ 30) ∧
      ∀ a ∈ scannedRoots roots, m'.ram a = moved m objects roots begin (m.ram a) := by
  obtain ⟨m', hrun, hc, hfits, -⟩ := gcAlloc_compacts hn.wellFormed hn.valid hn.fits
  obtain ⟨m₂, hrun₂, hiff⟩ := gc_preserves hn.wellFormed hn.valid hn.fits
  rw [hrun] at hrun₂
  cases hrun₂
  have hcollected := hiff.mpr fun a ha hun => absurd hun (hn.fixed a ha)
  exact ⟨_, m', hrun, hc, hfits, hcollected.redirected⟩

/-- After a collection every root word has the value it had, at every depth, and two root words are the
    same word exactly when they were before. -/
theorem gc_transparent (hn : Unnoticed m objects roots begin size) :
    ∃ r m', gcAlloc roots (some begin) size m = some (some r, m') ∧
      (∀ a ∈ scannedRoots roots, SameValue m.heap m'.heap (m.ram a) (m'.ram a)) ∧
      ∀ a ∈ scannedRoots roots, ∀ b ∈ scannedRoots roots,
        m'.ram a = m'.ram b ↔ m.ram a = m.ram b := by
  obtain ⟨r, m', hrun, hc, hfits, hmoved⟩ := hn.collects
  have hmentioned : ∀ a ∈ scannedRoots roots, m.ram a ∈ Mentioned m objects roots :=
    fun a ha => Or.inl ⟨a, ha, rfl⟩
  refine ⟨r, m', hrun, fun a ha => ?_, fun a ha b hb => ?_⟩
  · exact (moved_simulation hn.wellFormed hn.valid hn.entry hn.terminated hn.foreign hc hfits).same
      ⟨hmentioned a ha, hmoved a ha⟩
  · rw [hmoved a ha, hmoved b hb]
    exact ⟨moved_inj hn.wellFormed hn.valid hn.entry hn.terminated hn.foreign hc hfits (hmentioned a ha)
      (hmentioned b hb), congrArg _⟩

end Collect

theorem unnoticed_cyclicMemory : Unnoticed (cyclicMemory 101) [0, 3, 6] (extraRoot 101) 64 4 where
  wellFormed := cyclicHeap_wellFormed
  valid := extraRoot_valid (by decide)
  entry := by decide
  terminated := by
    unfold Terminated
    decide
  fits := extraRoot_fits 101
  fixed := by
    simp only [extraRoot, List.mem_singleton, Unfixed]
    omega
  foreign := by
    intro v hv hu hf
    have hfields : ∀ p ∈ [0, 3, 6], ∀ k, IsField cyclicHeap p k →
        isValidHeapPointer cyclicHeap (cyclicHeap.words k) = true := by
      intro p hp k hk
      obtain ⟨hlo, hhi⟩ := hk
      simp only [List.mem_cons, List.not_mem_nil, or_false] at hp
      rcases hp with rfl | rfl | rfl
      · obtain rfl : k = 2 := Nat.le_antisymm (Nat.le_of_lt_succ hhi) hlo
        decide
      · obtain rfl : k = 5 := Nat.le_antisymm (Nat.le_of_lt_succ hhi) hlo
        decide
      · exact absurd (Nat.lt_of_le_of_lt hlo hhi) (by decide)
    rcases hv with ⟨a, -, rfl⟩ | ⟨p, hp, -, hw⟩
    · by_cases ha : a = 101
      · rw [ha] at hf
        exact absurd hf (by decide)
      · simp only [cyclicMemory, if_neg ha] at hu
        exact absurd hu (by decide)
    · obtain ⟨j, hj, rfl⟩ := List.mem_map.mp hw
      have hlt : j < objectWords (cyclicHeap.words p) - firstField (cyclicHeap.words p) :=
        List.mem_range.mp hj
      have hvalid := hfields p hp (p + (firstField (cyclicHeap.words p) + j)) ⟨by omega, by omega⟩
      exact absurd (hvalid.symm.trans hf) (by decide)

/-- The root at 101 leads into a cycle, and still does when the heap has moved. -/
theorem gc_transparent_cyclicMemory : ∃ r m',
    gcAlloc (extraRoot 101) (some 64) 4 (cyclicMemory 101) = some (some r, m') ∧
      (∀ a ∈ scannedRoots (extraRoot 101),
        SameValue cyclicHeap m'.heap ((cyclicMemory 101).ram a) (m'.ram a)) ∧
      ∀ a ∈ scannedRoots (extraRoot 101), ∀ b ∈ scannedRoots (extraRoot 101),
        m'.ram a = m'.ram b ↔ (cyclicMemory 101).ram a = (cyclicMemory 101).ram b :=
  gc_transparent unnoticed_cyclicMemory

end Lama

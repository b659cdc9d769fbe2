import PlvmHomeworks.Tools.Construction

/-! The words that the collector may find in a root, and a heap all of whose fields are such words.

    `out` is a set of words that point into no heap that there will be: `NULL`, addresses of slots, what is
    left of a heap that has moved. -/

namespace Lama
open Outcome

/-- The headers that a walk over the heap finds. -/
def MemoryChunk.headers (h : MemoryChunk) : List ℕ :=
  match walk h h.fuel h.begin with
  | some (visited, _) => visited
  | none => []

/-- The content address of an object in the heap. -/
def IsContent (h : MemoryChunk) (w : Word) : Prop := ∃ p ∈ h.headers, w = ptr (p + headerSize)

/-- No pointer, a pointer out of every heap, or the content of an object. -/
def SoundWord (out : Word → Prop) (h : MemoryChunk) (w : Word) : Prop :=
  unboxed w = true ∨ out w ∨ IsContent h w

instance (h : MemoryChunk) (w : Word) : Decidable (IsContent h w) := by
  unfold IsContent; infer_instance

instance (out : Word → Prop) [DecidablePred out] (h : MemoryChunk) (w : Word) :
    Decidable (SoundWord out h w) := by
  unfold SoundWord; infer_instance

/-- The same, where the objects are these. -/
def SoundIn (out : Word → Prop) (h : MemoryChunk) (os : List HeapObject) (w : Word) : Prop :=
  unboxed w = true ∨ out w ∨ ∃ o ∈ os, w = contentWord h o.offset

/-- The words of `out` point out of these addresses. -/
def Avoids (out : Word → Prop) (begin end_ : ℕ) : Prop :=
  ∀ w, out w → ¬ (4 * begin ≤ w.toNat ∧ w.toNat ≤ 4 * end_)

/-- The heap is on one side of the virtual stack. -/
def Beside (im : Image) (h : MemoryChunk) : Prop := h.end_ ≤ im.vstack ∨ im.bottom ≤ h.begin

/-- The heap between two instructions: its objects, and in their fields sound words. -/
structure SoundHeap (im : Image) (out : Word → Prop) (h : MemoryChunk) (os : List HeapObject) : Prop where
  filled : ∃ free, Reserved h os free 0
  beside : Beside im h
  avoids : Avoids out h.begin h.end_
  fields : ∀ o ∈ os, ∀ k, IsField h o.offset k → SoundIn out h os (h.words k)

variable {im : Image} {out : Word → Prop} {h h' : MemoryChunk} {os os' : List HeapObject} {o : HeapObject}
  {w : Word} {free k : ℕ}

/-! ### Words -/

/-- The walk finds the objects. -/
theorem Reserved.headers (hr : Reserved h os free 0) :
    h.headers = (os.map HeapObject.offset).map (h.begin + ·) := by
  rw [MemoryChunk.headers, hr.layout.walk]

theorem Reserved.mem_headers (hr : Reserved h os free 0) {p : ℕ} :
    p ∈ h.headers ↔ ∃ o ∈ os, p = h.begin + o.offset := by
  simp [hr.headers, eq_comm]

theorem Reserved.isContent_iff (hr : Reserved h os free 0) :
    IsContent h w ↔ ∃ o ∈ os, w = contentWord h o.offset := by
  constructor
  · rintro ⟨p, hp, rfl⟩
    obtain ⟨o, ho, rfl⟩ := hr.mem_headers.mp hp
    exact ⟨o, ho, rfl⟩
  · rintro ⟨o, ho, rfl⟩
    exact ⟨_, hr.mem_headers.mpr ⟨o, ho, rfl⟩, rfl⟩

theorem Reserved.soundWord_iff (hr : Reserved h os free 0) : SoundWord out h w ↔ SoundIn out h os w := by
  rw [SoundWord, SoundIn, hr.isContent_iff]

theorem soundIn_of_unboxed (hu : unboxed w = true) : SoundIn out h os w := Or.inl hu

theorem SoundIn.congr (hw : SoundIn out h os w) (hb : h'.begin = h.begin) (hos : ∀ o ∈ os, o ∈ os') :
    SoundIn out h' os' w := by
  rcases hw with hu | hw | ⟨o, ho, rfl⟩
  · exact Or.inl hu
  · exact Or.inr (Or.inl hw)
  · exact Or.inr (Or.inr ⟨o, hos o ho, by rw [contentWord, contentWord, hb]⟩)

theorem Avoids.not_valid (ha : Avoids out h.begin h.end_) (hfits : h.current ≤ h.end_) (hw : out w) :
    isValidHeapPointer h w = false := by
  have hout := ha w hw
  simp only [isValidHeapPointer, Bool.and_eq_false_iff, decide_eq_false_iff_not]
  omega

/-- The collector can follow a sound word. -/
theorem SoundIn.valid (hr : Reserved h os free 0) (ha : Avoids out h.begin h.end_)
    (hw : SoundIn out h os w) : ValidWord h (os.map HeapObject.offset) w := by
  intro hvalid
  rcases hw with hu | hw | ⟨o, ho, rfl⟩
  · rw [not_valid_of_unboxed hu] at hvalid
    cases hvalid
  · rw [ha.not_valid hr.room hw] at hvalid
    cases hvalid
  · exact ⟨o.offset, List.mem_map_of_mem ho, rfl⟩

/-! ### Words of objects -/

/-- A word that is not the head of an object may be written. -/
theorem Reserved.setWord (hr : Reserved h os free 0)
    (hheads : ∀ o ∈ os, k ≠ o.offset ∧ k ≠ o.offset + 1) (w : Word) : Reserved (h.setWord k w) os free 0 :=
  hr.congr (fun o ho => ⟨if_neg (hheads o ho).1.symm, if_neg (hheads o ho).2.symm⟩)
    (fun j _ hj => absurd hj (by omega)) rfl hr.current hr.room rfl rfl

/-- Words may be written behind the heads of the objects, sound ones to the fields. -/
theorem SoundHeap.setWord (hs : SoundHeap im out h os) (hheads : ∀ o ∈ os, k ≠ o.offset ∧ k ≠ o.offset + 1)
    (hw : ∀ o ∈ os, IsField h o.offset k → SoundIn out h os w) : SoundHeap im out (h.setWord k w) os := by
  obtain ⟨⟨free, hr⟩, hbeside, havoids, hfields⟩ := hs
  refine ⟨⟨free, hr.setWord hheads w⟩, hbeside, havoids, fun o ho j hj => ?_⟩
  have hheader : (h.setWord k w).words o.offset = h.words o.offset := if_neg (hheads o ho).1.symm
  have hj' : IsField h o.offset j := by rwa [IsField, hheader] at hj
  by_cases hjk : j = k
  · subst hjk
    rw [show (h.setWord j w).words j = w from if_pos rfl]
    exact (hw o ho hj').congr rfl fun _ ho => ho
  · rw [show (h.setWord k w).words j = h.words j from if_neg hjk]
    exact (hfields o ho j hj').congr rfl fun _ ho => ho

/-! ### A request -/

/-- What a request relies on: addresses do not run out, and a heap that has to grow finds room on one side
    of the virtual stack, where no word of `out` points to. -/
structure Answered (im : Image) (out : Word → Prop) (h : MemoryChunk) (mremap : Option ℕ) (size : ℕ) :
    Prop where
  address : h.current + size < 2 ^ 30
  grows : ¬ h.current + size ≤ h.end_ → ∀ begin ∈ mremap, 0 < begin ∧ begin + h.grown size < 2 ^ 30 ∧
    (begin + h.grown size ≤ im.vstack ∨ im.bottom ≤ begin) ∧ Avoids out begin (begin + h.grown size)

/-- What a request leaves: sound words in the fields of the objects and in the scanned slots, and the other
    words of the memory as they were unless they pointed into the heap. -/
structure StaysSound (im : Image) (out : Word → Prop) (m : Memory) (os : List HeapObject) (roots : Roots)
    (m' : Memory) (os' : List HeapObject) : Prop where
  beside : Beside im m'.heap
  avoids : Avoids out m'.heap.begin m'.heap.end_
  fields : ∀ o ∈ os', ∀ k, IsField m'.heap o.offset k → SoundIn out m'.heap os' (m'.heap.words k)
  slots : ∀ a ∈ region (roots.stackTop + 1) roots.stackBottom, SoundIn out m.heap os (m.ram a) →
    SoundIn out m'.heap os' (m'.ram a)
  others : ∀ a, isValidHeapPointer m.heap (m.ram a) = false → m'.ram a = m.ram a

section Request
variable {m m' : Memory} {roots : Roots} {mremap : Option ℕ} {begin size bytes : ℕ}

/-- A word whose object survives is redirected to a sound one. -/
theorem SoundIn.redirect (hr : Reserved m.heap os free 0) (ha : Avoids out m.heap.begin m.heap.end_)
    (hc : Compacted m (os.map HeapObject.offset) roots begin size m') (hw : SoundIn out m.heap os w)
    (hlive : ∀ o ∈ os, w = contentWord m.heap o.offset →
      o.offset ∈ liveObjects m (os.map HeapObject.offset) roots) :
    SoundIn out m'.heap (HeapState.survivors ⟨m, os⟩ roots) (Lama.redirect m.heap (os.map HeapObject.offset)
      (liveObjects m (os.map HeapObject.offset) roots) begin w) := by
  rcases hw with hu | hw | ⟨o, ho, rfl⟩
  · rw [redirect_other (not_valid_of_unboxed hu)]
    exact Or.inl hu
  · rw [redirect_other (ha.not_valid hr.room hw)]
    exact Or.inr (Or.inl hw)
  · rw [redirect_content hr.layout (List.mem_map_of_mem ho)]
    refine Or.inr (Or.inr ⟨_, HeapState.mem_survivors_of (s := ⟨m, os⟩) ho (hlive o ho rfl), ?_⟩)
    rw [contentWord, hc.begin_eq]
    rfl

/-- A collection for a request. -/
theorem SoundHeap.collect (hs : SoundHeap im out m.heap os)
    (hv : ValidRoots m (os.map HeapObject.offset) roots)
    (hmapped : 0 < begin) (hend : begin + m.heap.grown size < 2 ^ 30)
    (hbeside : begin + m.heap.grown size ≤ im.vstack ∨ im.bottom ≤ begin)
    (havoids : Avoids out begin (begin + m.heap.grown size)) :
    ∃ n m' os', gcAlloc roots (some begin) size m = some (some (m'.heap.begin + n), m') ∧
      Reserved m'.heap os' n size ∧ StaysSound im out m os roots m' os' := by
  obtain ⟨⟨free, hr⟩, hb, ha, hfields⟩ := hs
  have hvalid : ∀ p ∈ os.map HeapObject.offset, ∀ k, IsField m.heap p k →
      ValidWord m.heap (os.map HeapObject.offset) (m.heap.words k) := by
    intro p hp k hk
    obtain ⟨o, ho, rfl⟩ := List.mem_map.mp hp
    exact (hfields o ho k hk).valid hr ha
  have hlive := hr.liveWords_le (liveObjects m (os.map HeapObject.offset) roots)
  have hfits : FitsAt m (os.map HeapObject.offset) roots begin size := by
    unfold MemoryChunk.grown at hend
    unfold FitsAt
    simp only [extraRoomHeapCoefficient, minimumHeapCapacity] at hend ⊢
    omega
  have hc : Collectable ⟨m, os⟩ roots begin size := ⟨hvalid, hv, hmapped, hfits⟩
  obtain ⟨n, m', hrun, hreserved⟩ := Reserved.collect (s := ⟨m, os⟩) hr hc
  obtain ⟨m₂, hrun₂, hcompacted, ⟨hspan, -⟩, hram⟩ :=
    gcAlloc_compacts (Reserved.wellFormed (s := ⟨m, os⟩) hr hc) hv hfits
  rw [hrun, Option.some.injEq, Prod.mk.injEq, Option.some.injEq] at hrun₂
  obtain ⟨hn, rfl⟩ := hrun₂
  -- the heap is not larger than was granted
  obtain ⟨live, hp, hsizes⟩ := gcAlloc_size hv.nodup hrun
  have hlive' : live = liveWords m.heap (os.map HeapObject.offset)
      (liveObjects m (os.map HeapObject.offset) roots) := Nat.add_left_cancel (hp.symm.trans hn)
  have hgrown : m'.heap.size ≤ m.heap.grown size := by
    rw [hsizes, nextHeapPseudoSize, MemoryChunk.grown]
    simp only [extraRoomHeapCoefficient, minimumHeapCapacity]
    omega
  refine ⟨n, m', _, hrun, hreserved, ?_, fun w hw => ?_, fun o ho k hk => ?_, fun a hslot hw => ?_,
    fun a hother => ?_⟩
  · unfold Beside
    rw [hspan, hcompacted.begin_eq]
    omega
  · have hout := havoids w hw
    rw [hspan, hcompacted.begin_eq]
    omega
  · -- the field is the image of a field of a live object
    obtain ⟨o', ho', holive, rfl⟩ := HeapState.mem_survivors ho
    have himage := hcompacted.images o'.offset (List.mem_map_of_mem ho') holive
    obtain ⟨j, rfl⟩ := Nat.exists_eq_add_of_le (show newOffset m.heap (os.map HeapObject.offset)
      (liveObjects m (os.map HeapObject.offset) roots) o'.offset ≤ k from Nat.le_of_add_right_le hk.1)
    have hj : IsField m.heap o'.offset (o'.offset + j) := by
      obtain ⟨hlo, hhi⟩ := hk
      have hheader : m'.heap.words (newOffset m.heap (os.map HeapObject.offset)
          (liveObjects m (os.map HeapObject.offset) roots) o'.offset) = m.heap.words o'.offset :=
        himage.header
      simp only [HeapState.offsets] at hlo hhi
      rw [hheader] at hlo hhi
      exact ⟨by omega, by omega⟩
    have hword := himage.fields j hj
    rw [hcompacted.begin_eq] at hword
    simp only [HeapState.offsets] at hword
    rw [hword]
    refine (hfields o' ho' _ hj).redirect hr ha hcompacted fun q hq heq => ?_
    exact closed_liveObjects o'.offset holive q.offset ⟨List.mem_map_of_mem hq, _, hj, heq⟩
  · have hscanned : a ∈ scannedRoots roots := List.mem_append_left _ hslot
    obtain ⟨hlo, hhi⟩ := mem_region.mp hslot
    have hexamined : a ∈ examinedRoots roots :=
      List.mem_append_left _ (mem_region.mpr ⟨hlo, Nat.lt_succ_of_lt hhi⟩)
    rw [(hram a).1 hexamined]
    refine hw.redirect hr ha hcompacted fun o ho heq => ?_
    exact Runs.subset_reachable ⟨List.mem_map_of_mem ho, a, hscanned, heq⟩
  · by_cases hexamined : a ∈ examinedRoots roots
    · rw [(hram a).1 hexamined, redirect_other hother]
    · exact (hram a).2 hexamined

/-- A collection asks for memory. -/
theorem exists_mremap {q : Option ℕ × Memory} (h : gcAlloc roots mremap size m = some q) :
    ∃ begin, mremap = some begin := by
  obtain ⟨m₁, -, h⟩ := Option.bind_eq_some_iff.mp h
  obtain ⟨m₂, hcompact, -⟩ := Option.bind_eq_some_iff.mp h
  obtain ⟨x, -, hcompact⟩ := Option.bind_eq_some_iff.mp hcompact
  obtain ⟨begin, hbegin, -⟩ := Option.bind_eq_some_iff.mp hcompact
  exact ⟨begin, hbegin⟩

/-- There is a block behind the objects, and what is in them stays. -/
theorem SoundHeap.bump (hs : SoundHeap im out m.heap os) (hroom : m.heap.current + size ≤ m.heap.end_) :
    ∃ n, m.heap.current = m.heap.begin + n ∧ Reserved (m.heap.bump size) os n size ∧
      StaysSound im out m os roots { m with heap := m.heap.bump size } os := by
  obtain ⟨⟨free, hr⟩, hb, ha, hfields⟩ := hs
  have hcur : m.heap.current = m.heap.begin + free := by rw [hr.current, Nat.add_zero]
  refine ⟨free, hcur, hr.bump hroom, hb, ha, fun o ho k hk => ?_, fun a _ hw => hw.congr rfl fun _ ho => ho,
    fun _ _ => rfl⟩
  have hbelow : ∀ j, j < free → (m.heap.bump size).words j = m.heap.words j :=
    fun j hj => if_neg (by omega)
  have hends := hr.tiles.bounds (List.mem_map_of_mem (f := HeapObject.offset) ho)
  obtain ⟨hlo, hhi⟩ := hk
  change o.offset + firstField ((m.heap.bump size).words o.offset) ≤ k at hlo
  change k < o.offset + objectWords ((m.heap.bump size).words o.offset) at hhi
  unfold wordsAt at hends
  rw [hbelow o.offset (by omega)] at hlo hhi
  show SoundIn out (m.heap.bump size) os ((m.heap.bump size).words k)
  rw [hbelow k (by omega)]
  exact (hfields o ho k ⟨hlo, hhi⟩).congr rfl fun _ ho => ho

/-- `alloc` finds a block, and what is sound stays sound. -/
theorem SoundHeap.request {p : ℕ} (hsize : bytesToWords bytes = size) (hs : SoundHeap im out m.heap os)
    (hv : ValidRoots m (os.map HeapObject.offset) roots) (hg : Answered im out m.heap mremap size)
    (h : alloc roots mremap bytes m = some (some p, m')) :
    ∃ n os', p = m'.heap.begin + n ∧ Reserved m'.heap os' n size ∧ StaysSound im out m os roots m' os' := by
  rw [alloc_eq (by rw [hsize]; exact hg.address), hsize] at h
  by_cases hroom : m.heap.current + size ≤ m.heap.end_
  · rw [if_pos hroom] at h
    cases h
    obtain ⟨n, hn, hblock⟩ := hs.bump hroom
    exact ⟨n, os, hn, hblock⟩
  · rw [if_neg hroom] at h
    obtain ⟨begin, rfl⟩ := exists_mremap h
    obtain ⟨hmapped, hend, hbeside, havoids⟩ := hg.grows hroom begin rfl
    obtain ⟨n, m₁, os', hrun, hblock⟩ := hs.collect hv hmapped hend hbeside havoids
    rw [h] at hrun
    cases hrun
    exact ⟨n, os', rfl, hblock⟩

end Request

/-! ### A new object -/

section Build
variable {n len : ℕ} {type : LamaType}

theorem allocData_ok {m m' : Memory} {roots : Roots} {mremap : Option ℕ} {p : ℕ}
    (h : m.allocData roots mremap type len = some (p, m')) :
    ∃ m₁ m₂, alloc roots mremap (objBytes type len) m = some (some p, m₁) ∧
      m₁.store p (headerWord type len) = some m₂ ∧ m₂.store (p + 1) 0 = some m' := by
  obtain ⟨⟨q, m₁⟩, halloc, h⟩ := Option.bind_eq_some_iff.mp h
  obtain ⟨p', hp, h⟩ := Option.bind_eq_some_iff.mp h
  obtain ⟨m₂, h₂, h⟩ := Option.bind_eq_some_iff.mp h
  obtain ⟨m₃, h₃, h⟩ := Option.bind_eq_some_iff.mp h
  cases h
  subst hp
  exact ⟨m₁, m₂, halloc, h₂, h₃⟩

/-- The heap with the header of an object in the block that was found for it. -/
theorem Reserved.headed {m m₂ m₃ : Memory} (hlen : len < 2 ^ 28)
    (hr : Reserved m.heap os n (bytesToWords (objBytes type len)))
    (h₂ : m.store (m.heap.begin + n) (headerWord type len) = some m₂)
    (h₃ : m₂.store (m.heap.begin + n + 1) 0 = some m₃) : m₃ = m.setWord n (headerWord type len) := by
  have hsize := two_le_bytesToWords type hlen
  have hcur := hr.current
  have hroom := hr.room
  rw [store_at (by omega)] at h₂
  cases h₂
  have hclear : (m.setWord n (headerWord type len)).heap.words (n + 1) = 0 :=
    (if_neg (by omega)).trans (hr.zero _ (by omega) (by omega))
  rw [Nat.add_assoc] at h₃
  rw [show m.heap.begin = (m.setWord n (headerWord type len)).heap.begin from rfl,
    store_clear (by show m.heap.begin + (n + 1) < m.heap.end_; omega) hclear] at h₃
  cases h₃
  rfl

/-- The fields of the new object are zeros. -/
theorem SoundHeap.headed (hlen : len < 2 ^ 28) (hr : Reserved h os n (bytesToWords (objBytes type len)))
    (hzero : out 0) (hb : Beside im h) (ha : Avoids out h.begin h.end_)
    (hfields : ∀ o ∈ os, ∀ k, IsField h o.offset k → SoundIn out h os (h.words k)) :
    SoundHeap im out (h.setWord n (headerWord type len)) (os ++ [⟨n, type, len⟩]) := by
  refine ⟨⟨_, hr.build hlen⟩, hb, ha, fun o ho k hk => ?_⟩
  rcases List.mem_append.mp ho with ho | ho
  · have hends := hr.ends ho
    have hends' := hr.tiles.bounds (List.mem_map_of_mem (f := HeapObject.offset) ho)
    have hheader : (h.setWord n (headerWord type len)).words o.offset = h.words o.offset :=
      if_neg (by omega)
    have hk' : IsField h o.offset k := by rwa [IsField, hheader] at hk
    have hlt := hk'.2
    unfold wordsAt at hends'
    rw [show (h.setWord n (headerWord type len)).words k = h.words k from if_neg (by omega)]
    exact (hfields o ho k hk').congr rfl fun _ ho => List.mem_append_left _ ho
  · obtain rfl := List.mem_singleton.mp ho
    have hheader : (h.setWord n (headerWord type len)).words n = headerWord type len := if_pos rfl
    obtain ⟨hlo, hhi⟩ := hk
    simp only [hheader] at hlo hhi
    rw [headerWord_words hlen] at hhi
    have hfirst := two_le_firstField (x := headerWord type len) (by
      rw [headerWord_words hlen]
      have := two_le_bytesToWords type hlen
      omega)
    have hclear : (h.setWord n (headerWord type len)).words k = 0 :=
      (if_neg (by omega)).trans (hr.zero k (by omega) (by omega))
    rw [hclear]
    exact Or.inr (Or.inl hzero)

end Build

end Lama

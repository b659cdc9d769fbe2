import PlvmHomeworks.Runtime.Compact

/-! A whole collection: `gc_alloc` on a well-formed heap. -/

namespace Lama
open Sliding

/-! ### The words that each pass looks at -/

/-- The root words that `mark_phase` marks from. -/
def scannedRoots (roots : Roots) : List ℕ :=
  region (roots.stackTop + 1) roots.stackBottom ++
    (roots.extraRoots ++ region roots.startCustomData roots.stopCustomData)

/-- The root words that `update_references` looks at, to redirect them. -/
def examinedRoots (roots : Roots) : List ℕ :=
  region (roots.stackTop + 1) (roots.stackBottom + 1) ++
    roots.extraRoots.filter fun p => !skippedRoot roots p

theorem markWords_append (ram : ℕ → Word) : ∀ (ps qs : List ℕ) (h : MemoryChunk),
    markWords ram h (ps ++ qs) = markWords ram h ps >>= fun h => markWords ram h qs
  | [], _, _ => rfl
  | p :: ps, qs, h => by
    rw [List.cons_append, markWords, markWords]
    cases mark h (ram p) with
    | none => rfl
    | some h₁ => exact markWords_append ram ps qs h₁

theorem markPhase_eq (roots : Roots) (m : Memory) : markPhase roots m =
    (markWords m.ram m.heap (scannedRoots roots)).map fun h => { m with heap := h } := by
  rw [scannedRoots, markWords_append]
  unfold markPhase
  cases markWords m.ram m.heap (region (roots.stackTop + 1) roots.stackBottom) with
  | none => rfl
  | some h₁ =>
    simp only [Option.bind_eq_bind, Option.bind_some, markWords_append]
    cases markWords m.ram h₁ roots.extraRoots with
    | none => rfl
    | some h₂ =>
      simp only [Option.bind_some]
      cases markWords m.ram h₂ (region roots.startCustomData roots.stopCustomData) <;> rfl

theorem scanAndFixRegion_append (old : MemoryChunk) : ∀ (ps qs : List ℕ) (m : Memory),
    scanAndFixRegion old m (ps ++ qs) =
      scanAndFixRegion old m ps >>= fun m => scanAndFixRegion old m qs
  | [], _, _ => rfl
  | p :: ps, qs, m => by
    rw [List.cons_append, scanAndFixRegion, scanAndFixRegion]
    split
    · cases forwarded old m.heap (m.ram p) with
      | none => rfl
      | some v => exact scanAndFixRegion_append old ps qs (m.setRam p v)
    · exact scanAndFixRegion_append old ps qs m

/-- Extra roots are fixed like the words of a region, but for those that are skipped. -/
theorem scanAndFixRegionRoots_eq (old : MemoryChunk) (roots : Roots) : ∀ (ps : List ℕ) (m : Memory),
    scanAndFixRegionRoots old roots m ps =
      scanAndFixRegion old m (ps.filter fun p => !skippedRoot roots p)
  | [], _ => rfl
  | p :: ps, m => by
    rw [scanAndFixRegionRoots]
    cases hs : skippedRoot roots p with
    | true =>
      rw [List.filter_cons_of_neg (by simp [hs]), scanAndFixRegionRoots_eq old roots ps m]
      simp
    | false =>
      rw [List.filter_cons_of_pos (by simp [hs]), scanAndFixRegion]
      cases hv : isValidPointer (m.ram p) with
      | false => simpa using scanAndFixRegionRoots_eq old roots ps m
      | true =>
        cases ho : inOldHeap old (m.ram p) with
        | false => simpa using scanAndFixRegionRoots_eq old roots ps m
        | true =>
          simp only [Bool.not_true, Bool.false_eq_true, if_false, if_true, Bool.and_self,
            Option.bind_eq_bind]
          cases forwarded old m.heap (m.ram p) with
          | none => rfl
          | some v => exact scanAndFixRegionRoots_eq old roots ps (m.setRam p v)

theorem updateReferences_eq (old : MemoryChunk) (roots : Roots) (m : Memory) :
    updateReferences old roots m = updateObjects old m.heap.fuel m.heap m.heap.begin >>= fun h =>
      scanAndFixRegion old { m with heap := h } (examinedRoots roots) := by
  unfold updateReferences
  cases updateObjects old m.heap.fuel m.heap m.heap.begin with
  | none => rfl
  | some h =>
    simp only [Option.bind_eq_bind, Option.bind_some, examinedRoots, scanAndFixRegion_append,
      scanAndFixRegionRoots_eq]

/-- The pass over a region ends when every pointer it meets can be forwarded. -/
theorem exists_scanAndFixRegion (old : MemoryChunk) : ∀ (m : Memory) {ps : List ℕ}, ps.Nodup →
    (∀ a ∈ ps, isValidPointer (m.ram a) = true → inOldHeap old (m.ram a) = true →
      ∃ v, forwarded old m.heap (m.ram a) = some v) → ∃ m', scanAndFixRegion old m ps = some m'
  | m, [], _, _ => ⟨m, rfl⟩
  | m, p :: ps, hn, hall => by
    obtain ⟨hp, hn⟩ := List.nodup_cons.mp hn
    unfold scanAndFixRegion
    split
    · rename_i hc
      rw [Bool.and_eq_true] at hc
      obtain ⟨v, hv⟩ := hall p (List.mem_cons_self ..) hc.1 hc.2
      obtain ⟨m', hm'⟩ := exists_scanAndFixRegion old (m.setRam p v) hn fun a ha hva hoa => by
        have hne : a ≠ p := fun h => hp (h ▸ ha)
        simp only [Memory.setRam, if_neg hne] at hva hoa ⊢
        exact hall a (List.mem_cons_of_mem _ ha) hva hoa
      exact ⟨m', by rw [hv]; exact hm'⟩
    · exact exists_scanAndFixRegion old m hn fun a ha => hall a (List.mem_cons_of_mem _ ha)

/-! ### The collection -/

/-- What the collector assumes of its roots. -/
structure ValidRoots (m : Memory) (objects : List ℕ) (roots : Roots) : Prop where
  stack : ∀ a ∈ region (roots.stackTop + 1) roots.stackBottom, ValidWord m.heap objects (m.ram a)
  extra : ∀ a ∈ roots.extraRoots, ValidWord m.heap objects (m.ram a)
  nodup : roots.extraRoots.Nodup
  bottom : isValidHeapPointer m.heap (m.ram roots.stackBottom) = false
  customData : ∀ a ∈ region roots.startCustomData roots.stopCustomData,
    isValidHeapPointer m.heap (m.ram a) = false

/-- The objects that the roots reach. -/
def liveObjects (m : Memory) (objects : List ℕ) (roots : Roots) : Set ℕ :=
  Live m.heap objects m.ram (scannedRoots roots)

/-- The image at `q`, in the heap `h'`, of the object at `p`: the same header, the bits of the
    collector clear, the pointer fields redirected, the other bytes the same. -/
structure ObjectImage (h : MemoryChunk) (objects : List ℕ) (live : Set ℕ) (h' : MemoryChunk) (p q : ℕ) :
    Prop where
  header : h'.words q = h.words p
  unmarked : getMarkBit (h'.words (q + 1)) = false
  dequeued : isEnqueuedBit (h'.words (q + 1)) = false
  fields : ∀ j, IsField h p (p + j) →
    h'.words (q + j) = redirect h objects live h'.begin (h.words (p + j))
  bytes : ∀ i, 8 ≤ i → i < objectBytes (h.words p) → ¬ IsField h p (p + i / 4) →
    byteAt h'.words (4 * q + i) = byteAt h.words (4 * p + i)

open scoped Classical in
/-- The heap of `m'` is that of `m` after a collection that put it at `begin`: the images of the live
    objects one after another in the same order, and behind them a new block of `size` words. -/
structure Compacted (m : Memory) (objects : List ℕ) (roots : Roots) (begin size : ℕ) (m' : Memory) :
    Prop where
  begin_eq : m'.heap.begin = begin
  current : m'.heap.current =
    begin + liveWords m.heap objects (liveObjects m objects roots) + size
  room : m'.heap.current ≤ m'.heap.end_
  packed : Tiles (wordsAt m'.heap) 0
    ((objects.filter (· ∈ liveObjects m objects roots)).map
      (newOffset m.heap objects (liveObjects m objects roots)))
    (liveWords m.heap objects (liveObjects m objects roots))
  images : ∀ p ∈ objects, p ∈ liveObjects m objects roots →
    ObjectImage m.heap objects (liveObjects m objects roots) m'.heap p
      (newOffset m.heap objects (liveObjects m objects roots) p)
  block : ∀ k, liveWords m.heap objects (liveObjects m objects roots) ≤ k →
    k < liveWords m.heap objects (liveObjects m objects roots) + size → m'.heap.words k = 0

/-- Moreover the root words have followed their objects, and no other word has changed. -/
structure Collected (m : Memory) (objects : List ℕ) (roots : Roots) (begin size : ℕ) (m' : Memory) :
    Prop extends Compacted m objects roots begin size m' where
  redirected : ∀ a ∈ scannedRoots roots,
    m'.ram a = redirect m.heap objects (liveObjects m objects roots) begin (m.ram a)
  others : ∀ a, a ∉ scannedRoots roots → m'.ram a = m.ram a

/-- `mremap` finds room at `begin`, and no size overflows. -/
def FitsAt (m : Memory) (objects : List ℕ) (roots : Roots) (begin size : ℕ) : Prop :=
  begin + max (max (liveWords m.heap objects (liveObjects m objects roots) *
    extraRoomHeapCoefficient + size) minimumHeapCapacity) m.heap.size < 2 ^ 30

/-- The extra roots that are skipped without being fixed by another pass. -/
def Unfixed (roots : Roots) (a : ℕ) : Prop :=
  (a = roots.stackTop ∧ a < roots.stackBottom) ∨
    (a = roots.stopCustomData ∧ roots.startCustomData ≤ a ∧
      ¬ (roots.stackTop < a ∧ a ≤ roots.stackBottom))

section Collect
variable {m : Memory} {objects : List ℕ} {roots : Roots} {begin size : ℕ}

theorem ValidRoots.scanned (hv : ValidRoots m objects roots) :
    ∀ a ∈ scannedRoots roots, ValidWord m.heap objects (m.ram a) := by
  intro a ha
  rcases List.mem_append.mp ha with ha | ha
  · exact hv.stack a ha
  · rcases List.mem_append.mp ha with ha | ha
    · exact hv.extra a ha
    · intro hvalid
      rw [hv.customData a ha] at hvalid
      cases hvalid

/-- A root word points to a live object. -/
theorem ValidRoots.live (hv : ValidRoots m objects roots) {a : ℕ}
    (ha : a ∈ scannedRoots roots) (hvalid : isValidHeapPointer m.heap (m.ram a) = true) :
    ∃ p ∈ objects, p ∈ liveObjects m objects roots ∧ m.ram a = contentWord m.heap p := by
  obtain ⟨p, hp, heq⟩ := hv.scanned a ha hvalid
  exact ⟨p, hp, Runs.subset_reachable ⟨hp, a, ha, heq⟩, heq⟩

theorem closed_liveObjects :
    Runs.Closed (PointsTo m.heap objects) (liveObjects m objects roots) := Runs.closed_reachable

/-- The words that are examined but not scanned hold no heap address. -/
theorem ValidRoots.examined (hv : ValidRoots m objects roots) {a : ℕ} (ha : a ∈ examinedRoots roots) :
    a ∈ scannedRoots roots ∨ isValidHeapPointer m.heap (m.ram a) = false := by
  rcases List.mem_append.mp ha with ha | ha
  · obtain ⟨hlo, hhi⟩ := mem_region.mp ha
    by_cases hb : a = roots.stackBottom
    · exact Or.inr (hb ▸ hv.bottom)
    · exact Or.inl (List.mem_append_left _ (mem_region.mpr ⟨hlo, by omega⟩))
  · exact Or.inl (List.mem_append_right _ (List.mem_append_left _ (List.mem_filter.mp ha).1))

/-- A root word that no pass examines. -/
theorem not_examined {a : ℕ} (ha : a ∈ scannedRoots roots) (hnot : a ∉ examinedRoots roots) :
    a ∈ region roots.startCustomData roots.stopCustomData ∨
      a ∈ roots.extraRoots ∧ Unfixed roots a := by
  rw [examinedRoots, List.mem_append, not_or, mem_region, List.mem_filter] at hnot
  obtain ⟨hregion, hextra⟩ := hnot
  rcases List.mem_append.mp ha with ha | ha
  · have := mem_region.mp ha
    exact absurd ⟨this.1, Nat.lt_succ_of_lt this.2⟩ hregion
  · rcases List.mem_append.mp ha with ha | ha
    · have hskip : skippedRoot roots a = true := by
        by_contra hs
        exact hextra ⟨ha, by simpa using hs⟩
      simp only [skippedRoot, Bool.or_eq_true, Bool.and_eq_true, decide_eq_true_eq] at hskip
      rw [mem_region]
      unfold Unfixed
      by_cases hcustom : roots.startCustomData ≤ a ∧ a < roots.stopCustomData
      · exact Or.inl hcustom
      · refine Or.inr ⟨ha, ?_⟩
        omega
    · exact Or.inl ha

theorem Unfixed.not_examined {a : ℕ} (hu : Unfixed roots a) : a ∉ examinedRoots roots := by
  rw [examinedRoots, List.mem_append, mem_region, List.mem_filter]
  have hskip : skippedRoot roots a = true := by
    simp only [skippedRoot, Bool.or_eq_true, Bool.and_eq_true, decide_eq_true_eq]
    unfold Unfixed at hu
    omega
  unfold Unfixed at hu
  rintro (h | h)
  · omega
  · rw [hskip] at h
    exact absurd h.2 (by simp)

/-- The pass over root words redirects each of them once. -/
theorem Remapped.fixRoots {old g u : MemoryChunk} (hwf : WellFormed m.heap objects)
    (hv : ValidRoots m objects roots)
    (hr : Remapped m.heap objects (liveObjects m objects roots) old g)
    (hu : Updated m.heap objects (liveObjects m objects roots) g objects u) :
    ∃ m', scanAndFixRegion old { m with heap := u } (examinedRoots roots) = some m' ∧ m'.heap = u ∧
      ∀ a, (a ∈ examinedRoots roots → m'.ram a =
          redirect m.heap objects (liveObjects m objects roots) g.begin (m.ram a)) ∧
        (a ∉ examinedRoots roots → m'.ram a = m.ram a) := by
  have hs := hwf.toObjects
  have hforward : ∀ a ∈ examinedRoots roots, isValidPointer (m.ram a) = true →
      inOldHeap old (m.ram a) = true → forwarded old u (m.ram a) =
        some (redirect m.heap objects (liveObjects m objects roots) g.begin (m.ram a)) := by
    intro a ha hptr hin
    have hboxed : unboxed (m.ram a) = false := by simpa [isValidPointer] using hptr
    rw [inOldHeap_iff hr.located.bounds hboxed] at hin
    rcases hv.examined ha with hscan | hnot
    · obtain ⟨p, hp, hlive, heq⟩ := hv.live hscan hin
      rw [heq]
      exact hr.forwarded_eq hs hu.bounds (hu.word hs (List.Subset.refl _) hp) hp hlive
    · rw [hin] at hnot
      cases hnot
  -- what one pass makes of a word that has not been fixed
  have hfixed : ∀ a ∈ examinedRoots roots, ∀ v', Fixed old u (m.ram a) v' →
      v' = redirect m.heap objects (liveObjects m objects roots) g.begin (m.ram a) := by
    intro a ha v' hf
    unfold Fixed at hf
    split at hf
    · rename_i hc
      rw [Bool.and_eq_true] at hc
      rw [hforward a ha hc.1 hc.2, Option.some.injEq] at hf
      exact hf.symm
    · rename_i hc
      rw [hf, redirect_other]
      cases hboxed : unboxed (m.ram a) with
      | true => rw [isValidHeapPointer, hboxed]; rfl
      | false =>
        rw [← inOldHeap_iff hr.located.bounds hboxed]
        simpa [isValidPointer, hboxed] using hc
  obtain ⟨m₁, hm₁⟩ := exists_scanAndFixRegion old { m with heap := u }
    (region_nodup (roots.stackTop + 1) (roots.stackBottom + 1)) fun a ha hptr hin =>
      ⟨_, hforward a (List.mem_append_left _ ha) hptr hin⟩
  obtain ⟨hheap₁, hram₁⟩ := scanAndFixRegion_ok (region_nodup _ _) hm₁
  have hheap₁ : m₁.heap = u := hheap₁
  -- the extra roots that are not skipped still hold their old words
  have hold : ∀ a ∈ roots.extraRoots.filter (fun p => !skippedRoot roots p), m₁.ram a = m.ram a := by
    intro a ha
    by_cases hreg : a ∈ region (roots.stackTop + 1) (roots.stackBottom + 1)
    · have hbot : a = roots.stackBottom := by
        obtain ⟨hlo, hhi⟩ := mem_region.mp hreg
        have hns := (List.mem_filter.mp ha).2
        simp only [skippedRoot, Bool.not_eq_true', Bool.or_eq_false_iff, Bool.and_eq_false_iff,
          decide_eq_false_iff_not] at hns
        omega
      have := hfixed a (List.mem_append_left _ hreg) _ ((hram₁ a).1 hreg)
      rw [this, redirect_other (hbot ▸ hv.bottom)]
    · exact (hram₁ a).2 hreg
  have hnodup : (roots.extraRoots.filter fun p => !skippedRoot roots p).Nodup := hv.nodup.filter _
  obtain ⟨m₂, hm₂⟩ := exists_scanAndFixRegion old m₁ hnodup fun a ha hptr hin => by
    rw [hold a ha] at hptr hin ⊢
    rw [hheap₁]
    exact ⟨_, hforward a (List.mem_append_right _ ha) hptr hin⟩
  obtain ⟨hheap₂, hram₂⟩ := scanAndFixRegion_ok hnodup hm₂
  refine ⟨m₂, ?_, hheap₂.trans hheap₁, fun a => ⟨fun ha => ?_, fun ha => ?_⟩⟩
  · rw [examinedRoots, scanAndFixRegion_append, hm₁]
    exact hm₂
  · by_cases hext : a ∈ roots.extraRoots.filter fun p => !skippedRoot roots p
    · have := (hram₂ a).1 hext
      rw [hold a hext, hheap₁] at this
      exact hfixed a ha _ this
    · have hreg := (List.mem_append.mp ha).resolve_right hext
      rw [(hram₂ a).2 hext]
      exact hfixed a ha _ ((hram₁ a).1 hreg)
  · rw [examinedRoots, List.mem_append, not_or] at ha
    rw [(hram₂ a).2 ha.2, (hram₁ a).2 ha.1]

/-- The image of a live object after the last pass. -/
theorem Slid.image {old g u h h' : MemoryChunk} {p b : ℕ} (hwf : WellFormed m.heap objects)
    (hr : Remapped m.heap objects (liveObjects m objects roots) old g)
    (hu : Updated m.heap objects (liveObjects m objects roots) g objects u)
    (hsl : Slid m.heap objects (liveObjects m objects roots) u objects b h) (hp : p ∈ objects)
    (hlive : p ∈ liveObjects m objects roots) (hbegin : h'.begin = g.begin)
    (hwords : ∀ k, k < liveWords m.heap objects (liveObjects m objects roots) →
      h'.words k = h.words k) :
    ObjectImage m.heap objects (liveObjects m objects roots) h' p
      (newOffset m.heap objects (liveObjects m objects roots) p) := by
  have hs := hwf.toObjects
  have hup := hu.header hs hr hp
  have hpos := (hs.object hp).pos
  have hbounds := hs.bounds hp
  have hend : newOffset m.heap objects (liveObjects m objects roots) p +
      objectWords (m.heap.words p) ≤ liveWords m.heap objects (liveObjects m objects roots) :=
    (hs.tiles.target_le hp hlive).2
  have hc : Copied u.words h'.words p (newOffset m.heap objects (liveObjects m objects roots) p) :=
    (hsl.copies p hp hlive).congr (by rw [hup]; exact hpos)
      fun k _ hk => hwords k (by rw [hup] at hk; omega)
  obtain ⟨-, -, -, -, h8, h4, -⟩ := objectWords_spec hpos
  have hforward : u.words (p + 1) = old.words (p + 1) := by
    rw [(hu.word hs (List.Subset.refl _) hp).2, hr.words (p + 1) (by omega)]
  refine ⟨by rw [hc.header, hup], by rw [hc.forward, getMarkBit_resetMarkBit], ?_, fun j hf => ?_,
    fun i hlo hi hf => ?_⟩
  · rw [hc.forward, isEnqueuedBit_resetMarkBit, hforward]
    exact hr.located.dequeued p hp
  · have hlo := hf.1
    have hhi := hf.2
    have hfull := objectBytes_of_field (x := m.heap.words p) (by omega)
    have h2 := two_le_firstField hpos
    rw [hc.word j (by omega) (by rw [hup]; omega), hu.fields p hp hlive _ hf,
      hr.words_field hs hp hf, hbegin]
  · rw [hc.bytes i hlo (by rw [hup]; exact hi), byteAt, byteAt,
      show (4 * p + i) / 4 = p + i / 4 by omega]
    have hbody := fun q hq => hs.body hp (k := p + i / 4) (q := q) (by omega) (by omega) hq
    rw [hu.others _ fun q hq _ hfq => hf ((hbody q hq).2 hfq ▸ hfq), hr.words _ (by omega),
      hr.located.same _ fun q hq => (hbody q hq).1]

/-- `gc_alloc` compacts the heap into what `mremap` gave, and redirects the root words that
    `update_references` examines. -/
theorem gcAlloc_compacts (hwf : WellFormed m.heap objects) (hv : ValidRoots m objects roots)
    (hfits : FitsAt m objects roots begin size) :
    ∃ m', gcAlloc roots (some begin) size m =
        some (some (begin + liveWords m.heap objects (liveObjects m objects roots)), m') ∧
      Compacted m objects roots begin size m' ∧
      (m'.heap.end_ = begin + m'.heap.size ∧ m'.heap.end_ < 2 ^ 30) ∧
      ∀ a, (a ∈ examinedRoots roots → m'.ram a =
          redirect m.heap objects (liveObjects m objects roots) begin (m.ram a)) ∧
        (a ∉ examinedRoots roots → m'.ram a = m.ram a) := by
  have hs := hwf.toObjects
  obtain ⟨h₁, -, hmark, -, hmarked, -⟩ := mark_reaches hwf hv.scanned
  have hphase : markPhase roots m = some { m with heap := h₁ } := by rw [markPhase_eq, hmark]; rfl
  obtain ⟨old, hcompute, hlocated⟩ := Marked.computeLocations hs hmarked
  -- the live words are `n`, and the heap grows to `w` words
  obtain ⟨n, hn⟩ : ∃ n, n = liveWords m.heap objects (liveObjects m objects roots) := ⟨_, rfl⟩
  have hlocations : Lama.computeLocations h₁ = some (old, n) := by rw [hn]; exact hcompute
  obtain ⟨w, hw⟩ : ∃ w, w = nextHeapPseudoSize n size old.size := ⟨_, rfl⟩
  have hsizes : 2 * n + size ≤ w ∧ m.heap.size ≤ w ∧ begin + w < 2 ^ 30 := by
    unfold FitsAt at hfits
    rw [← hn] at hfits
    rw [hw, nextHeapPseudoSize, hlocated.bounds.size]
    simp only [extraRoomHeapCoefficient, minimumHeapCapacity] at hfits ⊢
    omega
  have hspan := hs.span
  have hcur := hs.current_le
  have hbeg := hs.begin_le
  have hr : Remapped m.heap objects (liveObjects m objects roots) old (mremapTo old begin w) := by
    refine ⟨hlocated, ?_, rfl, hsizes.2.1, hsizes.2.2, fun k hk => ?_⟩
    · simp only [mremapTo, hlocated.bounds.begin, hlocated.bounds.current]
    · simp only [mremapTo, hlocated.bounds.size]
      rw [if_pos (by omega)]
  obtain ⟨u, hupdate, hu⟩ := hr.updateObjects hwf closed_liveObjects
  obtain ⟨m₂, hfix, hheap, hram⟩ := hr.fixRoots hwf hv hu
  obtain ⟨h₃, b, hrelocate, hsl⟩ := hu.relocate hs hr
  have hb₃ : SameBounds (mremapTo old begin w) h₃ := hu.bounds.trans hsl.bounds
  have hcompact : compactPhase roots (some begin) size { m with heap := h₁ } =
      some { m₂ with heap := { h₃ with current := h₃.begin + n } } := by
    simp only [compactPhase, hlocations, Option.bind_eq_bind, Option.bind_some, ← hw,
      updateReferences_eq, hupdate]
    rw [hfix, Option.bind_some, hheap, hrelocate]
    rfl
  have hbegin : h₃.begin = begin := hb₃.begin
  have hend : h₃.end_ = begin + w := hb₃.end_
  have halloc : gcAllocOnExistingHeap { h₃ with current := h₃.begin + n } size =
      some (some (begin + n), { h₃ with
        current := begin + n + size
        words := fun k => if n ≤ k ∧ k < n + size then 0 else h₃.words k }) := by
    have h30 : (h₃.begin + n + size) % 2 ^ 30 = begin + n + size := by rw [hbegin]; omega
    have hsize : size % 2 ^ 30 = size := by omega
    rw [gcAllocOnExistingHeap]
    simp only [h30, hsize, hend, Nat.add_sub_cancel_left]
    rw [if_pos (by omega), if_pos (by omega), hbegin]
  refine ⟨{ m₂ with heap := { h₃ with
      current := begin + n + size
      words := fun k => if n ≤ k ∧ k < n + size then 0 else h₃.words k } }, ?_, ?_, ?_, hram⟩
  · rw [gcAlloc, hphase]
    simp only [Option.bind_eq_bind, Option.bind_some, hcompact, halloc, ← hn]
    rfl
  · have himage : ∀ p ∈ objects, p ∈ liveObjects m objects roots →
        ObjectImage m.heap objects (liveObjects m objects roots)
          { h₃ with
            current := begin + n + size
            words := fun k => if n ≤ k ∧ k < n + size then 0 else h₃.words k } p
          (newOffset m.heap objects (liveObjects m objects roots) p) := fun p hp hlive =>
      hsl.image hwf hr hu hp hlive hbegin fun k hk => if_neg (by omega)
    refine ⟨hbegin, by rw [hn], ?_, ?_, himage, fun k hlo hhi => if_pos ⟨by omega, by omega⟩⟩
    · show begin + n + size ≤ h₃.end_
      omega
    · exact hs.tiles.packed fun p hp hlive => congrArg objectWords (himage p hp hlive).header
  · have hsize : h₃.size = w := hb₃.size
    exact ⟨by rw [hend, hsize], by rw [hend]; exact hsizes.2.2⟩

/-- A collection preserves the live objects and follows the root words, exactly when every extra root
    that lies at `__gc_stack_top` or at `__stop_custom_data` points to an object that keeps its
    address. -/
theorem gc_preserves (hwf : WellFormed m.heap objects) (hv : ValidRoots m objects roots)
    (hfits : FitsAt m objects roots begin size) :
    ∃ m', gcAlloc roots (some begin) size m =
        some (some (begin + liveWords m.heap objects (liveObjects m objects roots)), m') ∧
      (Collected m objects roots begin size m' ↔
        ∀ a ∈ roots.extraRoots, Unfixed roots a → ∀ p ∈ objects, m.ram a = contentWord m.heap p →
          begin + newOffset m.heap objects (liveObjects m objects roots) p = m.heap.begin + p) := by
  have hs := hwf.toObjects
  obtain ⟨m', hrun, hcompacted, -, hram⟩ := gcAlloc_compacts hwf hv hfits
  refine ⟨m', hrun, fun hcollected a ha hun p hp heq => ?_, fun hstays => ⟨hcompacted, ?_, ?_⟩⟩
  · have hscan : a ∈ scannedRoots roots := List.mem_append_right _ (List.mem_append_left _ ha)
    have hword := hcollected.redirected a hscan
    rw [(hram a).2 hun.not_examined, heq, redirect_content hs hp] at hword
    have hlive : p ∈ liveObjects m objects roots := Runs.subset_reachable ⟨hp, a, hscan, heq⟩
    have hlt := hs.content_lt hp
    have hlt' : begin + newOffset m.heap objects (liveObjects m objects roots) p + headerSize <
        2 ^ 30 := by
      have hle : newOffset m.heap objects (liveObjects m objects roots) p +
          objectWords (m.heap.words p) ≤ liveWords m.heap objects (liveObjects m objects roots) :=
        (hs.tiles.target_le hp hlive).2
      have := (hs.object hp).two_le
      unfold FitsAt at hfits
      simp only [extraRoomHeapCoefficient, minimumHeapCapacity] at hfits
      unfold headerSize
      omega
    have := ptr_inj hlt hlt' hword
    omega
  · intro a ha
    by_cases hex : a ∈ examinedRoots roots
    · exact (hram a).1 hex
    · rw [(hram a).2 hex]
      rcases not_examined ha hex with hcustom | ⟨hextra, hun⟩
      · rw [redirect_other (hv.customData a hcustom)]
      · cases hvalid : isValidHeapPointer m.heap (m.ram a) with
        | false => rw [redirect_other hvalid]
        | true =>
          obtain ⟨p, hp, heq⟩ := hv.extra a hextra hvalid
          rw [heq, redirect_content hs hp, hstays a hextra hun p hp heq, contentWord]
  · intro a ha
    by_cases hex : a ∈ examinedRoots roots
    · have hnot := (hv.examined hex).resolve_left ha
      rw [(hram a).1 hex, redirect_other hnot]
    · exact (hram a).2 hex

end Collect

/-- A memory whose words are unboxed but for a pointer into the cycle at `a`. -/
def cyclicMemory (a : ℕ) : Memory where
  ram b := if b = a then ptr 18 else 1
  heap := cyclicHeap

/-- A stack of two words, and an extra root. -/
def extraRoot (a : ℕ) : Roots := ⟨100, 103, [a], 200, 200⟩

theorem cyclicMemory_validWord (a b : ℕ) : ValidWord cyclicHeap [0, 3, 6] ((cyclicMemory a).ram b) := by
  intro hvalid
  by_cases hb : b = a
  · exact ⟨0, by decide, by simp only [cyclicMemory, if_pos hb]; decide⟩
  · simp only [cyclicMemory, if_neg hb] at hvalid
    exact absurd hvalid (by decide)

theorem extraRoot_valid {a : ℕ} (ha : a < 103) :
    ValidRoots (cyclicMemory a) [0, 3, 6] (extraRoot a) where
  stack b _ := cyclicMemory_validWord a b
  extra b _ := cyclicMemory_validWord a b
  nodup := List.nodup_singleton a
  bottom := by
    simp only [cyclicMemory, extraRoot, if_neg (show ¬ 103 = a by omega)]
    decide
  customData b hb := by
    obtain ⟨hlo, hhi⟩ := mem_region.mp hb
    simp only [extraRoot] at hlo hhi
    omega

theorem extraRoot_fits (a : ℕ) : FitsAt (cyclicMemory a) [0, 3, 6] (extraRoot a) 64 4 := by
  have hle : liveWords cyclicHeap [0, 3, 6] (liveObjects (cyclicMemory a) [0, 3, 6] (extraRoot a)) ≤
      8 := by
    have hle : 0 + liveWords cyclicHeap [0, 3, 6]
        (liveObjects (cyclicMemory a) [0, 3, 6] (extraRoot a)) ≤ 8 :=
      cyclicHeap_wellFormed.tiles.total_le
    rwa [Nat.zero_add] at hle
  have hsize : (cyclicMemory a).heap.size = 16 := rfl
  unfold FitsAt
  rw [hsize, show (cyclicMemory a).heap = cyclicHeap from rfl]
  simp only [extraRoomHeapCoefficient, minimumHeapCapacity]
  omega

theorem gc_preserves_cyclicMemory :
    ∃ m', gcAlloc (extraRoot 101) (some 64) 4 (cyclicMemory 101) = some (some (64 + liveWords
        cyclicHeap [0, 3, 6] (liveObjects (cyclicMemory 101) [0, 3, 6] (extraRoot 101))), m') ∧
      (Collected (cyclicMemory 101) [0, 3, 6] (extraRoot 101) 64 4 m' ↔
        ∀ a ∈ (extraRoot 101).extraRoots, Unfixed (extraRoot 101) a → ∀ p ∈ [0, 3, 6],
          (cyclicMemory 101).ram a = contentWord cyclicHeap p → 64 + newOffset cyclicHeap [0, 3, 6]
            (liveObjects (cyclicMemory 101) [0, 3, 6] (extraRoot 101)) p = 16 + p) :=
  gc_preserves cyclicHeap_wellFormed (extraRoot_valid (by decide)) (extraRoot_fits 101)

/-- An extra root at `__gc_stack_top` keeps its object alive and is left pointing to where it was. -/
theorem stackTopRoot_dangles :
    WellFormed (cyclicMemory 100).heap [0, 3, 6] ∧
      ValidRoots (cyclicMemory 100) [0, 3, 6] (extraRoot 100) ∧
      FitsAt (cyclicMemory 100) [0, 3, 6] (extraRoot 100) 64 4 ∧
      ∃ r m', gcAlloc (extraRoot 100) (some 64) 4 (cyclicMemory 100) = some (some r, m') ∧
        ¬ Collected (cyclicMemory 100) [0, 3, 6] (extraRoot 100) 64 4 m' := by
  have hvalid := extraRoot_valid (a := 100) (by decide)
  obtain ⟨m', hrun, -, -, hram⟩ :=
    gcAlloc_compacts cyclicHeap_wellFormed hvalid (extraRoot_fits 100)
  refine ⟨cyclicHeap_wellFormed, hvalid, extraRoot_fits 100, _, m', hrun, fun hc => ?_⟩
  have hnot : 100 ∉ examinedRoots (extraRoot 100) := Unfixed.not_examined (Or.inl ⟨rfl, by decide⟩)
  have hword := hc.redirected 100 (by decide)
  have hroot : (cyclicMemory 100).ram 100 = contentWord cyclicHeap 0 := by decide
  rw [(hram 100).2 hnot, hroot] at hword
  rw [show (cyclicMemory 100).heap = cyclicHeap from rfl,
    redirect_content cyclicHeap_wellFormed.toObjects (by decide)] at hword
  -- the first object stays first
  rw [show newOffset cyclicHeap [0, 3, 6] (liveObjects (cyclicMemory 100) [0, 3, 6] (extraRoot 100)) 0 =
    0 by simp [newOffset, target, total]] at hword
  exact absurd hword (by decide)

/-! ### Scanned and examined -/

/-- The words that the collector marks from are those it examines, each once, to redirect them. -/
structure RootsAgree (roots : Roots) : Prop where
  same : ∀ a, a ∈ scannedRoots roots ↔ a ∈ examinedRoots roots
  once : (examinedRoots roots).Nodup

/-- The custom data and the extra roots that are skipped are words of the stack that are fixed, the
    word at `__gc_stack_bottom` among them if there are any, and the other extra roots are distinct. -/
structure RootsInStack (roots : Roots) : Prop where
  custom : ∀ a ∈ region roots.startCustomData roots.stopCustomData,
    roots.stackTop < a ∧ a ≤ roots.stackBottom
  skipped : ∀ a ∈ roots.extraRoots, skippedRoot roots a = true →
    roots.stackTop < a ∧ a ≤ roots.stackBottom
  bottom : roots.stackTop < roots.stackBottom →
    roots.stackBottom ∈ region roots.startCustomData roots.stopCustomData ∨
      roots.stackBottom ∈ roots.extraRoots ∧ skippedRoot roots roots.stackBottom = true
  distinct : (roots.extraRoots.filter fun a => !skippedRoot roots a).Nodup

theorem skippedRoot_custom {roots : Roots} {a : ℕ}
    (ha : a ∈ region roots.startCustomData roots.stopCustomData) : skippedRoot roots a = true := by
  obtain ⟨hlo, hhi⟩ := mem_region.mp ha
  simp only [skippedRoot, Bool.or_eq_true, Bool.and_eq_true, decide_eq_true_eq]
  omega

/-- An extra root that is not skipped is a fixed stack word only at `__gc_stack_bottom`. -/
theorem eq_stackBottom {roots : Roots} {a : ℕ} (hskip : skippedRoot roots a = false)
    (hlo : roots.stackTop < a) (hhi : a ≤ roots.stackBottom) : a = roots.stackBottom := by
  simp only [skippedRoot, Bool.or_eq_false_iff, Bool.and_eq_false_iff, decide_eq_false_iff_not] at hskip
  omega

theorem RootsAgree.inStack {roots : Roots} (h : RootsAgree roots) : RootsInStack roots := by
  have hfixed : ∀ a, a ∈ scannedRoots roots → skippedRoot roots a = true →
      roots.stackTop < a ∧ a ≤ roots.stackBottom := by
    intro a ha hskip
    rcases List.mem_append.mp ((h.same a).mp ha) with hr | hr
    · obtain ⟨hlo, hhi⟩ := mem_region.mp hr
      omega
    · have := (List.mem_filter.mp hr).2
      rw [hskip] at this
      cases this
  refine ⟨fun a ha => ?_, fun a ha hskip => ?_, fun hlt => ?_, ?_⟩
  · exact hfixed a (List.mem_append_right _ (List.mem_append_right _ ha)) (skippedRoot_custom ha)
  · exact hfixed a (List.mem_append_right _ (List.mem_append_left _ ha)) hskip
  · have hmem : roots.stackBottom ∈ region (roots.stackTop + 1) (roots.stackBottom + 1) :=
      mem_region.mpr ⟨hlt, Nat.lt_succ_self _⟩
    rcases List.mem_append.mp ((h.same _).mpr (List.mem_append_left _ hmem)) with hr | hr
    · exact absurd (mem_region.mp hr).2 (Nat.lt_irrefl _)
    · rcases List.mem_append.mp hr with hextra | hcustom
      · refine Or.inr ⟨hextra, ?_⟩
        by_contra hskip
        have hfilter : roots.stackBottom ∈ roots.extraRoots.filter fun a => !skippedRoot roots a :=
          List.mem_filter.mpr ⟨hextra, by simpa using hskip⟩
        exact (List.nodup_append.mp h.once).2.2 _ hmem _ hfilter rfl
      · exact Or.inl hcustom
  · exact (List.nodup_append.mp h.once).2.1

theorem RootsInStack.agree {roots : Roots} (h : RootsInStack roots) : RootsAgree roots := by
  have hstack : ∀ a, roots.stackTop < a → a ≤ roots.stackBottom → a ∈ examinedRoots roots :=
    fun a hlo hhi => List.mem_append_left _ (mem_region.mpr ⟨hlo, Nat.lt_succ_of_le hhi⟩)
  refine ⟨fun a => ⟨fun ha => ?_, fun ha => ?_⟩, ?_⟩
  · rcases List.mem_append.mp ha with hr | hr
    · obtain ⟨hlo, hhi⟩ := mem_region.mp hr
      exact hstack a hlo (Nat.le_of_lt hhi)
    · rcases List.mem_append.mp hr with hextra | hcustom
      · cases hskip : skippedRoot roots a with
        | true =>
          obtain ⟨hlo, hhi⟩ := h.skipped a hextra hskip
          exact hstack a hlo hhi
        | false => exact List.mem_append_right _ (List.mem_filter.mpr ⟨hextra, by simp [hskip]⟩)
      · obtain ⟨hlo, hhi⟩ := h.custom a hcustom
        exact hstack a hlo hhi
  · rcases List.mem_append.mp ha with hr | hr
    · obtain ⟨hlo, hhi⟩ := mem_region.mp hr
      by_cases hbot : a = roots.stackBottom
      · rw [hbot]
        rcases h.bottom (by omega) with hcustom | ⟨hextra, -⟩
        · exact List.mem_append_right _ (List.mem_append_right _ hcustom)
        · exact List.mem_append_right _ (List.mem_append_left _ hextra)
      · exact List.mem_append_left _ (mem_region.mpr ⟨hlo, by omega⟩)
    · exact List.mem_append_right _ (List.mem_append_left _ (List.mem_filter.mp hr).1)
  · refine List.nodup_append.mpr ⟨region_nodup _ _, h.distinct, fun a ha b hb hab => ?_⟩
    subst hab
    obtain ⟨hlo, hhi⟩ := mem_region.mp ha
    have hskip : skippedRoot roots a = false := by simpa using (List.mem_filter.mp hb).2
    have hbot := eq_stackBottom hskip hlo (Nat.le_of_lt_succ hhi)
    have hbottom : skippedRoot roots roots.stackBottom = true := by
      rcases h.bottom (by omega) with hcustom | ⟨-, hskipped⟩
      · exact skippedRoot_custom hcustom
      · exact hskipped
    rw [← hbot, hskip] at hbottom
    cases hbottom

/-- `mark_phase` marks from `scannedRoots` and `update_references` examines `examinedRoots`, in any
    state; they are the same words, each examined once, if and only if the roots meet `RootsInStack`. -/
theorem roots_agree_iff (roots : Roots) :
    (∀ m, markPhase roots m =
      (markWords m.ram m.heap (scannedRoots roots)).map fun h => { m with heap := h }) ∧
    (∀ old m, updateReferences old roots m =
      updateObjects old m.heap.fuel m.heap m.heap.begin >>= fun h =>
        scanAndFixRegion old { m with heap := h } (examinedRoots roots)) ∧
    (RootsAgree roots → ∀ old m m', scanAndFixRegion old m (examinedRoots roots) = some m' →
      ∀ a, (a ∈ scannedRoots roots → Fixed old m.heap (m.ram a) (m'.ram a)) ∧
        (a ∉ scannedRoots roots → m'.ram a = m.ram a)) ∧
    (RootsAgree roots ↔ RootsInStack roots) := by
  refine ⟨markPhase_eq roots, fun old m => updateReferences_eq old roots m, fun h old m m' hrun a => ?_,
    RootsAgree.inStack, RootsInStack.agree⟩
  obtain ⟨-, hram⟩ := scanAndFixRegion_ok h.once hrun
  rw [h.same a]
  exact hram a

/-- A word of the custom data keeps an object alive and is not redirected when the heap moves. -/
theorem customData_dangles :
    ¬ RootsAgree ⟨100, 103, [], 200, 201⟩ ∧
      (gcAlloc ⟨100, 103, [], 200, 201⟩ (some 64) 1 (cyclicMemory 200)).map (fun q =>
        (q.2.heap.begin, q.2.heap.words 0, q.2.ram 200)) = some (64, 11, ptr 18) := by
  constructor
  · intro h
    obtain ⟨-, hhi⟩ := h.inStack.custom 200 (by decide)
    exact absurd hhi (by decide)
  · decide +kernel

end Lama

import PlvmHomeworks.Runtime.Mark

/-! Compaction: the three passes of `compact_phase` over a heap whose live objects are marked.

    `compute_locations` leaves in every live object where it goes, `update_references` redirects the
    fields of live objects in place, and `physically_relocate` slides the objects down. -/

namespace Lama
open Sliding

/-- The size in words of the object at `p`. -/
def wordsAt (h : MemoryChunk) (p : ℕ) : ℕ := objectWords (h.words p)

/-- The words of the live objects. -/
noncomputable def liveWords (h : MemoryChunk) (objects : List ℕ) (live : Set ℕ) : ℕ :=
  total (wordsAt h) live objects

/-- Where the object at `p` goes. -/
noncomputable def newOffset (h : MemoryChunk) (objects : List ℕ) (live : Set ℕ) (p : ℕ) : ℕ :=
  target (wordsAt h) live objects p

variable {h₀ h : MemoryChunk} {objects : List ℕ} {live : Set ℕ}

theorem Marked.header (hs : Objects h₀ objects) (hm : Marked h₀ objects live h) {p : ℕ}
    (hp : p ∈ objects) : h.words p = h₀.words p :=
  hm.same p fun _ hq => hs.header_ne hp hq

theorem Marked.layout (hs : Objects h₀ objects) (hm : Marked h₀ objects live h) : Objects h objects :=
  hs.congr hm.bounds fun _ hp => hm.header hs hp

/-! ### `compute_locations` -/

/-- Moreover the live objects among `done` know where they go. -/
structure Located (h₀ : MemoryChunk) (objects : List ℕ) (live : Set ℕ) (done : List ℕ)
    (h : MemoryChunk) : Prop extends Marked h₀ objects live h where
  forward : ∀ p ∈ done, p ∈ live →
    getForwardBits (h.words (p + 1)) = ptr (h₀.begin + newOffset h₀ objects live p)

/-- `set_forward_address` of the next live object. -/
theorem Located.step (hs : Objects h₀ objects) {done post : List ℕ} {p : ℕ}
    (hobj : objects = done ++ p :: post) (hl : Located h₀ objects live done h) :
    let h' := h.setWord (p + 1)
      (setForwardBits (h.words (p + 1)) (ptr (h₀.begin + total (wordsAt h₀) live done)))
    Located h₀ objects live (done ++ [p]) h' := by
  intro h'
  have hp : p ∈ objects := by simp [hobj]
  have htarget : newOffset h₀ objects live p = total (wordsAt h₀) live done := by
    rw [newOffset, hobj]
    exact (hobj ▸ hs.tiles : Tiles (wordsAt h₀) 0 (done ++ p :: post) _).target_eq
  have hword : ∀ q, h'.words (q + 1) = if q = p then
      setForwardBits (h.words (p + 1)) (ptr (h₀.begin + total (wordsAt h₀) live done))
      else h.words (q + 1) := fun q => setWord_forward
  refine ⟨⟨hl.bounds.trans (setWord_bounds _ _ _), fun k hk => ?_, fun q hq => ?_, fun q hq => ?_⟩,
    fun q hq hlive => ?_⟩
  · rw [← hl.same k hk]
    simp [h', MemoryChunk.setWord, hk p hp]
  · rw [hword, ← hl.marked q hq]
    split
    · rename_i heq
      simp [heq]
    · rfl
  · rw [hword, ← hl.dequeued q hq]
    split
    · rename_i heq
      simp [heq]
    · rfl
  · rw [hword]
    split
    · rename_i heq
      rw [getForwardBits_setForwardBits, heq, htarget]
    · rename_i hne
      refine hl.forward q ?_ hlive
      rcases List.mem_append.mp hq with hq | hq
      · exact hq
      · exact absurd (List.mem_singleton.mp hq) hne

/-- The loop over the objects that have not been visited. -/
theorem Located.loop (hs : Objects h₀ objects) : ∀ {post done : List ℕ} {a fuel : ℕ}
    {h : MemoryChunk}, Located h₀ objects live done h → objects = done ++ post →
      Tiles (wordsAt h₀) a post (h₀.current - h₀.begin) → post.length < fuel →
      ∃ h', computeLocationsLoop fuel h (h₀.begin + a) (h₀.begin + total (wordsAt h₀) live done) =
          some (h', h₀.begin + liveWords h₀ objects live) ∧ Located h₀ objects live objects h' := by
  have hbegin := hs.begin_le
  intro post
  -- the induction is on the objects that are left; `free` is behind the live ones among the others
  induction post with
  | nil =>
    intro done a fuel h hl hobj htiles hfuel
    obtain ⟨fuel, rfl⟩ := Nat.exists_eq_succ_of_ne_zero (Nat.pos_iff_ne_zero.mp hfuel)
    rw [List.append_nil] at hobj
    have ha : a = h₀.current - h₀.begin := htiles
    have hdone : heapIsDone h (h₀.begin + a) = true := by
      rw [heapIsDone, hl.bounds.current, decide_eq_true_eq]
      omega
    refine ⟨h, ?_, hobj ▸ hl⟩
    rw [computeLocationsLoop, if_pos hdone, liveWords, hobj]
    rfl
  | cons p post ih =>
    intro done a fuel h hl hobj htiles hfuel
    obtain ⟨fuel, rfl⟩ := Nat.exists_eq_succ_of_ne_zero
      (Nat.pos_iff_ne_zero.mp (Nat.lt_of_le_of_lt (Nat.zero_le _) hfuel))
    obtain ⟨rfl, hpos, htiles⟩ := htiles
    have hp : p ∈ objects := by simp [hobj]
    have hle := htiles.length_le
    have hobj' : objects = (done ++ [p]) ++ post := by simp [hobj]
    have hnot : heapIsDone h (h₀.begin + p) = false := by
      rw [heapIsDone, hl.bounds.current, decide_eq_false_iff_not]
      omega
    have hl₀ := hl.layout hs
    have hcontent := (hl₀.object hp).content
    have hmarked := (hl₀.object hp).isMarked
    have hbytes := (hl₀.object hp).bytes
    have hset := (hl₀.object hp).mapForward
      (setForwardBits · (ptr (h₀.begin + total (wordsAt h₀) live done)))
    have hnext := (hl₀.object hp).next
    obtain ⟨-, -, -, hw, -⟩ := objectWords_spec (hl₀.object hp).pos
    rw [hl.bounds.begin] at hcontent hmarked hbytes hset hnext
    rw [hl.header hs hp] at hnext hbytes hw
    rw [computeLocationsLoop, if_neg (by simp [hnot])]
    simp only [Option.bind_eq_bind, Option.bind_some, hcontent, hmarked]
    by_cases hlive : p ∈ live
    · have hbit : getMarkBit (h.words (p + 1)) = true := (hl.marked p hp).mpr hlive
      have hl' := hl.step hs hobj
      have hnext' := ((hl'.layout hs).object hp).next
      rw [hl'.bounds.begin, hl'.header hs hp] at hnext'
      obtain ⟨h', hrun, hloc⟩ := ih hl' hobj' htiles (by simpa using hfuel)
      rw [total_append, total_kept hlive, ← Nat.add_assoc h₀.begin (total _ _ _)] at hrun
      refine ⟨h', ?_, hloc⟩
      simp only [hbit, if_true, hbytes, Option.bind_some, setForwardAddress, hset, ← hw, hnext']
      exact hrun
    · have hbit : getMarkBit (h.words (p + 1)) = false := by
        rw [Bool.eq_false_iff, Ne, hl.marked p hp]
        exact hlive
      have hl' : Located h₀ objects live (done ++ [p]) h := by
        refine ⟨hl.toMarked, fun q hq hq' => ?_⟩
        rcases List.mem_append.mp hq with hq | hq
        · exact hl.forward q hq hq'
        · exact absurd (List.mem_singleton.mp hq ▸ hq') hlive
      obtain ⟨h', hrun, hloc⟩ := ih hl' hobj' htiles (by simpa using hfuel)
      rw [total_append, total_dropped hlive, Nat.add_zero] at hrun
      refine ⟨h', ?_, hloc⟩
      simp only [hbit, Bool.false_eq_true, if_false, hnext, Option.bind_some]
      exact hrun

theorem Objects.length_lt_fuel (hs : Objects h₀ objects) : objects.length < h₀.fuel := by
  have hlen := hs.tiles.length_le
  have := hs.begin_le
  have := hs.current_le
  have := hs.span
  rw [MemoryChunk.fuel]
  omega

/-- `compute_locations` on a marked heap. -/
theorem Marked.computeLocations (hs : Objects h₀ objects) (hm : Marked h₀ objects live h) :
    ∃ h', Lama.computeLocations h = some (h', liveWords h₀ objects live) ∧
      Located h₀ objects live objects h' := by
  have hfuel : objects.length < h.fuel := by
    rw [MemoryChunk.fuel, hm.bounds.size]
    exact hs.length_lt_fuel
  have hstart : Located h₀ objects live [] h := ⟨hm, fun p hp => absurd hp List.not_mem_nil⟩
  obtain ⟨h', hrun, hl⟩ := hstart.loop hs rfl hs.tiles hfuel
  refine ⟨h', ?_, hl⟩
  rw [Lama.computeLocations, hm.bounds.begin]
  simp only [total, List.filter_nil, List.map_nil, List.sum_nil, Nat.add_zero] at hrun
  rw [hrun]
  simp [hl.bounds.begin]

/-! ### `update_references` -/

/-- The heap `g` that `mremap` makes of the heap `old`, from `compute_locations`. -/
structure Remapped (h₀ : MemoryChunk) (objects : List ℕ) (live : Set ℕ) (old g : MemoryChunk) : Prop where
  located : Located h₀ objects live objects old
  current : g.current = g.begin + (h₀.current - h₀.begin)
  span : g.end_ = g.begin + g.size
  room : h₀.size ≤ g.size
  fits : g.end_ < 2 ^ 30
  words : ∀ k, k < h₀.current - h₀.begin → g.words k = old.words k

/-- A word of the program after the collection, when the heap is at `begin`: a pointer to an object
    follows the object. -/
noncomputable def redirect (h₀ : MemoryChunk) (objects : List ℕ) (live : Set ℕ) (begin : ℕ)
    (v : Word) : Word :=
  if isValidHeapPointer h₀ v then
    ptr (begin + newOffset h₀ objects live (v.toNat / 4 - (h₀.begin + headerSize)) + headerSize)
  else v

theorem redirect_content (hs : Objects h₀ objects) {p begin : ℕ} (hp : p ∈ objects) :
    redirect h₀ objects live begin (contentWord h₀ p) =
      ptr (begin + newOffset h₀ objects live p + headerSize) := by
  rw [redirect, if_pos (hs.contentWord_valid hp), contentWord, ptr_toNat (hs.content_lt hp)]
  congr 4
  omega

theorem redirect_other {begin : ℕ} {v : Word} (hv : isValidHeapPointer h₀ v = false) :
    redirect h₀ objects live begin v = v := by
  rw [redirect, if_neg (by simp [hv])]

theorem inOldHeap_iff {old : MemoryChunk} {v : Word} (hb : SameBounds h₀ old)
    (hv : unboxed v = false) : inOldHeap old v = isValidHeapPointer h₀ v := by
  rw [inOldHeap, isValidHeapPointer, hb.begin, hb.current, hv, Bool.not_false, Bool.true_and]

theorem isField_congr {h h' : MemoryChunk} {p k : ℕ} (hw : h'.words p = h.words p) :
    IsField h' p k ↔ IsField h p k := by
  rw [IsField, IsField, hw]

section Update
variable {old g : MemoryChunk} {p q k : ℕ}

theorem Remapped.words_header (hs : Objects h₀ objects) (hr : Remapped h₀ objects live old g)
    (hp : p ∈ objects) : g.words p = h₀.words p := by
  have := hs.bounds hp
  rw [hr.words p (by omega), hr.located.header hs hp]

theorem Remapped.layout (hs : Objects h₀ objects) (hr : Remapped h₀ objects live old g) :
    Objects g objects where
  tiles := by
    rw [hr.current, Nat.add_sub_cancel_left]
    exact hs.tiles.congr fun p hp => by simp only [hr.words_header hs hp]
  begin_le := by rw [hr.current]; omega
  current_le := by
    have := hr.current
    have := hs.current_le
    have := hs.begin_le
    have := hs.span
    have := hr.span
    have := hr.room
    omega
  span := hr.span
  fits := hr.fits

theorem Remapped.words_field (hs : Objects h₀ objects) (hr : Remapped h₀ objects live old g)
    (hp : p ∈ objects) (hf : IsField h₀ p k) : g.words k = h₀.words k := by
  have := hs.bounds hp
  have := hf.2
  rw [hr.words k (by omega)]
  exact hr.located.same k fun q hq => (hs.field_ne hp hf hq).2

/-- The heap while the fields of the live objects among `done` have been redirected. -/
structure Updated (h₀ : MemoryChunk) (objects : List ℕ) (live : Set ℕ) (g : MemoryChunk)
    (done : List ℕ) (h : MemoryChunk) : Prop where
  bounds : SameBounds g h
  fields : ∀ p ∈ done, p ∈ live → ∀ k, IsField h₀ p k →
    h.words k = redirect h₀ objects live g.begin (g.words k)
  others : ∀ k, (∀ p ∈ done, p ∈ live → ¬ IsField h₀ p k) → h.words k = g.words k

/-- Headers and forward-address words stay. -/
theorem Updated.word (hs : Objects h₀ objects) {done : List ℕ} (hsub : done ⊆ objects)
    (hu : Updated h₀ objects live g done h) (hq : q ∈ objects) :
    h.words q = g.words q ∧ h.words (q + 1) = g.words (q + 1) := by
  constructor
  · exact hu.others q fun p hp _ hf => (hs.field_ne (hsub hp) hf hq).1 rfl
  · exact hu.others (q + 1) fun p hp _ hf => (hs.field_ne (hsub hp) hf hq).2 rfl

/-- The forward address of a live object, as the passes compute it. -/
theorem Remapped.forwarded_eq (hs : Objects h₀ objects) (hr : Remapped h₀ objects live old g)
    (hb : SameBounds g h) (hw : h.words q = g.words q ∧ h.words (q + 1) = g.words (q + 1))
    (hq : q ∈ objects) (hlive : q ∈ live) :
    forwarded old h (contentWord h₀ q) =
      some (redirect h₀ objects live g.begin (contentWord h₀ q)) := by
  have hg := hr.layout hs
  have ho : IsObject h q := (hg.object hq).congr hb hw.1
  have hbound := hs.bounds hq
  have haddr := ho.getForwardAddress
  obtain ⟨type, htype, -⟩ := ho.typed
  rw [hb.begin] at haddr htype
  have hfwd : getForwardBits (h.words (q + 1)) = ptr (h₀.begin + newOffset h₀ objects live q) := by
    rw [hw.2, hr.words (q + 1) (by omega)]
    exact hr.located.forward q hq hlive
  have hmove : aligned (ptr h.begin + (contentWord h₀ q - ptr old.begin)) =
      some (g.begin + q + headerSize) := by
    rw [contentWord, hb.begin, hr.located.bounds.begin, Nat.add_assoc, ptr_move, ← Nat.add_assoc]
    exact hg.aligned hq
  rw [forwarded, hmove]
  simp only [Option.bind_eq_bind, Option.bind_some, haddr, hfwd, Nat.add_sub_cancel, htype]
  rw [hb.begin, hr.located.bounds.begin, ptr_move, ← ptr_add, redirect_content hs hq]
  rfl

/-- The body of the field loop: the field is redirected. -/
theorem Remapped.updateField (hwf : WellFormed h₀ objects) (hr : Remapped h₀ objects live old g)
    (hclosed : Runs.Closed (PointsTo h₀ objects) live) (hb : SameBounds g h)
    (hw : ∀ q ∈ objects, h.words q = g.words q ∧ h.words (q + 1) = g.words (q + 1))
    (hp : p ∈ objects) (hlive : p ∈ live) (hf : IsField h₀ p k) (hk : h.words k = g.words k)
    (hv : unboxed (h.words k) = false) :
    ∃ h', Lama.updateField old h (g.begin + k) = some h' ∧ SameBounds h h' ∧
      ∀ j, h'.words j = if j = k then redirect h₀ objects live g.begin (g.words k) else h.words j := by
  have hs := hwf.toObjects
  have hg := hr.layout hs
  have hgk := hr.words_field hs hp hf
  have hin : h.begin + k < h.end_ := by
    have := (hg.object hp).inside
    rw [hr.words_header hs hp] at this
    have := hf.2
    rw [hb.begin, hb.end_]
    omega
  have hload : h.load (g.begin + k) = some (g.words k) := by
    rw [← hb.begin, load_add hin, hk]
  have hstore : ∀ v, h.store (g.begin + k) v = some (h.setWord k v) := by
    intro v
    rw [← hb.begin, store_add hin]
  rw [hk] at hv
  rw [Lama.updateField, hload]
  simp only [Option.bind_eq_bind, Option.bind_some]
  rw [inOldHeap_iff hr.located.bounds hv]
  cases hvalid : isValidHeapPointer h₀ (g.words k) with
  | false =>
    refine ⟨h, by simp, .refl h, fun j => ?_⟩
    rw [redirect_other hvalid]
    split
    · rename_i heq
      rw [heq, hk]
    · rfl
  | true =>
    rw [hgk] at hvalid
    obtain ⟨q, hq, hvq⟩ := hwf.fields p hp k hf hvalid
    have hqlive : q ∈ live := hclosed p hlive q ⟨hq, k, hf, hvq⟩
    have hforward := hr.forwarded_eq hs hb (hw q hq) hq hqlive
    rw [hgk, hvq, hforward]
    simp only [Bool.not_true, Bool.false_eq_true, if_false, Option.bind_some, hstore]
    exact ⟨_, rfl, setWord_bounds _ _ _, fun j => rfl⟩

/-- The loop over the fields of a live object. -/
theorem Updated.object (hwf : WellFormed h₀ objects) (hr : Remapped h₀ objects live old g)
    (hclosed : Runs.Closed (PointsTo h₀ objects) live) {done post : List ℕ}
    (hobj : objects = done ++ p :: post) (hlive : p ∈ live)
    (hu : Updated h₀ objects live g done h) :
    ∃ h', forPtrFields id (updateField old) (g.begin + p) h = some h' ∧
      Updated h₀ objects live g (done ++ [p]) h' := by
  have hs := hwf.toObjects
  have hg := hr.layout hs
  have hp : p ∈ objects := by simp [hobj]
  have hsub : done ⊆ objects := fun q hq => by simp [hobj, hq]
  have hsame : ∀ j, IsField g p j ↔ IsField h₀ p j := fun j => isField_congr (hr.words_header hs hp)
  -- this object is not among those that have been updated, and its fields have not been touched
  have hapart : ∀ q ∈ done, ∀ j, IsField h₀ p j → ¬ IsField h₀ q j := by
    intro q hq j hfp hfq
    have hnodup := hobj ▸ hs.tiles.nodup
    exact (List.nodup_append.mp hnodup).2.2 q hq p (List.mem_cons_self ..)
      (hs.field_inj (hsub hq) hp hfq hfp)
  have huntouched : ∀ j, IsField h₀ p j → h.words j = g.words j := fun j hf =>
    hu.others j fun q hq _ => hapart q hq j hf
  let P : ℕ → MemoryChunk → Prop := fun k s => SameBounds g s ∧
    (∀ j, IsField h₀ p j → j < k → s.words j = redirect h₀ objects live g.begin (g.words j)) ∧
    ∀ j, ¬ (IsField h₀ p j ∧ j < k) → s.words j = h.words j
  have hword : ∀ k s, P k s → ∀ q ∈ objects,
      s.words q = g.words q ∧ s.words (q + 1) = g.words (q + 1) := by
    rintro k s ⟨-, -, hrest⟩ q hq
    obtain ⟨h0, h1⟩ := hu.word hs hsub hq
    refine ⟨?_, ?_⟩
    · rw [hrest q fun hf => (hs.field_ne hp hf.1 hq).1 rfl, h0]
    · rw [hrest (q + 1) fun hf => (hs.field_ne hp hf.1 hq).2 rfl, h1]
  have hloop : FieldLoop id (updateField old) g p P := by
    refine ⟨hg.object hp, hg.span, fun k s hP => hP.1, fun k s hP => (hword k s hP p hp).1, ?_, ?_⟩
    · rintro k s hf ⟨hb, hdone, hrest⟩ hv
      have hf₀ := (hsame k).mp hf
      have hk : s.words k = g.words k := by
        rw [hrest k fun h => absurd h.2 (Nat.lt_irrefl k), huntouched k hf₀]
      refine ⟨hb, fun j hj hlt => ?_, fun j hj => hrest j fun h => hj ⟨h.1, Nat.lt_succ_of_lt h.2⟩⟩
      rcases Nat.lt_succ_iff_lt_or_eq.mp hlt with hlt | rfl
      · exact hdone j hj hlt
      · rw [id, hk] at hv
        rw [hk, redirect_other (by rw [isValidHeapPointer, hv]; rfl)]
    · rintro k s hf ⟨hb, hdone, hrest⟩ hv
      have hf₀ := (hsame k).mp hf
      have hk : s.words k = g.words k := by
        rw [hrest k fun h => absurd h.2 (Nat.lt_irrefl k), huntouched k hf₀]
      obtain ⟨s', hrun, hb', hs'⟩ := hr.updateField hwf hclosed hb (hword k s ⟨hb, hdone, hrest⟩) hp
        hlive hf₀ hk hv
      refine ⟨s', hrun, hb.trans hb', fun j hj hlt => ?_, fun j hj => ?_⟩
      · rw [hs']
        split
        · rename_i heq
          rw [heq]
        · rename_i hne
          exact hdone j hj (by omega)
      · rw [hs', if_neg (by rintro rfl; exact hj ⟨hf₀, Nat.lt_succ_self _⟩)]
        exact hrest j fun h => hj ⟨h.1, Nat.lt_succ_of_lt h.2⟩
  have h0 : P (p + firstField (g.words p)) h := by
    rw [hr.words_header hs hp]
    exact ⟨hu.bounds, fun j hj hlt => absurd hj.1 (Nat.not_le.mpr hlt), fun j _ => rfl⟩
  obtain ⟨h', k, hk, hrun, hb, hdone, hrest⟩ := hloop.run h0
  rw [hr.words_header hs hp] at hk
  refine ⟨h', hrun, hb, fun q hq hqlive j hf => ?_, fun j hj => ?_⟩
  · rcases List.mem_append.mp hq with hq' | hq'
    · rw [hrest j fun h => hapart q hq' j h.1 hf]
      exact hu.fields q hq' hqlive j hf
    · obtain rfl := List.mem_singleton.mp hq'
      exact hdone j hf (Nat.lt_of_lt_of_le hf.2 hk)
  · rw [hrest j fun h => hj p (by simp) hlive h.1]
    exact hu.others j fun q hq => hj q (List.mem_append_left _ hq)

/-- The loop over the objects that have not been visited. -/
theorem Updated.loop (hwf : WellFormed h₀ objects) (hr : Remapped h₀ objects live old g)
    (hclosed : Runs.Closed (PointsTo h₀ objects) live) : ∀ {post done : List ℕ} {a fuel : ℕ}
    {h : MemoryChunk}, Updated h₀ objects live g done h → objects = done ++ post →
      Tiles (wordsAt h₀) a post (h₀.current - h₀.begin) → post.length < fuel →
      ∃ h', updateObjects old fuel h (g.begin + a) = some h' ∧ Updated h₀ objects live g objects h' := by
  have hs := hwf.toObjects
  have hg := hr.layout hs
  intro post
  induction post with
  | nil =>
    intro done a fuel h hu hobj htiles hfuel
    obtain ⟨fuel, rfl⟩ := Nat.exists_eq_succ_of_ne_zero (Nat.pos_iff_ne_zero.mp hfuel)
    rw [List.append_nil] at hobj
    have ha : a = h₀.current - h₀.begin := htiles
    have hdone : heapIsDone h (g.begin + a) = true := by
      rw [heapIsDone, hu.bounds.current, hr.current, ha]
      exact decide_eq_true (Nat.le_refl _)
    exact ⟨h, by rw [updateObjects, if_pos hdone]; rfl, hobj ▸ hu⟩
  | cons p post ih =>
    intro done a fuel h hu hobj htiles hfuel
    obtain ⟨fuel, rfl⟩ := Nat.exists_eq_succ_of_ne_zero
      (Nat.pos_iff_ne_zero.mp (Nat.lt_of_le_of_lt (Nat.zero_le _) hfuel))
    obtain ⟨rfl, hpos, htiles⟩ := htiles
    have hp : p ∈ objects := by simp [hobj]
    have hsub : done ⊆ objects := fun q hq => by simp [hobj, hq]
    have hle := htiles.length_le
    have hobj' : objects = (done ++ [p]) ++ post := by simp [hobj]
    have hnot : heapIsDone h (g.begin + p) = false := by
      rw [heapIsDone, hu.bounds.current, hr.current, decide_eq_false_iff_not]
      omega
    have ho : IsObject h p := (hg.object hp).congr hu.bounds (hu.word hs hsub hp).1
    have hcontent := ho.content
    have hmarked := ho.isMarked
    have hnext := ho.next
    rw [hu.bounds.begin] at hcontent hmarked hnext
    rw [(hu.word hs hsub hp).1, hr.words_header hs hp] at hnext
    have hbit : getMarkBit (h.words (p + 1)) = true ↔ p ∈ live := by
      have := hs.bounds hp
      rw [(hu.word hs hsub hp).2, hr.words (p + 1) (by omega)]
      exact hr.located.marked p hp
    rw [updateObjects, if_neg (by simp [hnot])]
    simp only [Option.bind_eq_bind, Option.bind_some, hcontent, hmarked]
    by_cases hlive : p ∈ live
    · obtain ⟨h₁, hfields, hu₁⟩ := hu.object hwf hr hclosed hobj hlive
      have hsub' : done ++ [p] ⊆ objects := fun q hq => by
        rw [hobj']; exact List.mem_append_left _ hq
      have hnext₁ := ((hg.object hp).congr hu₁.bounds (hu₁.word hs hsub' hp).1).next
      rw [hu₁.bounds.begin, (hu₁.word hs hsub' hp).1, hr.words_header hs hp] at hnext₁
      obtain ⟨h', hrun, hu'⟩ := ih hu₁ hobj' htiles (by simpa using hfuel)
      refine ⟨h', ?_, hu'⟩
      simp only [hbit.mpr hlive, if_true, hfields, Option.bind_some, hnext₁]
      exact hrun
    · have hu₁ : Updated h₀ objects live g (done ++ [p]) h := by
        refine ⟨hu.bounds, fun q hq hq' => ?_, fun k hk => hu.others k fun q hq =>
          hk q (List.mem_append_left _ hq)⟩
        rcases List.mem_append.mp hq with hq | hq
        · exact hu.fields q hq hq'
        · exact absurd (List.mem_singleton.mp hq ▸ hq') hlive
      obtain ⟨h', hrun, hu'⟩ := ih hu₁ hobj' htiles (by simpa using hfuel)
      refine ⟨h', ?_, hu'⟩
      rw [Bool.eq_false_iff.mpr fun h => hlive (hbit.mp h)]
      simp only [Bool.false_eq_true, if_false, hnext, Option.bind_some]
      exact hrun

/-- The fields of the live objects are redirected. -/
theorem Remapped.updateObjects (hwf : WellFormed h₀ objects) (hr : Remapped h₀ objects live old g)
    (hclosed : Runs.Closed (PointsTo h₀ objects) live) :
    ∃ h', Lama.updateObjects old g.fuel g g.begin = some h' ∧ Updated h₀ objects live g objects h' := by
  have hs := hwf.toObjects
  have hstart : Updated h₀ objects live g [] g :=
    ⟨.refl g, fun p hp => absurd hp List.not_mem_nil, fun k _ => rfl⟩
  exact hstart.loop hwf hr hclosed rfl hs.tiles (hr.layout hs).length_lt_fuel

end Update

/-! ### `physically_relocate` -/

/-- The byte `i` of a run of words. -/
def byteAt (words : ℕ → Word) (i : ℕ) : ℕ := (words (i / 4)).toNat / 256 ^ (i % 4) % 256

theorem mixBytes_zero (x y : Word) : mixBytes 0 x y = y := by
  have := y.isLt
  apply BitVec.eq_of_toNat_eq
  rw [mixBytes, BitVec.toNat_ofNat]
  omega

/-- The low bytes come from the first word. -/
theorem mixBytes_byte {n r : ℕ} (x y : Word) (hr : r < n) (hn : n < 4) :
    (mixBytes n x y).toNat / 256 ^ r % 256 = x.toNat / 256 ^ r % 256 := by
  have hx := x.isLt
  have hy := y.isLt
  rw [mixBytes, BitVec.toNat_ofNat]
  obtain rfl | rfl | rfl : n = 1 ∨ n = 2 ∨ n = 3 := by omega
  · obtain rfl : r = 0 := by omega
    omega
  · obtain rfl | rfl : r = 0 ∨ r = 1 := by omega
    · omega
    · omega
  · obtain rfl | rfl | rfl : r = 0 ∨ r = 1 ∨ r = 2 := by omega
    · omega
    · omega
    · omega

/-- `memmove` copies bytes and changes no words but those it copies to. -/
theorem memmove_ok {h : MemoryChunk} {a b n : ℕ} (ha : 4 * (h.begin + a) + n ≤ 4 * h.end_)
    (hb : 4 * (h.begin + b) + n ≤ 4 * h.end_) :
    ∃ h', memmove h (h.begin + a) (h.begin + b) n = some h' ∧ SameBounds h h' ∧
      (∀ i, i < n → byteAt h'.words (4 * a + i) = byteAt h.words (4 * b + i)) ∧
      (∀ j, j < n / 4 → h'.words (a + j) = h.words (b + j)) ∧
      ∀ k, k < a ∨ 4 * a + n ≤ 4 * k → h'.words k = h.words k := by
  have hmove : memmove h (h.begin + a) (h.begin + b) n = some _ :=
    if_pos ⟨by omega, ha, by omega, hb⟩
  refine ⟨_, hmove, ⟨rfl, rfl, rfl, rfl⟩, ?_, ?_, ?_⟩
  · intro i hi
    simp only [byteAt, Nat.add_sub_cancel_left]
    rw [show (4 * a + i) / 4 = a + i / 4 by omega, show (4 * b + i) / 4 = b + i / 4 by omega,
      show (4 * a + i) % 4 = i % 4 by omega, show (4 * b + i) % 4 = i % 4 by omega,
      if_neg (by omega), Nat.add_sub_cancel_left]
    by_cases hfull : i / 4 < n / 4
    · rw [if_pos hfull]
    · rw [if_neg hfull, if_pos (by omega), mixBytes_byte _ _ (by omega) (by omega)]
  · intro j hj
    simp only [Nat.add_sub_cancel_left]
    rw [if_neg (by omega), if_pos hj]
  · intro k hk
    simp only [Nat.add_sub_cancel_left]
    by_cases hlt : k < a
    · rw [if_pos hlt]
    · rw [if_neg hlt, if_neg (by omega)]
      split
      · rename_i heq
        rw [show n % 4 = 0 by omega, mixBytes_zero]
      · rfl

/-- The object at `q` in `words'` is the copy of the one at `p` in `words`, with its mark cleared. -/
structure Copied (words words' : ℕ → Word) (p q : ℕ) : Prop where
  header : words' q = words p
  forward : words' (q + 1) = resetMarkBit (words (p + 1))
  bytes : ∀ i, 8 ≤ i → i < objectBytes (words p) →
    byteAt words' (4 * q + i) = byteAt words (4 * p + i)
  word : ∀ j, 2 ≤ j → j < objectBytes (words p) / 4 → words' (q + j) = words (p + j)

/-- A copy stays when its words do. -/
theorem Copied.congr {words words' words'' : ℕ → Word} {p q : ℕ} (hc : Copied words words' p q)
    (hpos : 0 < objectWords (words p))
    (hw : ∀ k, q ≤ k → k < q + objectWords (words p) → words'' k = words' k) :
    Copied words words'' p q := by
  obtain ⟨-, -, -, -, h8, h4, -⟩ := objectWords_spec hpos
  refine ⟨?_, ?_, fun i hlo hi => ?_, fun j hlo hj => ?_⟩
  · rw [hw q (Nat.le_refl _) (by omega)]; exact hc.header
  · rw [hw (q + 1) (by omega) (by omega)]; exact hc.forward
  · rw [← hc.bytes i hlo hi, byteAt, hw _ (by omega) (by omega), byteAt]
  · rw [hw _ (by omega) (by omega)]; exact hc.word j hlo hj

/-- The heap `u` while the live objects among `done` have slid down; from the offset `a` on nothing
    has moved. -/
structure Slid (h₀ : MemoryChunk) (objects : List ℕ) (live : Set ℕ) (u : MemoryChunk)
    (done : List ℕ) (a : ℕ) (h : MemoryChunk) : Prop where
  bounds : SameBounds u h
  copies : ∀ p ∈ done, p ∈ live → Copied u.words h.words p (newOffset h₀ objects live p)
  rest : ∀ k, a ≤ k → h.words k = u.words k

section Slide
variable {old g u : MemoryChunk} {p : ℕ} {done post : List ℕ}

theorem Updated.header (hs : Objects h₀ objects) (hr : Remapped h₀ objects live old g)
    (hu : Updated h₀ objects live g objects u) (hp : p ∈ objects) : u.words p = h₀.words p := by
  rw [(hu.word hs (List.Subset.refl _) hp).1, hr.words_header hs hp]

theorem Updated.layout (hs : Objects h₀ objects) (hr : Remapped h₀ objects live old g)
    (hu : Updated h₀ objects live g objects u) : Objects u objects :=
  (hr.layout hs).congr hu.bounds fun _ hp => (hu.word hs (List.Subset.refl _) hp).1

/-- The move of one live object. -/
theorem Slid.move (hs : Objects h₀ objects) (hr : Remapped h₀ objects live old g)
    (hu : Updated h₀ objects live g objects u) (hobj : objects = done ++ p :: post) (hlive : p ∈ live)
    (hsl : Slid h₀ objects live u done p h) :
    ∃ h₁ h₂, memmove h (g.begin + newOffset h₀ objects live p) (g.begin + p)
          (objectBytes (h₀.words p)) = some h₁ ∧
      getObjectContentPtr h₁ (g.begin + newOffset h₀ objects live p) =
        some (g.begin + newOffset h₀ objects live p + headerSize) ∧
      unmarkObject h₁ (g.begin + newOffset h₀ objects live p + headerSize) = some h₂ ∧
      Slid h₀ objects live u (done ++ [p]) (p + wordsAt h₀ p) h₂ := by
  have hp : p ∈ objects := by simp [hobj]
  have hup := hu.header hs hr hp
  have ho : IsObject u p := (hu.layout hs hr).object hp
  have hin := ho.inside
  rw [hup] at hin
  have hb : SameBounds g h := hu.bounds.trans hsl.bounds
  have hbu := hu.bounds
  obtain ⟨-, -, -, -, h8, h4, h4'⟩ := objectWords_spec (hs.object hp).pos
  obtain ⟨hle, -⟩ : newOffset h₀ objects live p ≤ p ∧ _ := by
    have := hs.tiles.target_le hp hlive
    rw [Nat.zero_add] at this
    exact this
  have hroom : g.begin + p + objectWords (h₀.words p) ≤ g.end_ := by
    rw [← hbu.begin, ← hbu.end_]; exact hin
  obtain ⟨h₁, hmove, hb₁, hbytes, hwords, hothers⟩ := memmove_ok (h := h)
    (a := newOffset h₀ objects live p) (b := p) (n := objectBytes (h₀.words p))
    (by rw [hb.begin, hb.end_]; omega) (by rw [hb.begin, hb.end_]; omega)
  have hfirst : ∀ j, j < 2 → h₁.words (newOffset h₀ objects live p + j) = u.words (p + j) := by
    intro j hj
    rw [hwords j (by omega), hsl.rest _ (by omega)]
  have ho₁ : IsObject h₁ (newOffset h₀ objects live p) := by
    have h0 := hfirst 0 (by decide)
    rw [Nat.add_zero, Nat.add_zero, hup] at h0
    refine ⟨by rw [h0]; exact (hs.object hp).pos, ?_⟩
    rw [h0, hb₁.begin, hb₁.end_, hb.begin, hb.end_]
    omega
  have hbegin : h₁.begin = g.begin := hb₁.begin.trans hb.begin
  have hcontent := ho₁.content
  have hunmark := ho₁.mapForward resetMarkBit
  rw [hbegin] at hcontent hunmark
  rw [hb.begin] at hmove
  refine ⟨h₁, _, hmove, hcontent, hunmark, hsl.bounds.trans (hb₁.trans (setWord_bounds _ _ _)), ?_, ?_⟩
  · intro q hq hqlive
    rcases List.mem_append.mp hq with hq | hq
    · have hqo : q ∈ objects := by simp [hobj, hq]
      have hapart : newOffset h₀ objects live q + objectWords (h₀.words q) ≤
          newOffset h₀ objects live p := by
        unfold newOffset
        rw [hobj]
        exact (hobj ▸ hs.tiles : Tiles (wordsAt h₀) 0 (done ++ p :: post) _).target_add_le hq hqlive
      rw [← hu.header hs hr hqo] at hapart
      refine (hsl.copies q hq hqlive).congr ((hu.layout hs hr).object hqo).pos fun k hlo hhi => ?_
      simp only [MemoryChunk.setWord]
      rw [if_neg (by omega), hothers k (Or.inl (by omega))]
    · obtain rfl := List.mem_singleton.mp hq
      refine ⟨?_, ?_, fun i hlo hi => ?_, fun j hlo hj => ?_⟩
      · simp only [MemoryChunk.setWord]
        rw [if_neg (by omega)]
        exact hfirst 0 (by decide)
      · simp only [MemoryChunk.setWord, if_true]
        rw [hfirst 1 (by decide)]
      · rw [hup] at hi
        have hword : (4 * newOffset h₀ objects live q + i) / 4 ≠ newOffset h₀ objects live q + 1 := by
          omega
        rw [byteAt]
        simp only [MemoryChunk.setWord]
        rw [if_neg hword]
        have := hbytes i hi
        rw [byteAt] at this
        rw [this, byteAt, byteAt, hsl.rest _ (by omega)]
      · rw [hup] at hj
        simp only [MemoryChunk.setWord]
        rw [if_neg (by omega), hwords j hj, hsl.rest _ (by omega)]
  · intro k hk
    have hk' : p + objectWords (h₀.words p) ≤ k := hk
    simp only [MemoryChunk.setWord]
    rw [if_neg (by omega), hothers k (Or.inr (by omega)), hsl.rest k (by omega)]

/-- The loop over the objects that have not been visited. -/
theorem Slid.loop (hs : Objects h₀ objects) (hr : Remapped h₀ objects live old g)
    (hu : Updated h₀ objects live g objects u) : ∀ {post done : List ℕ} {a fuel : ℕ} {h : MemoryChunk},
    Slid h₀ objects live u done a h → objects = done ++ post →
      Tiles (wordsAt h₀) a post (h₀.current - h₀.begin) → post.length < fuel →
      ∃ h' b, relocateLoop old fuel h (g.begin + a) = some h' ∧ Slid h₀ objects live u objects b h' := by
  have hus := hu.layout hs hr
  intro post
  induction post with
  | nil =>
    intro done a fuel h hsl hobj htiles hfuel
    obtain ⟨fuel, rfl⟩ := Nat.exists_eq_succ_of_ne_zero (Nat.pos_iff_ne_zero.mp hfuel)
    rw [List.append_nil] at hobj
    have ha : a = h₀.current - h₀.begin := htiles
    have hdone : heapIsDone h (g.begin + a) = true := by
      rw [heapIsDone, (hu.bounds.trans hsl.bounds).current, hr.current, ha]
      exact decide_eq_true (Nat.le_refl _)
    exact ⟨h, a, by rw [relocateLoop, if_pos hdone]; rfl, hobj ▸ hsl⟩
  | cons p post ih =>
    intro done a fuel h hsl hobj htiles hfuel
    obtain ⟨fuel, rfl⟩ := Nat.exists_eq_succ_of_ne_zero
      (Nat.pos_iff_ne_zero.mp (Nat.lt_of_le_of_lt (Nat.zero_le _) hfuel))
    obtain ⟨rfl, hpos, htiles⟩ := htiles
    have hp : p ∈ objects := by simp [hobj]
    have hle := htiles.length_le
    have hobj' : objects = (done ++ [p]) ++ post := by simp [hobj]
    have hb : SameBounds g h := hu.bounds.trans hsl.bounds
    have hnot : heapIsDone h (g.begin + p) = false := by
      rw [heapIsDone, hb.current, hr.current, decide_eq_false_iff_not]
      omega
    have hhp : h.words p = u.words p := hsl.rest p (Nat.le_refl _)
    have hhp' : h.words (p + 1) = u.words (p + 1) := hsl.rest _ (Nat.le_succ _)
    have ho : IsObject h p := (hus.object hp).congr hsl.bounds hhp
    have hcontent := ho.content
    have hmarked := ho.isMarked
    have hnext := ho.next
    have haddress := ho.getForwardAddress
    have hbytes := ho.bytes
    rw [hb.begin] at hcontent hmarked hnext haddress hbytes
    rw [hhp, hu.header hs hr hp] at hnext hbytes
    -- the forward-address word is the one that `compute_locations` left
    have hforward : u.words (p + 1) = old.words (p + 1) := by
      have := hs.bounds hp
      rw [(hu.word hs (List.Subset.refl _) hp).2, hr.words (p + 1) (by omega)]
    rw [hhp', hforward] at hmarked haddress
    have hbit := hr.located.marked p hp
    rw [relocateLoop, if_neg (by simp [hnot])]
    simp only [Option.bind_eq_bind, Option.bind_some, hcontent, hnext, hmarked]
    by_cases hlive : p ∈ live
    · obtain ⟨h₁, h₂, hmove, hcontent₁, hunmark, hsl'⟩ := hsl.move hs hr hu hobj hlive
      obtain ⟨h', b, hrun, hsl''⟩ := ih hsl' hobj' htiles (by simpa using hfuel)
      refine ⟨h', b, ?_, hsl''⟩
      have hto : aligned (ptr h.begin + (getForwardBits (old.words (p + 1)) - ptr old.begin)) =
          some (g.begin + newOffset h₀ objects live p) := by
        have hlt := (hr.layout hs).content_lt hp
        have := (hs.tiles.target_le hp hlive).1
        rw [hr.located.forward p hp hlive, hb.begin, hr.located.bounds.begin, ptr_move]
        refine aligned_ptr ?_
        have : newOffset h₀ objects live p ≤ p := by rw [Nat.zero_add] at this; exact this
        omega
      simp only [hbit.mpr hlive, if_true, haddress, Option.bind_some, hto, hbytes, hmove, hcontent₁,
        hunmark]
      exact hrun
    · have hsl' : Slid h₀ objects live u (done ++ [p]) (p + wordsAt h₀ p) h := by
        refine ⟨hsl.bounds, fun q hq hq' => ?_, fun k hk => hsl.rest k (by omega)⟩
        rcases List.mem_append.mp hq with hq | hq
        · exact hsl.copies q hq hq'
        · exact absurd (List.mem_singleton.mp hq ▸ hq') hlive
      obtain ⟨h', b, hrun, hsl''⟩ := ih hsl' hobj' htiles (by simpa using hfuel)
      refine ⟨h', b, ?_, hsl''⟩
      rw [Bool.eq_false_iff.mpr fun h => hlive (hbit.mp h)]
      simp only [Bool.false_eq_true, if_false]
      exact hrun

/-- The live objects slide down. -/
theorem Updated.relocate (hs : Objects h₀ objects) (hr : Remapped h₀ objects live old g)
    (hu : Updated h₀ objects live g objects u) :
    ∃ h' b, relocateLoop old u.fuel u u.begin = some h' ∧ Slid h₀ objects live u objects b h' := by
  have hstart : Slid h₀ objects live u [] 0 u :=
    ⟨.refl u, fun p hp => absurd hp List.not_mem_nil, fun k _ => rfl⟩
  rw [hu.bounds.begin]
  exact hstart.loop hs hr hu rfl hs.tiles (hu.layout hs hr).length_lt_fuel

end Slide

end Lama

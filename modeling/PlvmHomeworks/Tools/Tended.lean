import PlvmHomeworks.Tools.RootWords

/-! What a turn of the interpreter relies on for the slots that the collector scans to hold no pointer but the
    content of an object, and the invariant that such turns keep.

    A collection redirects the slots above the top and the fields of the objects, and nothing else. A word
    that an instruction takes from anywhere else may be a pointer from before a collection. -/

namespace Lama
open Outcome

variable {im : Image} {out : Word → Prop} {e : Env} {f : Bytefile} {s s' : State} {os : List HeapObject}
  {w : Word} {inst : Inst} {a n : ℕ}

/-- What `mark` can be given: no pointer, a pointer out of the heap, or the content of an object. -/
def Markable (h : MemoryChunk) (w : Word) : Prop :=
  unboxed w = true ∨ ¬ (4 * h.begin ≤ w.toNat ∧ w.toNat ≤ 4 * h.current) ∨ IsContent h w

instance (h : MemoryChunk) (w : Word) : Decidable (Markable h w) := by
  unfold Markable; infer_instance

/-! ### What a turn relies on -/

/-- A collection redirects this word: a slot above the top or a field of an object. -/
def Watched (im : Image) (s : State) (a : ℕ) : Prop :=
  s.top < a ∧ im.inStack a ∨
    ∃ p ∈ s.mem.heap.headers, IsField s.mem.heap (p - s.mem.heap.begin) (a - s.mem.heap.begin)

/-- The word at `a` is one that collections redirect, or it is sound as it is. -/
def TakenFrom (im : Image) (out : Word → Prop) (s : State) (a : ℕ) : Prop :=
  Watched im s a ∨ ∀ w, loadWord im s a = .ok w → SoundWord out s.mem.heap w

/-- The element `i` of the object at `a`. -/
def fieldAddress (tag : Word) (a : ℕ) (i : Word) : ℕ :=
  if tag = sexpTag then ptrAdd a ((unbox i).toInt + 1) else ptrAdd a (unbox i).toInt

/-- The variables that `CLOSURE` captures, each where it is when its turn comes. -/
def CapturesTaken (im : Image) (out : Word → Prop) (e : Env) : State → List LocationEntry → Prop
  | _, [] => True
  | s, l :: ls => (∀ a, loc im e s l = .ok a → TakenFrom im out s a) ∧
      ∀ t, pushLocations im e s [l] = .ok t → CapturesTaken im out e t ls

/-- The words that the instruction puts on the stack from elsewhere: the slots that it moves the top below,
    variables and their addresses, elements. -/
def TakesSound (im : Image) (out : Word → Prop) (e : Env) (s : State) : Inst → Prop
  | .begin _ locc | .cbegin _ locc =>
    ∀ a ∈ region (ptrAdd s.top (-toSize locc) + 1) (s.top + 1), SoundWord out s.mem.heap (s.mem.ram a)
  | .end_ | .ret => ∀ a ∈ region (s.frame.resultSlot + 1) (s.top + 1), SoundWord out s.mem.heap (s.mem.ram a)
  | .ld l => ∀ a, loc im e s l = .ok a → TakenFrom im out s a
  | .lda l => ∀ a, loc im e s l = .ok a → SoundWord out s.mem.heap (ptr a)
  | .closure _ ls => CapturesTaken im out e s ls
  | .elem => ∀ tag, tagWord im s (s.mem.ram (s.top + 2)) = .ok tag → tag ≠ stringTag →
      ∀ a, derefPtr (s.mem.ram (s.top + 2)) = .ok a →
        TakenFrom im out s (fieldAddress tag a (s.mem.ram (s.top + 1)))
  | _ => True

/-- The word at `a` is not part of the header of an object. -/
def NoHeader (h : MemoryChunk) (a : ℕ) : Prop := ∀ p ∈ h.headers, a ≠ p ∧ a ≠ p + 1

/-- `Bsta` stores to a slot, to an element of an aggregate, or to a character of a string. -/
def StaApart (im : Image) (s : State) (i x : Word) : Prop :=
  if unboxed i then
    ∀ tag, tagWord im s x = .ok tag → ∀ a, derefPtr x = .ok a →
      if tag = stringTag then NoHeader s.mem.heap (ptrAdd a ((unbox i).toInt / 4)) ∧
        ¬ Watched im s (ptrAdd a ((unbox i).toInt / 4))
      else NoHeader s.mem.heap (fieldAddress tag a i)
  else ∀ a, derefPtr x = .ok a → NoHeader s.mem.heap a

/-- The instruction stores to slots and to the contents of objects: through the address of a variable, or to
    an element of an aggregate. -/
def StoresApart (im : Image) (e : Env) (s : State) : Inst → Prop
  | .st l => ∀ a, loc im e s l = .ok a → NoHeader s.mem.heap a
  | .sti => ∀ a, derefPtr (s.mem.ram (s.top + 2)) = .ok a → NoHeader s.mem.heap a
  | .sta => StaApart im s (s.mem.ram (s.top + 2)) (s.mem.ram (s.top + 3))
  | _ => True

/-- The object that is asked for is not too large, the heap grows to a place beside the virtual stack, and the
    text that is copied is not in the heap. -/
structure Servable (im : Image) (out : Word → Prop) (e : Env) (r : AllocRequest) : Prop where
  len : 0 ≤ r.len ∧ r.len < 2 ^ 28
  room : Answered im out r.state.mem.heap e.mremap (bytesToWords r.bytes)
  text : im.bstringRoot ∈ r.extraRoots →
    isValidHeapPointer r.state.mem.heap (r.state.mem.ram im.bstringRoot) = false

/-- What the instruction relies on. -/
structure Tended (im : Image) (out : Word → Prop) (e : Env) (f : Bytefile) (s : State) (inst : Inst) :
    Prop where
  takes : TakesSound im out e s inst
  stores : StoresApart im e s inst
  requests : ∀ o, allocRequest im e f s inst = .ok o → ∀ r ∈ o, Servable im out e r

/-- A turn that has what it relies on. -/
def TendedTurn (im : Image) (out : Word → Prop) (f : Bytefile) (s s' : State) : Prop :=
  ∃ e inst next, s.Executes f inst next ∧ Tended im out e f s inst ∧ step im f e s = .ok s'

section Decidable
variable (im : Image) (out : Word → Prop) [DecidablePred out]
  [∀ begin end_, Decidable (Avoids out begin end_)] (e : Env) (f : Bytefile) (s : State)
  (h : MemoryChunk) (inst : Inst) (a p : ℕ)

instance (begin end_ : ℕ) : Decidable (Avoids (· = 0) begin end_) :=
  decidable_of_iff (¬ 4 * begin ≤ 0) ⟨fun h w hw hin => h (by simpa [hw] using hin.1),
    fun h hle => h 0 rfl ⟨hle, Nat.zero_le _⟩⟩

instance : Decidable (IsField h p a) := by
  unfold IsField; infer_instance

instance : Decidable (Watched im s a) := by
  unfold Watched; infer_instance

instance : Decidable (TakenFrom im out s a) := by
  unfold TakenFrom; infer_instance

instance : Decidable (NoHeader h a) := by
  unfold NoHeader; infer_instance

instance (i x : Word) : Decidable (StaApart im s i x) := by
  unfold StaApart; infer_instance

instance (size : ℕ) (mremap : Option ℕ) : Decidable (Answered im out h mremap size) :=
  decidable_of_iff (h.current + size < 2 ^ 30 ∧ (¬ h.current + size ≤ h.end_ → ∀ begin ∈ mremap, 0 < begin ∧
      begin + h.grown size < 2 ^ 30 ∧ (begin + h.grown size ≤ im.vstack ∨ im.bottom ≤ begin) ∧
      Avoids out begin (begin + h.grown size)))
    ⟨fun h => ⟨h.1, h.2⟩, fun h => ⟨h.1, h.2⟩⟩

instance decidableCapturesTaken : ∀ (s : State) (ls : List LocationEntry),
    Decidable (CapturesTaken im out e s ls)
  | _, [] => isTrue trivial
  | s, l :: ls =>
    have := fun t => decidableCapturesTaken t ls
    inferInstanceAs (Decidable ((∀ a, loc im e s l = .ok a → TakenFrom im out s a) ∧
      ∀ t, pushLocations im e s [l] = .ok t → CapturesTaken im out e t ls))

instance : Decidable (TakesSound im out e s inst) := by
  cases inst <;> unfold TakesSound <;> infer_instance

instance : Decidable (StoresApart im e s inst) := by
  cases inst <;> unfold StoresApart <;> infer_instance

instance (r : AllocRequest) : Decidable (Servable im out e r) :=
  decidable_of_iff ((0 ≤ r.len ∧ r.len < 2 ^ 28) ∧
      Answered im out r.state.mem.heap e.mremap (bytesToWords r.bytes) ∧ (im.bstringRoot ∈ r.extraRoots →
        isValidHeapPointer r.state.mem.heap (r.state.mem.ram im.bstringRoot) = false))
    ⟨fun h => ⟨h.1, h.2.1, h.2.2⟩, fun h => ⟨h.1, h.2, h.3⟩⟩

instance : Decidable (Tended im out e f s inst) :=
  decidable_of_iff (TakesSound im out e s inst ∧ StoresApart im e s inst ∧
      ∀ o, allocRequest im e f s inst = .ok o → ∀ r ∈ o, Servable im out e r)
    ⟨fun h => ⟨h.1, h.2.1, h.2.2⟩, fun h => ⟨h.1, h.2, h.3⟩⟩

end Decidable

/-! ### The invariant -/

/-- In the heap are these objects, and the words of their fields and of the slots above the top are sound. -/
structure Rooted (im : Image) (out : Word → Prop) (os : List HeapObject) (s : State) : Prop where
  heap : SoundHeap im out s.mem.heap os
  low : im.vstack ≤ s.top + 1
  high : s.top < 2 ^ 30
  zero : out 0
  slots : ∀ a, s.top < a → a < im.bottom → SoundIn out s.mem.heap os (s.mem.ram a)
  customData : ∀ a ∈ region im.startCustomData im.stopCustomData, s.mem.ram a = 0
  bottom : s.mem.ram im.bottom = 0

theorem Rooted.congr (h : Rooted im out os s) (hmem : s'.mem = s.mem) (htop : s'.top = s.top) :
    Rooted im out os s' := by
  obtain ⟨hheap, hlow, hhigh, hzero, hslots, hcustom, hbottom⟩ := h
  exact ⟨by rwa [hmem], by rwa [htop], by rwa [htop], hzero, by rwa [hmem, htop], by rwa [hmem],
    by rwa [hmem]⟩

theorem customData_ne_roots (ha : a ∈ region im.startCustomData im.stopCustomData) :
    a ≠ im.bstringRoot ∧ a ≠ im.lstringRoot := by
  obtain ⟨hlo, hhi⟩ := mem_region.mp ha
  have hb := im.bstringRoot_custom
  have hl := im.lstringRoot_custom
  omega

theorem bottom_ne_roots (im : Image) : im.bottom ≠ im.bstringRoot ∧ im.bottom ≠ im.lstringRoot := by
  have hb := im.bstringRoot_apart
  have hl := im.lstringRoot_apart
  have hbottom : im.bottom = im.vstack + vstackSize := rfl
  omega

section Rooted
variable (h : Rooted im out os s)
include h

/-- The top moves, to where the slots above it hold sound words. -/
theorem Rooted.moveTop (top : ℕ) (hlow : im.vstack ≤ top + 1) (hhigh : top < 2 ^ 30)
    (hslots : ∀ a, top < a → a ≤ s.top → SoundIn out s.mem.heap os (s.mem.ram a)) :
    Rooted im out os { s with top } := by
  refine ⟨h.heap, hlow, hhigh, h.zero, fun a ha hb => ?_, h.customData, h.bottom⟩
  by_cases hold : a ≤ s.top
  · exact hslots a ha hold
  · exact h.slots a (Nat.lt_of_not_le hold) hb

theorem Rooted.drop (hn : s.top + n < 2 ^ 30) : Rooted im out os (s.drop n) := by
  have hlow := h.low
  exact h.moveTop _ (by omega) hn fun a ha hb => absurd hb (by omega)

/-- A word is written to a slot. -/
theorem Rooted.setSlot (ha : im.inStack a) (hw : s.top < a → SoundIn out s.mem.heap os w) :
    Rooted im out os { s with mem := s.mem.setRam a w } := by
  refine ⟨h.heap, h.low, h.high, h.zero, fun b hlo hhi => ?_, fun b hb => ?_, ?_⟩
  · by_cases hba : b = a
    · rw [show (s.mem.setRam a w).ram b = w from if_pos hba]
      exact hw (hba ▸ hlo)
    · rw [show (s.mem.setRam a w).ram b = s.mem.ram b from if_neg hba]
      exact h.slots b hlo hhi
  · have hne : b ≠ a := fun heq => (customData_outside hb).1 (heq ▸ ha)
    rw [show (s.mem.setRam a w).ram b = s.mem.ram b from if_neg hne]
    exact h.customData b hb
  · have hne : im.bottom ≠ a := fun heq => bottom_outside (heq ▸ ha)
    rw [show (s.mem.setRam a w).ram im.bottom = s.mem.ram im.bottom from if_neg hne]
    exact h.bottom

/-- A word is written to one of the locals whose addresses become extra roots. -/
theorem Rooted.setRoot (ha : a = im.bstringRoot ∨ a = im.lstringRoot) :
    Rooted im out os { s with mem := s.mem.setRam a w } := by
  have hout : ¬ im.inStack a := by
    rcases ha with rfl | rfl
    · exact im.bstringRoot_outside
    · exact im.lstringRoot_outside
  have hlow := h.low
  refine ⟨h.heap, h.low, h.high, h.zero, fun b hlo hhi => ?_, fun b hb => ?_, ?_⟩
  · change s.top < b at hlo
    have hne : b ≠ a := fun heq => hout (heq ▸ ⟨by omega, hhi⟩)
    rw [show (s.mem.setRam a w).ram b = s.mem.ram b from if_neg hne]
    exact h.slots b hlo hhi
  · obtain ⟨hb1, hb2⟩ := customData_ne_roots hb
    have hne : b ≠ a := by rintro rfl; exact ha.elim hb1 hb2
    rw [show (s.mem.setRam a w).ram b = s.mem.ram b from if_neg hne]
    exact h.customData b hb
  · obtain ⟨hb1, hb2⟩ := bottom_ne_roots im
    have hne : im.bottom ≠ a := by rintro rfl; exact ha.elim hb1 hb2
    rw [show (s.mem.setRam a w).ram im.bottom = s.mem.ram im.bottom from if_neg hne]
    exact h.bottom

theorem Rooted.push (hlo : im.vstack < s.top) (hhi : s.top < im.bottom)
    (hw : SoundIn out s.mem.heap os w) : Rooted im out os (s.push w) := by
  have hhigh := h.high
  have hstored := h.setSlot (a := s.top) ⟨Nat.le_of_lt hlo, hhi⟩ fun _ => hw
  refine hstored.moveTop (s.top - 1) (by omega) (by omega) fun a ha hb => ?_
  have hat : a = s.top := by
    change a ≤ s.top at hb
    omega
  rw [hat, show (s.mem.setRam s.top w).ram s.top = w from if_pos rfl]
  exact hw

theorem Rooted.withHeap {g : MemoryChunk} (hg : SoundHeap im out g os) (hb : g.begin = s.mem.heap.begin) :
    Rooted im out os (s.withHeap g) :=
  ⟨hg, h.low, h.high, h.zero, fun a ha hb' => (h.slots a ha hb').congr hb fun _ ho => ho, h.customData,
    h.bottom⟩

/-- A push of a sound word. -/
theorem Rooted.pushed (hw : SoundIn out s.mem.heap os w) (hp : vstackPush im s w = .ok s') :
    Rooted im out os s' := by
  obtain ⟨hlo, hhi, rfl⟩ := vstackPush_ok hp
  exact h.push hlo hhi hw

/-- A pop yields the word above the top. -/
theorem Rooted.popped {p : Word × State} (hp : vstackPop im s = .ok p) :
    p = (s.mem.ram (s.top + 1), s.drop 1) ∧ SoundIn out s.mem.heap os (s.mem.ram (s.top + 1)) ∧
      Rooted im out os (s.drop 1) := by
  obtain ⟨-, hhi, rfl⟩ := vstackPop_ok h.high hp
  have hb := im.bottom_lt
  exact ⟨rfl, h.slots _ (Nat.lt_succ_self _) hhi, h.drop (by omega)⟩

/-- The objects that a walk finds are these. -/
theorem Rooted.soundWord (hw : SoundWord out s.mem.heap w) : SoundIn out s.mem.heap os w := by
  obtain ⟨free, hr⟩ := h.heap.filled
  exact hr.soundWord_iff.mp hw

theorem Rooted.markable (ha : s.top < a) (hb : a < im.bottom) : Markable s.mem.heap (s.mem.ram a) := by
  obtain ⟨⟨free, hr⟩, -, havoids, -⟩ := h.heap
  by_cases hvalid : isValidHeapPointer s.mem.heap (s.mem.ram a) = true
  · obtain ⟨p, hp, hw⟩ := (h.slots a ha hb).valid hr havoids hvalid
    obtain ⟨o, ho, rfl⟩ := List.mem_map.mp hp
    exact Or.inr (Or.inr (hr.isContent_iff.mpr ⟨o, ho, hw⟩))
  · by_cases hu : unboxed (s.mem.ram a) = true
    · exact Or.inl hu
    · refine Or.inr (Or.inl fun hin => hvalid ?_)
      rw [Bool.not_eq_true] at hu
      simp [isValidHeapPointer, hu, hin.1, hin.2]

/-- What is loaded from a word that collections redirect is sound. -/
theorem Rooted.loaded (ht : TakenFrom im out s a) (hl : loadWord im s a = .ok w) :
    SoundIn out s.mem.heap os w := by
  obtain ⟨⟨free, hr⟩, hbeside, -, hfields⟩ := h.heap
  rcases ht with (⟨ha, hin⟩ | ⟨p, hp, hk⟩) | hsound
  · rw [loadWord, if_pos hin] at hl
    cases hl
    exact h.slots a ha hin.2
  · obtain ⟨o, ho, rfl⟩ := hr.mem_headers.mp hp
    rw [Nat.add_sub_cancel_left] at hk
    have hbounds := hr.tiles.bounds (List.mem_map_of_mem (f := HeapObject.offset) ho)
    have hcur := hr.current
    have hroom := hr.room
    have hlt := hk.2
    have hfirst := two_le_firstField hbounds.2.2
    have hlo := hk.1
    unfold wordsAt at hbounds
    have hin : ¬ im.inStack a := fun hin => by
      have hlow : im.vstack ≤ a := hin.1
      have hhigh : a < im.bottom := hin.2
      unfold Beside at hbeside
      omega
    rw [loadWord, if_neg hin, orStop_eq_ok, MemoryChunk.load] at hl
    split at hl
    · cases hl
      exact hfields o ho _ hk
    · cases hl
  · exact h.soundWord (hsound w hl)

/-- A store that leaves the headers alone, of a sound word where collections redirect it. -/
theorem Rooted.stored (hno : NoHeader s.mem.heap a) (hw : Watched im s a → SoundIn out s.mem.heap os w)
    (hs : storeWord im s a w = .ok s') : Rooted im out os s' := by
  unfold storeWord at hs
  split at hs
  · next hin =>
    cases hs
    exact h.setSlot hin fun ha => hw (Or.inl ⟨ha, hin⟩)
  · obtain ⟨g, hg, hs⟩ := bind_eq_ok.mp hs
    cases hs
    rw [orStop_eq_ok, MemoryChunk.store] at hg
    split at hg
    · next hin =>
      cases hg
      obtain ⟨free, hr⟩ := h.heap.filled
      refine h.withHeap (g := s.mem.heap.setWord (a - s.mem.heap.begin) w)
        (h.heap.setWord (fun o ho => ?_) fun o ho hk => ?_) rfl
      · have hne := hno _ (hr.mem_headers.mpr ⟨o, ho, rfl⟩)
        omega
      · refine hw (Or.inr ⟨_, hr.mem_headers.mpr ⟨o, ho, rfl⟩, ?_⟩)
        rwa [Nat.add_sub_cancel_left]
    · cases hg

end Rooted

theorem storeWord_begin (hs : storeWord im s a w = .ok s') : s'.mem.heap.begin = s.mem.heap.begin := by
  unfold storeWord at hs
  split at hs
  · cases hs
    rfl
  · obtain ⟨g, hg, hs⟩ := bind_eq_ok.mp hs
    cases hs
    rw [orStop_eq_ok, MemoryChunk.store] at hg
    split at hg
    · cases hg
      rfl
    · cases hg

/-- Fewer slots are above a higher top. -/
theorem Watched.of_drop (hw : Watched im (s.drop n) a) : Watched im s a := by
  rcases hw with ⟨ha, hin⟩ | hfield
  · exact Or.inl ⟨Nat.lt_of_le_of_lt (Nat.le_add_right _ _) ha, hin⟩
  · exact Or.inr hfield

theorem StaApart.drop {i x : Word} (hto : StaApart im s i x) : StaApart im (s.drop n) i x := by
  unfold StaApart at hto ⊢
  split at hto
  · next hi =>
    rw [if_pos hi]
    intro tag htag a ha
    have hto := hto tag htag a ha
    split at hto
    · next hstring =>
      rw [if_pos hstring]
      exact ⟨hto.1, fun hw => hto.2 hw.of_drop⟩
    · next hstring =>
      rw [if_neg hstring]
      exact hto
  · next hi =>
    rw [if_neg hi]
    exact hto

/-! ### Results that are no pointers -/

theorem btag_unboxed {d t x : Word} (h : btag im s d t x = .ok w) : unboxed w = true := by
  unfold btag at h
  split at h
  · cases h
    exact unboxed_box _
  · obtain ⟨r, -, h⟩ := bind_eq_ok.mp h
    split at h
    · obtain ⟨p, -, h⟩ := bind_eq_ok.mp h
      obtain ⟨tag, -, h⟩ := bind_eq_ok.mp h
      cases h
      exact unboxed_box _
    · cases h
      exact unboxed_box _

theorem arrayPatt_unboxed {d x : Word} (h : arrayPatt im s d x = .ok w) : unboxed w = true := by
  unfold arrayPatt at h
  split at h
  · cases h
    exact unboxed_box _
  · obtain ⟨r, -, h⟩ := bind_eq_ok.mp h
    cases h
    exact unboxed_box _

theorem tagPatt_unboxed {tag x : Word} (h : tagPatt im s tag x = .ok w) : unboxed w = true := by
  unfold tagPatt at h
  split at h
  · cases h
    exact unboxed_box _
  · obtain ⟨t, -, h⟩ := bind_eq_ok.mp h
    cases h
    exact unboxed_box _

theorem llength_unboxed {x : Word} (h : llength im s x = .ok w) : unboxed w = true := by
  obtain ⟨u, -, h⟩ := bind_eq_ok.mp h
  obtain ⟨r, -, h⟩ := bind_eq_ok.mp h
  cases h
  exact unboxed_box _

theorem stringPatt_unboxed {x y : Word} (h : stringPatt im s x y = .ok w) : unboxed w = true := by
  -- what follows the check of `y`
  have answer : (if unboxed x then (.ok (box 0) : Except Stop Word) else do
      let t ← tagWord im s x
      if t ≠ stringTag then return box 0
      let a ← heapString im s (← derefPtr x) (2 ^ 32) 0
      let b ← heapString im s (← derefPtr y) (2 ^ 32) 0
      return box (boolWord (a == b))) = .ok w → unboxed w = true := by
    intro h
    split at h
    · cases h
      exact unboxed_box _
    · obtain ⟨t, -, h⟩ := bind_eq_ok.mp h
      split at h
      · cases h
        exact unboxed_box _
      · obtain ⟨p, -, h⟩ := bind_eq_ok.mp h
        obtain ⟨c, -, h⟩ := bind_eq_ok.mp h
        obtain ⟨q, -, h⟩ := bind_eq_ok.mp h
        obtain ⟨d, -, h⟩ := bind_eq_ok.mp h
        cases h
        exact unboxed_box _
  unfold stringPatt at h
  dsimp only at h
  split at h
  · obtain ⟨t, -, h⟩ := bind_eq_ok.mp h
    obtain ⟨u, -, h⟩ := bind_eq_ok.mp h
    exact answer h
  · exact answer h

/-! ### The instructions that neither allocate nor move a frame -/

section Step
variable (h : Rooted im out os s)
include h

/-- The element that `Belem` reads is taken from where `fieldAddress` says, or is a character. -/
theorem Rooted.belem {p i : Word} (ht : ∀ tag, tagWord im s p = .ok tag → tag ≠ stringTag →
    ∀ a, derefPtr p = .ok a → TakenFrom im out s (fieldAddress tag a i)) (hb : belem im s p i = .ok w) :
    SoundIn out s.mem.heap os w := by
  obtain ⟨u, -, hb⟩ := bind_eq_ok.mp hb
  obtain ⟨u, -, hb⟩ := bind_eq_ok.mp hb
  obtain ⟨tag, htag, hb⟩ := bind_eq_ok.mp hb
  obtain ⟨a, ha, hb⟩ := bind_eq_ok.mp hb
  dsimp only at hb
  split at hb
  · obtain ⟨c, -, hb⟩ := bind_eq_ok.mp hb
    cases hb
    exact soundIn_of_unboxed (unboxed_box _)
  · next hstring =>
    have hfrom := ht tag htag hstring a ha
    unfold fieldAddress at hfrom
    split at hb
    · next hsexp =>
      rw [if_pos hsexp] at hfrom
      exact h.loaded hfrom hb
    · next hsexp =>
      rw [if_neg hsexp] at hfrom
      exact h.loaded hfrom hb

/-- `Bsta` stores its sound operand, or a character to where no pointer is. -/
theorem Rooted.bsta {v i x : Word} (hv : SoundIn out s.mem.heap os v)
    (hto : StaApart im s i x) (hb : bsta im s v i x = .ok s') : Rooted im out os s' := by
  unfold StaApart at hto
  unfold Lama.bsta at hb
  split at hb
  · next hi =>
    rw [if_pos hi] at hto
    obtain ⟨u, -, hb⟩ := bind_eq_ok.mp hb
    obtain ⟨tag, htag, hb⟩ := bind_eq_ok.mp hb
    obtain ⟨a, ha, hb⟩ := bind_eq_ok.mp hb
    have hto := hto tag htag a ha
    dsimp only at hb
    split at hb
    · next hstring =>
      rw [if_pos hstring] at hto
      obtain ⟨c, -, hb⟩ := bind_eq_ok.mp hb
      exact h.stored hto.1 (fun hwatched => absurd hwatched hto.2) hb
    · next hstring =>
      rw [if_neg hstring] at hto
      unfold fieldAddress at hto
      split at hb
      · next hsexp =>
        rw [if_pos hsexp] at hto
        exact h.stored hto (fun _ => hv) hb
      · next hsexp =>
        rw [if_neg hsexp] at hto
        exact h.stored hto (fun _ => hv) hb
  · next hi =>
    rw [if_neg hi] at hto
    obtain ⟨a, ha, hb⟩ := bind_eq_ok.mp hb
    exact h.stored (hto a ha) (fun _ => hv) hb

/-- The pattern instructions push a boxed truth value. -/
theorem Rooted.patt {pattern : Pattern} (hp : patt im s pattern = .ok s') : Rooted im out os s' := by
  obtain ⟨q, hpop, hp⟩ := bind_eq_ok.mp hp
  obtain ⟨rfl, -, h₁⟩ := h.popped hpop
  cases pattern
  case string =>
    obtain ⟨q, hpop, hp⟩ := bind_eq_ok.mp hp
    obtain ⟨rfl, -, h₂⟩ := h₁.popped hpop
    obtain ⟨w, hw, hp⟩ := bind_eq_ok.mp hp
    exact h₂.pushed (soundIn_of_unboxed (stringPatt_unboxed hw)) hp
  case boxed => exact h₁.pushed (soundIn_of_unboxed (unboxed_box _)) hp
  case unboxed => exact h₁.pushed (soundIn_of_unboxed (unboxed_box _)) hp
  all_goals
    obtain ⟨w, hw, hp⟩ := bind_eq_ok.mp hp
    exact h₁.pushed (soundIn_of_unboxed (tagPatt_unboxed hw)) hp

/-- The slot of an operand that is not popped. -/
theorem Rooted.topWord (ht : vstackTop im s = .ok w) : SoundIn out s.mem.heap os w := by
  obtain ⟨u, -, ht⟩ := bind_eq_ok.mp ht
  obtain ⟨hin, rfl⟩ := readSlot_ok ht
  obtain ⟨he, -, hhi⟩ := ptrAdd_one h.high hin
  rw [he]
  exact h.slots _ (Nat.lt_succ_self _) hhi

/-- `cstack_alloc`: the slots that it reserves hold sound words already. -/
theorem Rooted.cstackAlloc
    (ht : ∀ a ∈ region (ptrAdd s.top (-(n : ℤ)) + 1) (s.top + 1), SoundWord out s.mem.heap (s.mem.ram a))
    (hc : cstackAlloc im s n = .ok s') : Rooted im out os s' := by
  obtain ⟨hlo, rfl⟩ := cstackAlloc_ok hc
  refine (h.moveTop (ptrAdd s.top (-n)) (by omega) (ptrAdd_lt _ _) fun a ha hb => ?_).congr rfl rfl
  exact h.soundWord (ht a (mem_region.mpr ⟨ha, Nat.lt_succ_of_le hb⟩))

theorem Rooted.execPlain (ht : Tended im out e f s inst)
    (hx : execPlain im e f s inst = .ok s') : Rooted im out os s' := by
  obtain ⟨htakes, hstores, -⟩ := ht
  cases inst
  case const n => exact h.pushed (soundIn_of_unboxed (unboxed_box _)) hx
  case sti =>
    obtain ⟨q, hv, hx⟩ := bind_eq_ok.mp hx
    obtain ⟨rfl, hword, h₁⟩ := h.popped hv
    obtain ⟨q, hp, hx⟩ := bind_eq_ok.mp hx
    obtain ⟨rfl, -, h₂⟩ := h₁.popped hp
    obtain ⟨a, ha, hx⟩ := bind_eq_ok.mp hx
    obtain ⟨s₃, hs, hx⟩ := bind_eq_ok.mp hx
    have h₃ := h₂.stored (hstores a ha) (fun _ => hword) hs
    exact h₃.pushed (hword.congr (storeWord_begin hs :) fun _ ho => ho) hx
  case sta =>
    obtain ⟨q, hv, hx⟩ := bind_eq_ok.mp hx
    obtain ⟨rfl, hword, h₁⟩ := h.popped hv
    obtain ⟨q, hi, hx⟩ := bind_eq_ok.mp hx
    obtain ⟨rfl, -, h₂⟩ := h₁.popped hi
    obtain ⟨q, hp, hx⟩ := bind_eq_ok.mp hx
    obtain ⟨rfl, -, h₃⟩ := h₂.popped hp
    obtain ⟨s₄, hs, hx⟩ := bind_eq_ok.mp hx
    have h₄ := h₃.bsta hword hstores.drop.drop.drop hs
    obtain ⟨a, u, hs⟩ := bsta_ok hs
    exact h₄.pushed (hword.congr (storeWord_begin hs :) fun _ ho => ho) hx
  case drop =>
    obtain ⟨q, hv, hx⟩ := bind_eq_ok.mp hx
    obtain ⟨rfl, -, h₁⟩ := h.popped hv
    cases hx
    exact h₁
  case dup =>
    obtain ⟨w, hw, hx⟩ := bind_eq_ok.mp hx
    exact h.pushed (h.topWord hw) hx
  case swap =>
    obtain ⟨q, hv, hx⟩ := bind_eq_ok.mp hx
    obtain ⟨rfl, hfst, h₁⟩ := h.popped hv
    obtain ⟨q, hu, hx⟩ := bind_eq_ok.mp hx
    obtain ⟨rfl, hsnd, h₂⟩ := h₁.popped hu
    obtain ⟨s₃, hs, hx⟩ := bind_eq_ok.mp hx
    have h₃ := h₂.pushed hfst hs
    obtain ⟨-, -, rfl⟩ := vstackPush_ok hs
    exact h₃.pushed hsnd hx
  case elem =>
    obtain ⟨q, hi, hx⟩ := bind_eq_ok.mp hx
    obtain ⟨rfl, -, h₁⟩ := h.popped hi
    obtain ⟨q, hp, hx⟩ := bind_eq_ok.mp hx
    obtain ⟨rfl, -, h₂⟩ := h₁.popped hp
    obtain ⟨w, hw, hx⟩ := bind_eq_ok.mp hx
    exact h₂.pushed (h.belem htakes hw) hx
  case begin argc locc => exact h.cstackAlloc htakes hx
  case cbegin argc locc => exact h.cstackAlloc htakes hx
  case tag pos args =>
    obtain ⟨q, hd, hx⟩ := bind_eq_ok.mp hx
    obtain ⟨rfl, -, h₁⟩ := h.popped hd
    obtain ⟨chars, -, hx⟩ := bind_eq_ok.mp hx
    obtain ⟨t, -, hx⟩ := bind_eq_ok.mp hx
    obtain ⟨w, hw, hx⟩ := bind_eq_ok.mp hx
    exact h₁.pushed (soundIn_of_unboxed (btag_unboxed hw)) hx
  case array n =>
    obtain ⟨q, hd, hx⟩ := bind_eq_ok.mp hx
    obtain ⟨rfl, -, h₁⟩ := h.popped hd
    obtain ⟨w, hw, hx⟩ := bind_eq_ok.mp hx
    exact h₁.pushed (soundIn_of_unboxed (arrayPatt_unboxed hw)) hx
  case fail line col =>
    obtain ⟨q, -, hx⟩ := bind_eq_ok.mp hx
    cases hx
  case binop op =>
    obtain ⟨q, hr, hx⟩ := bind_eq_ok.mp hx
    obtain ⟨rfl, -, h₁⟩ := h.popped hr
    obtain ⟨q, hl, hx⟩ := bind_eq_ok.mp hx
    obtain ⟨rfl, -, h₂⟩ := h₁.popped hl
    obtain ⟨res, -, hx⟩ := bind_eq_ok.mp hx
    exact h₂.pushed (soundIn_of_unboxed (unboxed_box _)) hx
  case ld l =>
    obtain ⟨a, ha, hx⟩ := bind_eq_ok.mp hx
    obtain ⟨w, hw, hx⟩ := bind_eq_ok.mp hx
    exact h.pushed (h.loaded (htakes a ha) hw) hx
  case lda l =>
    obtain ⟨a, ha, hx⟩ := bind_eq_ok.mp hx
    obtain ⟨s₁, hs, hx⟩ := bind_eq_ok.mp hx
    have hw := h.soundWord (htakes a ha)
    have h₁ := h.pushed hw hs
    obtain ⟨-, -, rfl⟩ := vstackPush_ok hs
    exact h₁.pushed hw hx
  case st l =>
    obtain ⟨a, ha, hx⟩ := bind_eq_ok.mp hx
    obtain ⟨w, hw, hx⟩ := bind_eq_ok.mp hx
    exact h.stored (hstores a ha) (fun _ => h.topWord hw) hx
  case patt p => exact h.patt hx
  case lread => exact h.pushed (soundIn_of_unboxed (unboxed_box _)) hx
  case lwrite =>
    obtain ⟨q, hn, hx⟩ := bind_eq_ok.mp hx
    obtain ⟨rfl, -, h₁⟩ := h.popped hn
    have h₂ : Rooted im out os { s.drop 1 with out := s.out ++ [(unbox (s.mem.ram (s.top + 1))).toInt] } :=
      h₁.congr rfl rfl
    exact h₂.pushed (Or.inr (Or.inl h.zero)) hx
  case llength =>
    obtain ⟨q, hp, hx⟩ := bind_eq_ok.mp hx
    obtain ⟨rfl, -, h₁⟩ := h.popped hp
    obtain ⟨w, hw, hx⟩ := bind_eq_ok.mp hx
    exact h₁.pushed (soundIn_of_unboxed (llength_unboxed hw)) hx
  case stop => cases hx
  all_goals
    cases hx
    exact h

end Step

end Lama

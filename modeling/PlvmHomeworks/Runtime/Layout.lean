import PlvmHomeworks.Lib.Sliding
import PlvmHomeworks.Runtime.Bounds
import Mathlib.Data.Nat.Bitwise

/-! The objects of a heap that is laid out as it should be: what the object functions of the runtime
    compute there, and the loop over the pointer fields of an object.

    An object is named by the offset of its header from `heap.begin`. -/

namespace Lama
open Sliding

/-! ### The bits of a forward-address word -/

theorem getMarkBit_eq (x : Word) : getMarkBit x = x.getLsbD 0 := by
  rw [getMarkBit, show (1 : Word) = BitVec.twoPow 32 0 by decide, BitVec.and_twoPow]
  cases x.getLsbD 0 <;> decide

theorem isEnqueuedBit_eq (x : Word) : isEnqueuedBit x = x.getLsbD 1 := by
  rw [isEnqueuedBit, show (2 : Word) = BitVec.twoPow 32 1 by decide, BitVec.and_twoPow]
  cases x.getLsbD 1 <;> decide

theorem getLsbD_three (i : ℕ) : (3 : Word).getLsbD i = decide (i < 2) := by
  rw [show (3 : Word) = BitVec.ofNat 32 (2 ^ 2 - 1) from rfl, BitVec.getLsbD_ofNat,
    Nat.testBit_two_pow_sub_one]
  by_cases h : i < 2
  · simp only [h, decide_true, Bool.and_true, decide_eq_true_eq]
    omega
  · simp [h]

theorem getForwardBits_getLsbD (x : Word) (i : ℕ) :
    (getForwardBits x).getLsbD i = (x.getLsbD i && decide (2 ≤ i)) := by
  rw [getForwardBits, BitVec.getLsbD_and, BitVec.getLsbD_not, getLsbD_three]
  by_cases hi : i < 32
  · by_cases h : i < 2
    · simp [hi, h]
    · simp [hi, h, Nat.not_lt.mp h]
  · simp [BitVec.getLsbD_of_ge x i (by omega)]

theorem ptr_getLsbD {p i : ℕ} (hi : i < 2) : (ptr p).getLsbD i = false := by
  rw [ptr, BitVec.getLsbD_ofNat, show 4 * p = 2 ^ 2 * p from rfl, Nat.testBit_two_pow_mul]
  simp only [ge_iff_le, Bool.and_eq_false_imp, decide_eq_true_eq]
  omega

theorem setForwardBits_getLsbD (x : Word) (p i : ℕ) : (setForwardBits x (ptr p)).getLsbD i =
    if i < 2 then x.getLsbD i else (ptr p).getLsbD i := by
  rw [setForwardBits, BitVec.getLsbD_or, BitVec.getLsbD_and, getLsbD_three]
  split
  · rename_i h
    simp [h, ptr_getLsbD h]
  · rename_i h
    simp [h]

theorem setMarkBit_getLsbD (x : Word) (i : ℕ) :
    (setMarkBit x).getLsbD i = (x.getLsbD i || decide (i = 0)) := by
  rw [setMarkBit, show (1 : Word) = BitVec.twoPow 32 0 by decide, BitVec.getLsbD_or,
    BitVec.getLsbD_twoPow]
  congr 1
  grind

theorem makeEnqueuedBit_getLsbD (x : Word) (i : ℕ) :
    (makeEnqueuedBit x).getLsbD i = (x.getLsbD i || decide (i = 1)) := by
  rw [makeEnqueuedBit, show (2 : Word) = BitVec.twoPow 32 1 by decide, BitVec.getLsbD_or,
    BitVec.getLsbD_twoPow]
  congr 1
  grind

theorem and_not_twoPow_getLsbD (x : Word) {j : ℕ} (i : ℕ) :
    (x &&& ~~~BitVec.twoPow 32 j).getLsbD i = (x.getLsbD i && decide (i ≠ j)) := by
  rw [BitVec.getLsbD_and, BitVec.getLsbD_not, BitVec.getLsbD_twoPow]
  by_cases hi : i < 32
  · grind
  · simp [BitVec.getLsbD_of_ge x i (by omega)]

theorem resetMarkBit_getLsbD (x : Word) (i : ℕ) :
    (resetMarkBit x).getLsbD i = (x.getLsbD i && decide (i ≠ 0)) := by
  rw [resetMarkBit, show (1 : Word) = BitVec.twoPow 32 0 by decide, and_not_twoPow_getLsbD]

theorem makeDequeuedBit_getLsbD (x : Word) (i : ℕ) :
    (makeDequeuedBit x).getLsbD i = (x.getLsbD i && decide (i ≠ 1)) := by
  rw [makeDequeuedBit, show (2 : Word) = BitVec.twoPow 32 1 by decide, and_not_twoPow_getLsbD]

section Bits
variable (x : Word) (p : ℕ)

@[simp] theorem getMarkBit_setForwardBits : getMarkBit (setForwardBits x (ptr p)) = getMarkBit x := by
  rw [getMarkBit_eq, getMarkBit_eq, setForwardBits_getLsbD]; simp

@[simp] theorem isEnqueuedBit_setForwardBits :
    isEnqueuedBit (setForwardBits x (ptr p)) = isEnqueuedBit x := by
  rw [isEnqueuedBit_eq, isEnqueuedBit_eq, setForwardBits_getLsbD]; simp

@[simp] theorem getForwardBits_setForwardBits :
    getForwardBits (setForwardBits x (ptr p)) = ptr p := by
  refine BitVec.eq_of_getLsbD_eq fun i _ => ?_
  rw [getForwardBits_getLsbD, setForwardBits_getLsbD]
  by_cases h : i < 2
  · simp [h, ptr_getLsbD h]
  · simp [h, Nat.not_lt.mp h]

@[simp] theorem getMarkBit_setMarkBit : getMarkBit (setMarkBit x) = true := by
  rw [getMarkBit_eq, setMarkBit_getLsbD]; simp

@[simp] theorem isEnqueuedBit_setMarkBit : isEnqueuedBit (setMarkBit x) = isEnqueuedBit x := by
  rw [isEnqueuedBit_eq, isEnqueuedBit_eq, setMarkBit_getLsbD]; simp

@[simp] theorem getMarkBit_resetMarkBit : getMarkBit (resetMarkBit x) = false := by
  rw [getMarkBit_eq, resetMarkBit_getLsbD]; simp

@[simp] theorem isEnqueuedBit_resetMarkBit : isEnqueuedBit (resetMarkBit x) = isEnqueuedBit x := by
  rw [isEnqueuedBit_eq, isEnqueuedBit_eq, resetMarkBit_getLsbD]; simp

@[simp] theorem getMarkBit_makeEnqueuedBit : getMarkBit (makeEnqueuedBit x) = getMarkBit x := by
  rw [getMarkBit_eq, getMarkBit_eq, makeEnqueuedBit_getLsbD]; simp

@[simp] theorem isEnqueuedBit_makeEnqueuedBit : isEnqueuedBit (makeEnqueuedBit x) = true := by
  rw [isEnqueuedBit_eq, makeEnqueuedBit_getLsbD]; simp

@[simp] theorem getMarkBit_makeDequeuedBit : getMarkBit (makeDequeuedBit x) = getMarkBit x := by
  rw [getMarkBit_eq, getMarkBit_eq, makeDequeuedBit_getLsbD]; simp

@[simp] theorem isEnqueuedBit_makeDequeuedBit : isEnqueuedBit (makeDequeuedBit x) = false := by
  rw [isEnqueuedBit_eq, makeDequeuedBit_getLsbD]; simp

/-- Changing the two low bits leaves the address alone. -/
theorem getForwardBits_congr {x y : Word} (h : ∀ i, 2 ≤ i → y.getLsbD i = x.getLsbD i) :
    getForwardBits y = getForwardBits x := by
  refine BitVec.eq_of_getLsbD_eq fun i _ => ?_
  rw [getForwardBits_getLsbD, getForwardBits_getLsbD]
  by_cases hi : 2 ≤ i
  · rw [h i hi]
  · simp [hi]

@[simp] theorem getForwardBits_setMarkBit : getForwardBits (setMarkBit x) = getForwardBits x :=
  getForwardBits_congr fun i hi => by
    rw [setMarkBit_getLsbD]
    simp only [Bool.or_eq_left_iff_imp, decide_eq_true_eq]
    omega

@[simp] theorem getForwardBits_makeEnqueuedBit :
    getForwardBits (makeEnqueuedBit x) = getForwardBits x :=
  getForwardBits_congr fun i hi => by
    rw [makeEnqueuedBit_getLsbD]
    simp only [Bool.or_eq_left_iff_imp, decide_eq_true_eq]
    omega

@[simp] theorem getForwardBits_makeDequeuedBit :
    getForwardBits (makeDequeuedBit x) = getForwardBits x :=
  getForwardBits_congr fun i hi => by
    rw [makeDequeuedBit_getLsbD, decide_eq_true (by omega), Bool.and_true]

end Bits

/-! ### Pointers -/

theorem ptr_toNat {p : ℕ} (h : p < 2 ^ 30) : (ptr p).toNat = 4 * p := by
  rw [ptr, BitVec.toNat_ofNat]
  omega

theorem aligned_ptr {p : ℕ} (h : p < 2 ^ 30) : aligned (ptr p) = some p := by
  rw [aligned, ptr_toNat h, if_pos (by omega), Option.some.injEq]
  omega

theorem ptr_inj {p q : ℕ} (hp : p < 2 ^ 30) (hq : q < 2 ^ 30) (h : ptr p = ptr q) : p = q := by
  have := congrArg BitVec.toNat h
  rw [ptr_toNat hp, ptr_toNat hq] at this
  omega

theorem unboxed_ptr (p : ℕ) : unboxed (ptr p) = false := by
  rw [unboxed, show (ptr p &&& 1 == 1) = getMarkBit (ptr p) from rfl, getMarkBit_eq,
    ptr_getLsbD (by decide)]

theorem ptr_add (a c : ℕ) : ptr (a + c) = ptr a + ptr c := by
  rw [ptr, Nat.mul_add, BitVec.ofNat_add]
  rfl

/-- A pointer moves along with the heap it points into. -/
theorem ptr_move (a b c : ℕ) : ptr a + (ptr (b + c) - ptr b) = ptr (a + c) := by
  rw [ptr_add, ptr_add, BitVec.add_comm (ptr b), BitVec.add_sub_cancel]

/-! ### Boxed integers -/

theorem box_toNat (x : Word) : (box x).toNat = 2 * x.toNat % 2 ^ 32 + 1 := by
  have heven : x.toNat * 2 ^ 1 % 2 ^ 32 = 2 * (x.toNat % 2 ^ 31) := by omega
  have hor := Nat.two_pow_add_eq_or_of_lt (i := 1) (b := 1) (by decide) (x.toNat % 2 ^ 31)
  simp only [pow_one] at hor
  rw [box, BitVec.toNat_or, BitVec.toNat_shiftLeft, Nat.shiftLeft_eq, heven,
    show (1 : Word).toNat = 1 from rfl, ← hor]
  omega

theorem unboxed_iff (x : Word) : unboxed x = true ↔ x.toNat % 2 = 1 := by
  rw [unboxed, beq_iff_eq, ← BitVec.toNat_inj, BitVec.toNat_and, show (1 : Word).toNat = 1 from rfl,
    Nat.and_one_is_mod]

theorem unboxed_box (x : Word) : unboxed (box x) = true := by
  rw [unboxed_iff, box_toNat]
  omega

/-- The shift of `BOX` drops the top bit: what comes back is the value modulo `2^31`. -/
theorem unbox_box (x : Word) : (unbox (box x)).toInt = x.toInt.bmod (2 ^ 31) := by
  have hx := x.isLt
  rw [unbox, BitVec.toInt_sshiftRight, Int.shiftRight_eq_div_pow, BitVec.toInt_eq_toNat_bmod,
    box_toNat, BitVec.toInt_eq_toNat_bmod]
  simp only [Int.bmod_def]
  omega

theorem unbox_range (x : Word) : -2 ^ 30 ≤ (unbox x).toInt ∧ (unbox x).toInt < 2 ^ 30 := by
  have hlo := BitVec.le_toInt x
  have hhi := BitVec.toInt_lt (x := x)
  rw [unbox, BitVec.toInt_sshiftRight, Int.shiftRight_eq_div_pow]
  omega

/-! ### One object -/

/-- The bytes and the words of the object with this data header; none when its tag is unknown. -/
def objectBytes (x : Word) : ℕ :=
  match LamaType.ofTag (tagOf x) with
  | some type => objBytes type (lenOf x)
  | none => 0

def objectWords (x : Word) : ℕ :=
  match LamaType.ofTag (tagOf x) with
  | some type => bytesToWords (objBytes type (lenOf x))
  | none => 0

/-- Where the pointer fields of the object start, from its header: behind the contents of a string,
    the code of a closure and the tag of an S-expression. -/
def firstField (x : Word) : ℕ :=
  match LamaType.ofTag (tagOf x) with
  | some .array => 2
  | some .closure | some .sexp => 3
  | some .string | none => objectWords x

theorem lenOf_lt (x : Word) : lenOf x < 2 ^ 29 := by
  rw [lenOf, BitVec.toNat_ushiftRight, Nat.shiftRight_eq_div_pow]
  have := (x &&& 0xFFFFFFF8).isLt
  omega

theorem ofTag_eq_some_iff {t : Word} {type : LamaType} : LamaType.ofTag t = some type ↔ t = type.tag := by
  constructor
  · intro h
    unfold LamaType.ofTag at h
    split at h
    · next heq => cases h; exact heq
    · split at h
      · next heq => cases h; exact heq
      · split at h
        · next heq => cases h; exact heq
        · split at h
          · next heq => cases h; exact heq
          · cases h
  · rintro rfl
    cases type <;> decide

theorem lenOf_eq (x : Word) : lenOf x = x.toNat / 2 ^ 3 := by
  have hmask : (0xFFFFFFF8 : Word).toNat >>> 3 = 2 ^ 29 - 1 := by decide
  have hx := x.isLt
  rw [lenOf, BitVec.toNat_ushiftRight, BitVec.toNat_and, Nat.shiftRight_and_distrib, hmask,
    Nat.and_two_pow_sub_one_eq_mod, Nat.shiftRight_eq_div_pow]
  omega

theorem tagOf_toNat (x : Word) : (tagOf x).toNat = x.toNat % 2 ^ 3 := by
  rw [tagOf, BitVec.toNat_and, show (7 : Word).toNat = 2 ^ 3 - 1 from rfl,
    Nat.and_two_pow_sub_one_eq_mod]

theorem LamaType.tag_lt (type : LamaType) : type.tag.toNat < 2 ^ 3 := by
  cases type <;> decide

/-- The tag and the `len` of a header do not overlap. -/
theorem headerWord_toNat {type : LamaType} {len : ℕ} (hlen : len < 2 ^ 29) :
    (headerWord type len).toNat = 2 ^ 3 * len + type.tag.toNat := by
  have hor := Nat.two_pow_add_eq_or_of_lt type.tag_lt len
  rw [headerWord, BitVec.toNat_or, BitVec.toNat_shiftLeft, BitVec.toNat_ofNat, Nat.shiftLeft_eq,
    Nat.or_comm, hor]
  congr 1
  omega

theorem headerWord_len {type : LamaType} {len : ℕ} (hlen : len < 2 ^ 29) :
    lenOf (headerWord type len) = len := by
  have := type.tag_lt
  rw [lenOf_eq, headerWord_toNat hlen]
  omega

theorem headerWord_tag {type : LamaType} {len : ℕ} (hlen : len < 2 ^ 29) :
    tagOf (headerWord type len) = type.tag := by
  have := type.tag_lt
  refine BitVec.eq_of_toNat_eq ?_
  rw [tagOf_toNat, headerWord_toNat hlen]
  omega

theorem bytesToWords_eq {n : ℕ} (hpos : 0 < n) (hlt : n < 2 ^ 32) :
    bytesToWords n = (n - 1) / 4 + 1 := by
  unfold bytesToWords
  omega

/-- An object takes whole words, and only a string leaves part of the last one. -/
theorem objectWords_spec {x : Word} (h : 0 < objectWords x) :
    ∃ type, LamaType.ofTag (tagOf x) = some type ∧ objectBytes x = objBytes type (lenOf x) ∧
      objectWords x = bytesToWords (objectBytes x) ∧ 8 ≤ objectBytes x ∧
      objectBytes x ≤ 4 * objectWords x ∧ 4 * objectWords x < objectBytes x + 4 := by
  unfold objectWords at h
  cases ht : LamaType.ofTag (tagOf x) with
  | none => simp [ht] at h
  | some type =>
    have hlen := lenOf_lt x
    have hb : 8 ≤ objBytes type (lenOf x) ∧ objBytes type (lenOf x) < 2 ^ 32 := by
      cases type <;> simp only [objBytes] <;> omega
    have hw := bytesToWords_eq (by omega) hb.2
    simp only [objectBytes, objectWords, ht, true_and, Option.some.injEq, exists_eq_left']
    omega

/-- An object that has pointer fields fills its last word. -/
theorem objectBytes_of_field {x : Word} (h : firstField x < objectWords x) :
    objectBytes x = 4 * objectWords x := by
  obtain ⟨type, ht, hb, hw, -, -, -⟩ := objectWords_spec (Nat.lt_of_le_of_lt (Nat.zero_le _) h)
  have hlen := lenOf_lt x
  have hbytes : 0 < objectBytes x ∧ objectBytes x < 2 ^ 32 := by
    rw [hb]
    cases type <;> simp only [objBytes] <;> omega
  rw [hw, bytesToWords_eq hbytes.1 hbytes.2, hb]
  cases type with
  | string =>
    simp only [firstField, ht] at h
    exact absurd h (Nat.lt_irrefl _)
  | array => simp only [objBytes]; omega
  | closure => simp only [objBytes]; omega
  | sexp => simp only [objBytes]; omega

theorem two_le_objectWords {x : Word} (h : 0 < objectWords x) : 2 ≤ objectWords x := by
  obtain ⟨-, -, -, -, h8, h4, -⟩ := objectWords_spec h
  omega

theorem two_le_firstField {x : Word} (h : 0 < objectWords x) : 2 ≤ firstField x := by
  have := two_le_objectWords h
  unfold firstField
  split <;> omega

/-- There is an object at the offset `p` of the heap. -/
structure IsObject (h : MemoryChunk) (p : ℕ) : Prop where
  pos : 0 < objectWords (h.words p)
  inside : h.begin + p + objectWords (h.words p) ≤ h.end_

/-- The heap with the word at an offset replaced. -/
def MemoryChunk.setWord (h : MemoryChunk) (k : ℕ) (v : Word) : MemoryChunk :=
  { h with words := fun j => if j = k then v else h.words j }

theorem setWord_bounds (h : MemoryChunk) (k : ℕ) (v : Word) : SameBounds h (h.setWord k v) :=
  ⟨rfl, rfl, rfl, rfl⟩

variable {h h' : MemoryChunk} {p k : ℕ}

theorem load_add (hk : h.begin + k < h.end_) : h.load (h.begin + k) = some (h.words k) := by
  rw [MemoryChunk.load, if_pos ⟨by omega, hk⟩, Nat.add_sub_cancel_left]

theorem store_add {v : Word} (hk : h.begin + k < h.end_) :
    h.store (h.begin + k) v = some (h.setWord k v) := by
  rw [MemoryChunk.store, if_pos ⟨by omega, hk⟩, Nat.add_sub_cancel_left]
  rfl

section IsObject
variable (ho : IsObject h p)
include ho

theorem IsObject.two_le : 2 ≤ objectWords (h.words p) := two_le_objectWords ho.pos

theorem IsObject.load_header : h.load (h.begin + p) = some (h.words p) :=
  load_add (by have := ho.two_le; have := ho.inside; omega)

theorem IsObject.typed : ∃ type, getTypeHeaderPtr h (h.begin + p) = some type ∧
    LamaType.ofTag (tagOf (h.words p)) = some type := by
  obtain ⟨type, ht, -⟩ := objectWords_spec ho.pos
  refine ⟨type, ?_, ht⟩
  rw [getTypeHeaderPtr, ho.load_header]
  exact ht

theorem IsObject.content : getObjectContentPtr h (h.begin + p) = some (h.begin + p + headerSize) := by
  obtain ⟨type, ht, -⟩ := ho.typed
  rw [getObjectContentPtr, ht]
  rfl

theorem IsObject.header :
    getObjHeaderPtr h (h.begin + p + headerSize) = some (h.begin + p) := by
  obtain ⟨type, ht, -⟩ := ho.typed
  rw [getObjHeaderPtr, Nat.add_sub_cancel, ht]
  rfl

theorem IsObject.bytes : objSizeHeaderPtr h (h.begin + p) = some (objectBytes (h.words p)) := by
  obtain ⟨type, ht, -⟩ := ho.typed
  obtain ⟨type', ht', hb, -⟩ := objectWords_spec ho.pos
  obtain rfl : type = type' := by
    have := ho.typed
    simp_all
  rw [objSizeHeaderPtr, ht, hb, ho.load_header]
  rfl

theorem IsObject.end_ : getEndOfObj h (h.begin + p) =
    some (h.begin + p + objectWords (h.words p)) := by
  obtain ⟨-, -, -, hw, -⟩ := objectWords_spec ho.pos
  rw [getEndOfObj, ho.bytes, hw]
  rfl

theorem IsObject.next : heapNextObj h (h.begin + p) =
    some (h.begin + (p + objectWords (h.words p))) := by
  obtain ⟨-, -, -, hw, -⟩ := objectWords_spec ho.pos
  rw [heapNextObj, ho.bytes, ← Nat.add_assoc, hw]
  rfl

theorem IsObject.forwardWord :
    Lama.forwardWord h (h.begin + p + headerSize) = some (h.words (p + 1)) := by
  have := ho.two_le
  have := ho.inside
  rw [Lama.forwardWord, show h.begin + p + headerSize - 1 = h.begin + (p + 1) by
    unfold headerSize; omega, load_add (by omega)]

theorem IsObject.mapForward (g : Word → Word) :
    Lama.mapForward g h (h.begin + p + headerSize) =
      some (h.setWord (p + 1) (g (h.words (p + 1)))) := by
  have := ho.two_le
  have := ho.inside
  rw [Lama.mapForward, ho.forwardWord, show h.begin + p + headerSize - 1 = h.begin + (p + 1) by
    unfold headerSize; omega]
  exact store_add (by omega)

theorem IsObject.isMarked :
    Lama.isMarked h (h.begin + p + headerSize) = some (getMarkBit (h.words (p + 1))) := by
  rw [Lama.isMarked, ho.forwardWord]
  rfl

theorem IsObject.isEnqueued :
    Lama.isEnqueued h (h.begin + p + headerSize) = some (isEnqueuedBit (h.words (p + 1))) := by
  rw [Lama.isEnqueued, ho.forwardWord]
  rfl

theorem IsObject.getForwardAddress :
    Lama.getForwardAddress h (h.begin + p + headerSize) =
      some (getForwardBits (h.words (p + 1))) := by
  rw [Lama.getForwardAddress, ho.forwardWord]
  rfl

/-- The iterator starts at the first field. -/
theorem IsObject.fieldBegin : ∃ type, fieldBeginIterator h (h.begin + p) =
    some ⟨type, h.begin + p, h.begin + (p + firstField (h.words p))⟩ := by
  obtain ⟨type, ht, htag⟩ := ho.typed
  refine ⟨type, ?_⟩
  rw [fieldBeginIterator, ht, ho.content]
  cases type <;> simp only [firstField, htag, Option.bind_eq_bind, Option.bind_some,
    Option.pure_def, headerSize, ho.end_, Nat.add_assoc]

end IsObject

/-- The word at the offset `k` is a pointer field of the object at `p`, if it is a pointer. -/
def IsField (h : MemoryChunk) (p k : ℕ) : Prop :=
  p + firstField (h.words p) ≤ k ∧ k < p + objectWords (h.words p)

theorem IsObject.congr (ho : IsObject h p) (hb : SameBounds h h') (hw : h'.words p = h.words p) :
    IsObject h' p :=
  ⟨by rw [hw]; exact ho.pos, by rw [hb.begin, hb.end_, hw]; exact ho.inside⟩

theorem IsField.load (ho : IsObject h p) (hf : IsField h p k) :
    h.load (h.begin + k) = some (h.words k) :=
  load_add (by have := ho.inside; have := hf.2; omega)

/-! ### The loop over the pointer fields -/

section Loop
variable {σ : Type} {heap : σ → MemoryChunk} {body : σ → ℕ → Option σ} {P : ℕ → σ → Prop}

theorem fuel_pos (h : MemoryChunk) : 0 < h.fuel := Nat.succ_pos _

/-- `P k s` says of a state `s` of the loop that the fields before `k` have been visited: turns that
    skip a field and turns that visit one keep it, and none changes the shape of the object. -/
structure FieldLoop (heap : σ → MemoryChunk) (body : σ → ℕ → Option σ) (h : MemoryChunk) (p : ℕ)
    (P : ℕ → σ → Prop) : Prop where
  object : IsObject h p
  span : h.end_ = h.begin + h.size
  bounds : ∀ k s, P k s → SameBounds h (heap s)
  header : ∀ k s, P k s → (heap s).words p = h.words p
  skip : ∀ k s, IsField h p k → P k s → unboxed ((heap s).words k) = true → P (k + 1) s
  visit : ∀ k s, IsField h p k → P k s → unboxed ((heap s).words k) = false →
    ∃ s', body s (h.begin + k) = some s' ∧ P (k + 1) s'

variable (hl : FieldLoop heap body h p P)
include hl

theorem FieldLoop.isDone {s : σ} {type : LamaType} (hP : P k s) :
    fieldIsDone (heap s) ⟨type, h.begin + p, h.begin + k⟩ =
      some (decide (p + objectWords (h.words p) ≤ k)) := by
  have ho := hl.object.congr (hl.bounds k s hP) (hl.header k s hP)
  have hend := ho.end_
  rw [(hl.bounds k s hP).begin, hl.header k s hP] at hend
  rw [fieldIsDone, hend]
  show some (decide (h.begin + k ≥ h.begin + p + objectWords (h.words p))) = _
  rw [Option.some.injEq, decide_eq_decide]
  omega

theorem FieldLoop.load {s : σ} (hP : P k s) (hk : k < p + objectWords (h.words p)) :
    (heap s).load (h.begin + k) = some ((heap s).words k) := by
  have hb := hl.bounds k s hP
  have := hl.object.inside
  rw [← hb.begin]
  exact load_add (by rw [hb.begin, hb.end_]; omega)

/-- The iterator goes on to the next pointer, or to the end of the object. -/
theorem FieldLoop.next {s : σ} (type : LamaType) : ∀ (fuel : ℕ) {k : ℕ},
    0 < fuel → p + objectWords (h.words p) ≤ k + fuel → p + firstField (h.words p) ≤ k + 1 →
    P (k + 1) s →
    ∃ j, k + 1 ≤ j ∧ objNextPtrField (heap s) fuel ⟨type, h.begin + p, h.begin + k⟩ =
        some ⟨type, h.begin + p, h.begin + j⟩ ∧ P j s ∧
      (j < p + objectWords (h.words p) → unboxed ((heap s).words j) = false) := by
  intro fuel
  induction fuel with
  | zero =>
    intro k h0
    omega
  | succ fuel ih =>
    intro k _ hfuel hlo hP
    rw [objNextPtrField, show objNextField ⟨type, h.begin + p, h.begin + k⟩ =
      ⟨type, h.begin + p, h.begin + (k + 1)⟩ from rfl, hl.isDone hP]
    by_cases hdone : p + objectWords (h.words p) ≤ k + 1
    · exact ⟨k + 1, Nat.le_refl _, by simp [hdone], hP, fun h => by omega⟩
    · have hload := hl.load hP (Nat.lt_of_not_le hdone)
      cases hv : unboxed ((heap s).words (k + 1)) with
      | false =>
        refine ⟨k + 1, Nat.le_refl _, ?_, hP, fun _ => hv⟩
        simp [hdone, hload, isValidPointer, hv]
      | true =>
        obtain ⟨j, hj, hnext, hPj, hptr⟩ := ih (k := k + 1) (by omega) (by omega) (by omega)
          (hl.skip _ s ⟨hlo, by omega⟩ hP hv)
        refine ⟨j, by omega, ?_, hPj, hptr⟩
        simpa [hdone, hload, isValidPointer, hv] using hnext

/-- The loop from a pointer or the end of the object. -/
theorem FieldLoop.loop (type : LamaType) : ∀ (fuel : ℕ) {k : ℕ} {s : σ},
    0 < fuel → p + objectWords (h.words p) < k + fuel → p + firstField (h.words p) ≤ k → P k s →
    (k < p + objectWords (h.words p) → unboxed ((heap s).words k) = false) →
    ∃ s' j, p + objectWords (h.words p) ≤ j ∧
      ptrFieldLoop heap body fuel ⟨type, h.begin + p, h.begin + k⟩ s = some s' ∧ P j s' := by
  intro fuel
  induction fuel with
  | zero =>
    intro k s h0
    omega
  | succ fuel ih =>
    intro k s _ hfuel hlo hP hptr
    rw [ptrFieldLoop, hl.isDone hP]
    by_cases hdone : p + objectWords (h.words p) ≤ k
    · exact ⟨s, k, hdone, by simp [hdone], hP⟩
    · have hk : k < p + objectWords (h.words p) := Nat.lt_of_not_le hdone
      obtain ⟨s₁, hbody, hP₁⟩ := hl.visit k s ⟨hlo, hk⟩ hP (hptr hk)
      have hb := hl.bounds _ _ hP₁
      have hin := hl.object.inside
      have hspan := hl.span
      have hroom : p + objectWords (h.words p) ≤ k + (heap s₁).fuel := by
        rw [MemoryChunk.fuel, hb.size]; omega
      obtain ⟨j, hj, hnext, hPj, hptrj⟩ := hl.next type _ (fuel_pos _) hroom (by omega) hP₁
      obtain ⟨s', i, hi, hloop, hPi⟩ := ih (by omega) (by omega) (by omega) hPj hptrj
      refine ⟨s', i, hi, ?_, hPi⟩
      simpa [hdone, hbody, hnext] using hloop

/-- All the fields have been visited after the loop. -/
theorem FieldLoop.run {s : σ} (h0 : P (p + firstField (h.words p)) s) :
    ∃ s' k, p + objectWords (h.words p) ≤ k ∧
      forPtrFields heap body (h.begin + p) s = some s' ∧ P k s' := by
  have hb := hl.bounds _ _ h0
  have hhead := hl.header _ _ h0
  have hin := hl.object.inside
  have hspan := hl.span
  obtain ⟨type, hbegin⟩ := (hl.object.congr hb hhead).fieldBegin
  rw [hb.begin, hhead] at hbegin
  have hfuel : p + objectWords (h.words p) < (heap s).fuel := by
    rw [MemoryChunk.fuel, hb.size]; omega
  -- the first pointer field, or the end of the object
  obtain ⟨k, hk, hit, hPk, hptr⟩ : ∃ k, p + firstField (h.words p) ≤ k ∧
      ptrFieldBeginIterator (heap s) (h.begin + p) = some ⟨type, h.begin + p, h.begin + k⟩ ∧ P k s ∧
      (k < p + objectWords (h.words p) → unboxed ((heap s).words k) = false) := by
    rw [ptrFieldBeginIterator, hbegin]
    by_cases hdone : p + objectWords (h.words p) ≤ p + firstField (h.words p)
    · refine ⟨_, Nat.le_refl _, ?_, h0, fun h => by omega⟩
      simp [hl.isDone h0, hdone]
    · have hload := hl.load h0 (Nat.lt_of_not_le hdone)
      cases hv : unboxed ((heap s).words (p + firstField (h.words p))) with
      | false =>
        refine ⟨_, Nat.le_refl _, ?_, h0, fun _ => hv⟩
        simp [hl.isDone h0, hdone, hload, isValidPointer, hv]
      | true =>
        have hP₁ := hl.skip _ s ⟨Nat.le_refl _, by omega⟩ h0 hv
        obtain ⟨j, hj, hnext, hPj, hptr⟩ := hl.next type (heap s).fuel (fuel_pos _) (by omega)
          (by omega) hP₁
        refine ⟨j, by omega, ?_, hPj, hptr⟩
        simpa [hl.isDone h0, hdone, hload, isValidPointer, hv] using hnext
  obtain ⟨s', j, hj, hloop, hPj⟩ := hl.loop type (heap s).fuel (fuel_pos _) (by omega) hk hPk
    hptr
  exact ⟨s', j, hj, by rw [forPtrFields, hit]; exact hloop, hPj⟩

end Loop

/-! ### A heap of objects -/

/-- The objects of the heap are those at `objects`, one after another up to `heap.current`. -/
structure Objects (h : MemoryChunk) (objects : List ℕ) : Prop where
  tiles : Tiles (fun p => objectWords (h.words p)) 0 objects (h.current - h.begin)
  begin_le : h.begin ≤ h.current
  current_le : h.current ≤ h.end_
  span : h.end_ = h.begin + h.size
  fits : h.end_ < 2 ^ 30

/-- The word that points to the content of the object at `p`. -/
def contentWord (h : MemoryChunk) (p : ℕ) : Word := ptr (h.begin + p + headerSize)

/-- A word that is unboxed, outside the heap or the content address of an object. -/
def ValidWord (h : MemoryChunk) (objects : List ℕ) (v : Word) : Prop :=
  isValidHeapPointer h v = true → ∃ p ∈ objects, v = contentWord h p

theorem not_valid_zero {h : MemoryChunk} (hpos : 0 < h.begin) : isValidHeapPointer h 0 = false := by
  have hzero : (0 : Word).toNat = 0 := rfl
  rw [isValidHeapPointer, hzero]
  simp only [Bool.and_eq_false_iff, decide_eq_false_iff_not]
  omega

theorem not_valid_of_unboxed {h : MemoryChunk} {w : Word} (hu : unboxed w = true) :
    isValidHeapPointer h w = false := by
  rw [isValidHeapPointer, hu]
  rfl

/-- A heap between two collections. -/
structure WellFormed (h : MemoryChunk) (objects : List ℕ) : Prop extends Objects h objects where
  unmarked : ∀ p ∈ objects, getMarkBit (h.words (p + 1)) = false
  dequeued : ∀ p ∈ objects, isEnqueuedBit (h.words (p + 1)) = false
  fields : ∀ p ∈ objects, ∀ k, IsField h p k → ValidWord h objects (h.words k)

/-- A field of the object at `p` points to the object at `q`. -/
def PointsTo (h : MemoryChunk) (objects : List ℕ) (p q : ℕ) : Prop :=
  q ∈ objects ∧ ∃ k, IsField h p k ∧ h.words k = contentWord h q

theorem isValidHeapPointer_congr (hb : SameBounds h h') (v : Word) :
    isValidHeapPointer h' v = isValidHeapPointer h v := by
  rw [isValidHeapPointer, isValidHeapPointer, hb.begin, hb.current]

theorem unboxed_contentWord : unboxed (contentWord h p) = false := unboxed_ptr _

section Objects
variable {objects : List ℕ} {q : ℕ} (hs : Objects h objects)
include hs

theorem Objects.object (hp : p ∈ objects) : IsObject h p := by
  obtain ⟨-, hle, hpos⟩ := hs.tiles.bounds hp
  have := hs.begin_le
  have := hs.current_le
  exact ⟨hpos, by omega⟩

/-- Where an object ends. -/
theorem Objects.bounds (hp : p ∈ objects) : h.begin + p + objectWords (h.words p) ≤ h.current ∧
    2 ≤ objectWords (h.words p) := by
  have := (hs.tiles.bounds hp).2.1
  have := hs.begin_le
  exact ⟨by omega, (hs.object hp).two_le⟩

theorem Objects.content_lt (hp : p ∈ objects) : h.begin + p + headerSize < 2 ^ 30 := by
  have := hs.bounds hp
  have := hs.current_le
  have := hs.fits
  unfold headerSize
  omega

theorem Objects.contentWord_valid (hp : p ∈ objects) :
    isValidHeapPointer h (contentWord h p) = true := by
  have hlt := hs.content_lt hp
  have := hs.bounds hp
  rw [isValidHeapPointer, unboxed_contentWord, contentWord, ptr_toNat hlt]
  unfold headerSize at hlt ⊢
  simp only [Bool.not_false, Bool.true_and, Bool.and_eq_true, decide_eq_true_eq]
  omega

theorem Objects.contentWord_inj (hp : p ∈ objects) (hq : q ∈ objects)
    (heq : contentWord h p = contentWord h q) : p = q := by
  have := ptr_inj (hs.content_lt hp) (hs.content_lt hq) heq
  omega

theorem Objects.aligned (hp : p ∈ objects) :
    Lama.aligned (contentWord h p) = some (h.begin + p + headerSize) :=
  aligned_ptr (hs.content_lt hp)

/-- A header is not the forward-address word of an object. -/
theorem Objects.header_ne (hp : p ∈ objects) (hq : q ∈ objects) : p ≠ q + 1 := by
  rintro rfl
  have hle := hs.tiles.disjoint hq hp (Nat.lt_succ_self q)
  have := (hs.object hq).two_le
  omega

/-- A field is neither a header nor a forward-address word. -/
theorem Objects.field_ne (hp : p ∈ objects) (hf : IsField h p k) (hq : q ∈ objects) :
    k ≠ q ∧ k ≠ q + 1 := by
  have hfirst := two_le_firstField (hs.object hp).pos
  have hsize := (hs.object hq).two_le
  obtain ⟨hlo, hhi⟩ := hf
  -- otherwise the two objects share a word
  have apart : ∀ j, k = q + j → j < 2 → False := by
    rintro j rfl hj
    have := hs.tiles.eq_of_mem_block hp hq (n := q + j) ⟨by omega, by omega⟩
      ⟨by omega, by omega⟩
    omega
  exact ⟨fun heq => apart 0 heq (by omega), fun heq => apart 1 heq (by omega)⟩

/-- A word is a field of one object only. -/
theorem Objects.field_inj (hp : p ∈ objects) (hq : q ∈ objects) (hfp : IsField h p k)
    (hfq : IsField h q k) : p = q :=
  hs.tiles.eq_of_mem_block hp hq ⟨Nat.le_trans (Nat.le_add_right _ _) hfp.1, hfp.2⟩
    ⟨Nat.le_trans (Nat.le_add_right _ _) hfq.1, hfq.2⟩

/-- A word behind the header of an object is in no other object's header or fields. -/
theorem Objects.body (hp : p ∈ objects) (hlo : p + 2 ≤ k) (hhi : k < p + objectWords (h.words p))
    (hq : q ∈ objects) : k ≠ q + 1 ∧ (IsField h q k → q = p) := by
  have hsize := (hs.object hq).two_le
  constructor
  · intro heq
    have := hs.tiles.eq_of_mem_block hp hq (n := k) ⟨by omega, hhi⟩ ⟨by omega, by omega⟩
    omega
  · intro hf
    exact hs.tiles.eq_of_mem_block hq hp ⟨Nat.le_trans (Nat.le_add_right _ _) hf.1, hf.2⟩
      ⟨by omega, hhi⟩

/-- The objects stay when the headers and the bounds do. -/
theorem Objects.congr (hb : SameBounds h h') (hw : ∀ p ∈ objects, h'.words p = h.words p) :
    Objects h' objects where
  tiles := by
    rw [hb.begin, hb.current]
    exact hs.tiles.congr fun p hp => by simp only [hw p hp]
  begin_le := by rw [hb.begin, hb.current]; exact hs.begin_le
  current_le := by rw [hb.current, hb.end_]; exact hs.current_le
  span := by rw [hb.begin, hb.end_, hb.size]; exact hs.span
  fits := by rw [hb.end_]; exact hs.fits

end Objects

end Lama

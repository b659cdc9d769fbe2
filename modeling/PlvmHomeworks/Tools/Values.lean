import PlvmHomeworks.Runtime.Layout
import PlvmHomeworks.Tools.Machine

/-! Lama values: integers, and the addresses of the contents of objects.

    What the runtime's readers find in the heap when it is laid out as it should be and has no word in
    common with the virtual stack. -/

namespace Lama
open Outcome

/-- No word of the heap is one of `__vstack`. -/
def Image.Apart (im : Image) (h : MemoryChunk) : Prop := ∀ a, h.begin ≤ a → a < h.end_ → ¬ im.inStack a

/-- The heap is where the system may put it. -/
structure HeapPlaced (im : Image) (h : MemoryChunk) : Prop where
  apart : im.Apart h
  fits : h.end_ < 2 ^ 30

/-- A heap above the virtual stack is apart from it. -/
theorem Image.apart_of {im : Image} {h : MemoryChunk} (hb : im.bottom ≤ h.begin) : im.Apart h := by
  intro a hlo _ hin
  exact absurd (Nat.lt_of_lt_of_le hin.2 hb) (Nat.not_lt.mpr hlo)

/-- The type of the object at `p`. -/
def typeAt (h : MemoryChunk) (p : ℕ) : Option LamaType := LamaType.ofTag (tagOf (h.words p))

/-- Word `i` of the contents of the object at `p`. -/
def contentAt (h : MemoryChunk) (p i : ℕ) : Word := h.words (p + headerSize + i)

/-- Character `i` of the string at `p`; the one after the last is its NUL. -/
def charAt (h : MemoryChunk) (p i : ℕ) : Word := byteOf (contentAt h p (i / 4)) (i % 4)

/-- The characters of the string at `p`. -/
def chars (h : MemoryChunk) (p : ℕ) : List Word := (List.range (lenOf (h.words p))).map (charAt h p)

/-- The string at `p` as `strcmp` sees it. -/
def beforeNul (h : MemoryChunk) (p : ℕ) : List Word := (chars h p).takeWhile (· ≠ 0)

/-- The strings of the heap end with a NUL. -/
def Terminated (h : MemoryChunk) (objects : List ℕ) : Prop :=
  ∀ p ∈ objects, typeAt h p = some .string → charAt h p (lenOf (h.words p)) = 0

/-- A Lama value, with the type of its object if it has one. -/
inductive IsValue (h : MemoryChunk) (objects : List ℕ) : Word → Option LamaType → Prop
  | int {v : Word} : unboxed v = true → IsValue h objects v none
  | object {p : ℕ} {type : LamaType} : p ∈ objects → typeAt h p = some type →
      IsValue h objects (contentWord h p) (some type)

theorem box_boolWord_inj {a b : Bool} (h : box (boolWord a) = box (boolWord b)) : a = b := by
  cases a <;> cases b <;> first | rfl | exact absurd h (by decide)

/-! ### Reading the heap -/

section Read
variable {im : Image} {s : State} {objects : List ℕ} {p i : ℕ}

theorem loadWord_heap (hap : im.Apart s.mem.heap) {k : ℕ}
    (hk : s.mem.heap.begin + k < s.mem.heap.end_) :
    loadWord im s (s.mem.heap.begin + k) = .ok (s.mem.heap.words k) := by
  rw [loadWord, if_neg (hap _ (Nat.le_add_right _ _) hk), load_add hk]
  rfl

section Object
variable (hh : HeapPlaced im s.mem.heap) (ho : IsObject s.mem.heap p)
include hh ho

theorem derefPtr_content :
    derefPtr (contentWord s.mem.heap p) = .ok (s.mem.heap.begin + p + headerSize) := by
  have hend := ho.inside
  have htwo := ho.two_le
  have hfits := hh.fits
  rw [derefPtr, contentWord, aligned_ptr (by unfold headerSize; omega)]
  rfl

theorem dataHeader_content : dataHeader im s (contentWord s.mem.heap p) = .ok (s.mem.heap.words p) := by
  have hend := ho.inside
  have htwo := ho.two_le
  have hfits := hh.fits
  have haddr : ptrAdd (s.mem.heap.begin + p + headerSize) (-2) = s.mem.heap.begin + p := by
    unfold ptrAdd headerSize at *
    omega
  rw [dataHeader, derefPtr_content hh ho, ok_bind, haddr, loadWord_heap hh.apart (by omega)]

theorem tagWord_content : tagWord im s (contentWord s.mem.heap p) = .ok (tagOf (s.mem.heap.words p)) := by
  rw [tagWord, dataHeader_content hh ho]
  rfl

/-- The address of a word of the contents. -/
theorem ptrAdd_content (hi : headerSize + i < objectWords (s.mem.heap.words p)) :
    ptrAdd (s.mem.heap.begin + p + headerSize) i = s.mem.heap.begin + (p + headerSize + i) := by
  have hend := ho.inside
  have hfits := hh.fits
  unfold ptrAdd
  omega

/-- A word of the contents. -/
theorem loadWord_content (hi : headerSize + i < objectWords (s.mem.heap.words p)) :
    loadWord im s (ptrAdd (s.mem.heap.begin + p + headerSize) i) = .ok (contentAt s.mem.heap p i) := by
  have hend := ho.inside
  rw [ptrAdd_content hh ho hi, loadWord_heap hh.apart (by omega)]
  rfl

/-- A character of a string, or its NUL. -/
theorem loadByte_string (htype : typeAt s.mem.heap p = some .string)
    (hi : i ≤ lenOf (s.mem.heap.words p)) :
    loadByte im s (s.mem.heap.begin + p + headerSize) i = .ok (charAt s.mem.heap p i) := by
  obtain ⟨type, ht, hbytes, -, -, hle, -⟩ := objectWords_spec ho.pos
  obtain rfl : LamaType.string = type := Option.some.inj (htype.symm.trans ht)
  rw [hbytes] at hle
  have hroom : headerSize + i / 4 < objectWords (s.mem.heap.words p) := by
    simp only [objBytes, headerSize] at *
    omega
  have hword : (i : ℤ) / 4 = (i / 4 : ℕ) := by omega
  have hbyte : ((i : ℤ) % 4).toNat = i % 4 := by omega
  rw [loadByte, hword, loadWord_content hh ho hroom, ok_bind, hbyte]
  rfl

end Object

/-- What `strcmp` reads of a string. -/
theorem heapString_string (hap : im.Apart s.mem.heap) (hs : Objects s.mem.heap objects)
    (hp : p ∈ objects) (hterm : Terminated s.mem.heap objects)
    (htype : typeAt s.mem.heap p = some .string) :
    heapString im s (s.mem.heap.begin + p + headerSize) (2 ^ 32) 0 = .ok (beforeNul s.mem.heap p) := by
  have hlen := lenOf_lt (s.mem.heap.words p)
  -- from character `i` on, the rest of the string
  have rest : ∀ (k fuel i : ℕ), k < fuel → i + k = lenOf (s.mem.heap.words p) →
      heapString im s (s.mem.heap.begin + p + headerSize) fuel i =
        .ok (((List.range' i k).map (charAt s.mem.heap p)).takeWhile (· ≠ 0)) := by
    intro k
    induction k with
    | zero =>
      intro fuel i hfuel hi
      obtain ⟨fuel, rfl⟩ := Nat.exists_eq_succ_of_ne_zero (Nat.ne_of_gt hfuel)
      have hnul : charAt s.mem.heap p i = 0 := by
        rw [show i = lenOf (s.mem.heap.words p) by omega]
        exact hterm p hp htype
      rw [heapString, loadByte_string ⟨hap, hs.fits⟩ (hs.object hp) htype (by omega), ok_bind, if_pos hnul]
      rfl
    | succ k ih =>
      intro fuel i hfuel hi
      obtain ⟨fuel, rfl⟩ := Nat.exists_eq_succ_of_ne_zero (Nat.ne_of_gt (Nat.zero_lt_of_lt hfuel))
      rw [heapString, loadByte_string ⟨hap, hs.fits⟩ (hs.object hp) htype (by omega), ok_bind,
        List.range'_succ,
        List.map_cons]
      by_cases hnul : charAt s.mem.heap p i = 0
      · rw [if_pos hnul, List.takeWhile_cons_of_neg (by simpa using hnul)]
        rfl
      · rw [if_neg hnul, ih fuel (i + 1) (by omega) (by omega),
          List.takeWhile_cons_of_pos (by simpa using hnul)]
        rfl
  rw [rest _ _ 0 (by omega) (Nat.zero_add _), beforeNul, chars, List.range_eq_range']

end Read

end Lama

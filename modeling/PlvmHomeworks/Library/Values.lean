import PlvmHomeworks.Lib.Unfolding
import PlvmHomeworks.Tools.Values

/-! Lama values as they are seen in a heap.

    A word of the program is a vertex: an integer, a pointer out of the heap, a string, or an object
    with its fields. Its value is what it unfolds to, so that words of two heaps can have the same
    value, and a cyclic structure has one. -/

namespace Lama
open Unfolding

/-- An integer, a pointer out of the heap, the characters of a string; the type of an object, with the
    entry of a closure or the tag of an S-expression. -/
inductive Label where
  | int (v : Word)
  | foreign (p : Word)
  | string (characters : List Word)
  | object (type : LamaType) (head : Word)
  deriving DecidableEq

/-- The offset of the header of the object with the content address `v`. -/
def contentOffset (h : MemoryChunk) (v : Word) : ℕ := v.toNat / 4 - (h.begin + headerSize)

/-- The fields of the object at `p`, in order. -/
def fieldWords (h : MemoryChunk) (p : ℕ) : List Word :=
  (List.range (objectWords (h.words p) - firstField (h.words p))).map fun j =>
    h.words (p + (firstField (h.words p) + j))

/-- The label of the object at `p`. -/
def labelAt (h : MemoryChunk) (p : ℕ) : Label :=
  match typeAt h p with
  | some .string => .string (chars h p)
  | some .closure => .object .closure (contentAt h p 0)
  | some .sexp => .object .sexp (contentAt h p 0)
  | some .array | none => .object .array 0

/-- The words of a program, with the heap behind them. -/
def valueView (h : MemoryChunk) : View Word Label := fun v =>
  if unboxed v then (.int v, [])
  else if isValidHeapPointer h v then
    (labelAt h (contentOffset h v), fieldWords h (contentOffset h v))
  else (.foreign v, [])

/-- The word `v` of the heap `h` and the word `v'` of the heap `h'` have the same value. -/
def SameValue (h h' : MemoryChunk) (v v' : Word) : Prop := Same (valueView h) (valueView h') v v'

variable {h h' : MemoryChunk} {objects : List ℕ} {p : ℕ} {v w : Word}

theorem valueView_int (hv : unboxed v = true) : valueView h v = (.int v, []) := if_pos hv

theorem valueView_foreign (hu : unboxed v = false) (hv : isValidHeapPointer h v = false) :
    valueView h v = (.foreign v, []) := by
  rw [valueView, if_neg (by simp [hu]), if_neg (by simp [hv])]

/-! ### Words that can be read -/

/-- The object at `p` can be read by the runtime: it lies in the heap, a closure has an entry and a
    string ends with a NUL. -/
structure ReadableObject (h : MemoryChunk) (p : ℕ) : Prop where
  object : IsObject h p
  below : h.begin + p + headerSize ≤ h.current
  span : h.end_ = h.begin + h.size
  fits : h.end_ < 2 ^ 30
  entry : typeAt h p = some .closure → 0 < lenOf (h.words p)
  terminated : typeAt h p = some .string → charAt h p (lenOf (h.words p)) = 0

/-- A word of `S` is an integer, a pointer out of the heap, or a pointer to an object. -/
inductive ReadableWord (h : MemoryChunk) (S : Set Word) : Word → Prop
  | int {v : Word} : unboxed v = true → ReadableWord h S v
  | foreign {v : Word} : unboxed v = false → isValidHeapPointer h v = false → ReadableWord h S v
  | object {p : ℕ} : ReadableObject h p → (∀ w ∈ fieldWords h p, w ∈ S) →
      ReadableWord h S (contentWord h p)

/-- The words of `S` can be read, and all that they lead to. -/
def Readable (h : MemoryChunk) (S : Set Word) : Prop := ∀ v ∈ S, ReadableWord h S v

section Object
variable (ho : ReadableObject h p)
include ho

theorem ReadableObject.content_lt : h.begin + p + headerSize < 2 ^ 30 := by
  have := ho.object.inside
  have := ho.object.two_le
  have := ho.fits
  unfold headerSize
  omega

theorem ReadableObject.valid : isValidHeapPointer h (contentWord h p) = true := by
  have hlt := ho.content_lt
  have hle := ho.below
  rw [isValidHeapPointer, unboxed_contentWord, contentWord, ptr_toNat hlt]
  simp only [Bool.not_false, Bool.true_and, Bool.and_eq_true, decide_eq_true_eq]
  omega

theorem ReadableObject.contentOffset : contentOffset h (contentWord h p) = p := by
  rw [Lama.contentOffset, contentWord, ptr_toNat ho.content_lt]
  omega

theorem ReadableObject.view : valueView h (contentWord h p) = (labelAt h p, fieldWords h p) := by
  rw [valueView, if_neg (by simp [unboxed_contentWord]), if_pos ho.valid, ho.contentOffset]

theorem ReadableObject.aligned : Lama.aligned (contentWord h p) = some (h.begin + p + headerSize) :=
  aligned_ptr ho.content_lt

/-- Word `i` of the contents. -/
theorem ReadableObject.load {i : ℕ} (hi : headerSize + i < objectWords (h.words p)) :
    h.load (ptrAdd (h.begin + p + headerSize) i) = some (contentAt h p i) := by
  have hend := ho.object.inside
  have hfits := ho.fits
  have haddr : ptrAdd (h.begin + p + headerSize) i = h.begin + (p + headerSize + i) := by
    unfold ptrAdd
    omega
  rw [haddr, load_add (by omega)]
  rfl

/-- The header, from the address of the contents. -/
theorem ReadableObject.load_header :
    h.load (ptrAdd (h.begin + p + headerSize) (-2)) = some (h.words p) := by
  have hlt := ho.content_lt
  have haddr : ptrAdd (h.begin + p + headerSize) (-2) = h.begin + p := by
    unfold ptrAdd headerSize at *
    omega
  rw [haddr, ho.object.load_header]

end Object

/-- What can be read leads to what can be read. -/
theorem Readable.fields {S : Set Word} (hS : Readable h S) (hv : v ∈ S) :
    ∀ w ∈ (valueView h v).2, w ∈ S := by
  intro w hw
  cases hS v hv with
  | int hu =>
    rw [valueView_int hu] at hw
    cases hw
  | foreign hu hf =>
    rw [valueView_foreign hu hf] at hw
    cases hw
  | object ho hfields =>
    rw [ho.view] at hw
    exact hfields w hw

/-! ### Strings -/

/-- The characters of the object with the content address `a` up to the first NUL, from character `i`
    on. -/
def cStringAt (h : MemoryChunk) (a : ℕ) : ℕ → ℕ → Option (List Word)
  | 0, _ => none
  | fuel + 1, i => do
    let c := byteOf (← h.load (ptrAdd a (i / 4 : ℕ))) (i % 4)
    if c = 0 then return []
    return c :: (← cStringAt h a fuel (i + 1))

/-- The C string that starts at `a`. -/
def cStringOf (h : MemoryChunk) (a : ℕ) : Option (List Word) := cStringAt h a (4 * h.fuel) 0

theorem ReadableObject.load_char (ho : ReadableObject h p) (htype : typeAt h p = some .string) {i : ℕ}
    (hi : i ≤ lenOf (h.words p)) :
    h.load (ptrAdd (h.begin + p + headerSize) (i / 4 : ℕ)) = some (contentAt h p (i / 4)) := by
  obtain ⟨type, ht, hbytes, -, -, hle, -⟩ := objectWords_spec ho.object.pos
  obtain rfl : LamaType.string = type := Option.some.inj (htype.symm.trans ht)
  rw [hbytes] at hle
  refine ho.load ?_
  simp only [objBytes, headerSize] at *
  omega

/-- The string at `p` is read up to its first NUL. -/
theorem ReadableObject.cStringOf (ho : ReadableObject h p) (htype : typeAt h p = some .string) :
    Lama.cStringOf h (h.begin + p + headerSize) = some (beforeNul h p) := by
  have hnul := ho.terminated htype
  -- from character `i` on, the rest of the string
  have rest : ∀ (k fuel i : ℕ), k < fuel → i + k = lenOf (h.words p) →
      cStringAt h (h.begin + p + headerSize) fuel i =
        some (((List.range' i k).map (charAt h p)).takeWhile (· ≠ 0)) := by
    intro k
    induction k with
    | zero =>
      intro fuel i hfuel hi
      obtain ⟨fuel, rfl⟩ := Nat.exists_eq_succ_of_ne_zero (Nat.ne_of_gt hfuel)
      have hzero : byteOf (contentAt h p (i / 4)) (i % 4) = 0 := by
        rw [← hnul, ← hi]
        rfl
      rw [cStringAt, ho.load_char htype (by omega)]
      simp only [Option.bind_eq_bind, Option.bind_some, hzero, if_true]
      rfl
    | succ k ih =>
      intro fuel i hfuel hi
      obtain ⟨fuel, rfl⟩ := Nat.exists_eq_succ_of_ne_zero (Nat.ne_of_gt (Nat.zero_lt_of_lt hfuel))
      rw [cStringAt, ho.load_char htype (by omega), List.range'_succ, List.map_cons]
      simp only [Option.bind_eq_bind, Option.bind_some,
        show byteOf (contentAt h p (i / 4)) (i % 4) = charAt h p i from rfl]
      by_cases hzero : charAt h p i = 0
      · rw [if_pos hzero, List.takeWhile_cons_of_neg (by simpa using hzero)]
        rfl
      · rw [if_neg hzero, ih fuel (i + 1) (by omega) (by omega),
          List.takeWhile_cons_of_pos (by simpa using hzero)]
        rfl
  have hlen : lenOf (h.words p) < 4 * h.fuel := by
    obtain ⟨type, ht, hbytes, -, -, hle, -⟩ := objectWords_spec ho.object.pos
    obtain rfl : LamaType.string = type := Option.some.inj (htype.symm.trans ht)
    have hend := ho.object.inside
    have hspan := ho.span
    simp only [hbytes, objBytes] at hle
    unfold MemoryChunk.fuel
    omega
  rw [Lama.cStringOf, rest _ _ 0 hlen (Nat.zero_add _), beforeNul, chars, List.range_eq_range']

/-! ### Aggregates -/

/-- Where the fields of an object start in its contents, and how many there are. -/
def LamaType.firstIndex : LamaType → ℕ
  | .array => 0
  | _ => 1

def LamaType.fieldCount (len : ℕ) : LamaType → ℕ
  | .closure => len - 1
  | .string => 0
  | _ => len

/-- An aggregate is its header, its head and its fields. -/
theorem ReadableObject.shape (ho : ReadableObject h p) {type : LamaType} (ht : typeAt h p = some type)
    (hne : type ≠ .string) :
    firstField (h.words p) = headerSize + type.firstIndex ∧
      objectWords (h.words p) = headerSize + type.firstIndex + type.fieldCount (lenOf (h.words p)) := by
  obtain ⟨type', ht', hbytes, hwords, -⟩ := objectWords_spec ho.object.pos
  obtain rfl : type = type' := Option.some.inj (ht.symm.trans ht')
  have hlen := lenOf_lt (h.words p)
  have hentry := ho.entry
  rw [hwords, hbytes]
  cases type with
  | string => exact absurd rfl hne
  | array =>
    refine ⟨by simp only [firstField, ht']; rfl, ?_⟩
    rw [objBytes, bytesToWords_eq (by omega) (by omega)]
    simp only [headerSize, LamaType.firstIndex, LamaType.fieldCount]
    omega
  | sexp =>
    refine ⟨by simp only [firstField, ht']; rfl, ?_⟩
    rw [objBytes, bytesToWords_eq (by omega) (by omega)]
    simp only [headerSize, LamaType.firstIndex, LamaType.fieldCount]
    omega
  | closure =>
    have hpos := hentry ht
    refine ⟨by simp only [firstField, ht']; rfl, ?_⟩
    rw [objBytes, bytesToWords_eq (by omega) (by omega)]
    simp only [headerSize, LamaType.firstIndex, LamaType.fieldCount]
    omega

/-- The entry of a closure, the tag of an S-expression. -/
theorem ReadableObject.load_head (ho : ReadableObject h p) {type : LamaType}
    (ht : typeAt h p = some type) (hfirst : type.firstIndex = 1) (hne : type ≠ .string) :
    h.load (ptrAdd (h.begin + p + headerSize) (0 : ℕ)) = some (contentAt h p 0) := by
  obtain ⟨-, hwords⟩ := ho.shape ht hne
  exact ho.load (by omega)

/-- The fields are words of the contents. -/
theorem ReadableObject.fieldWords (ho : ReadableObject h p) {type : LamaType}
    (ht : typeAt h p = some type) (hne : type ≠ .string) : Lama.fieldWords h p =
      (List.range' type.firstIndex (type.fieldCount (lenOf (h.words p)))).map (contentAt h p) := by
  obtain ⟨hfirst, hwords⟩ := ho.shape ht hne
  rw [Lama.fieldWords, hfirst, hwords, Nat.add_sub_cancel_left, List.range'_eq_map_range, List.map_map]
  refine List.map_congr_left fun j _ => ?_
  rw [Function.comp_apply, contentAt]
  congr 1
  omega

/-- A string has no fields. -/
theorem fieldWords_string (ht : typeAt h p = some .string) : fieldWords h p = [] := by
  have hfirst : firstField (h.words p) = objectWords (h.words p) := by
    simp only [firstField, show LamaType.ofTag (tagOf (h.words p)) = some .string from ht]
  rw [fieldWords, hfirst, Nat.sub_self]
  rfl

theorem ReadableObject.fieldWords_length (ho : ReadableObject h p) {type : LamaType}
    (ht : typeAt h p = some type) (hne : type ≠ .string) :
    (Lama.fieldWords h p).length = type.fieldCount (lenOf (h.words p)) := by
  rw [ho.fieldWords ht hne, List.length_map, List.length_range']

theorem WellFormed.readableObject (hwf : WellFormed h objects) (hp : p ∈ objects)
    (hentry : typeAt h p = some .closure → 0 < lenOf (h.words p))
    (hterm : typeAt h p = some .string → charAt h p (lenOf (h.words p)) = 0) : ReadableObject h p := by
  have hbounds := hwf.bounds hp
  refine ⟨hwf.object hp, ?_, hwf.span, hwf.fits, hentry, hterm⟩
  unfold headerSize
  omega

/-- What a heap between two collections holds can be read. -/
theorem WellFormed.readable (hwf : WellFormed h objects)
    (hentry : ∀ p ∈ objects, typeAt h p = some .closure → 0 < lenOf (h.words p))
    (hterm : Terminated h objects) : Readable h {v | ValidWord h objects v} := by
  intro v hv
  cases hu : unboxed v with
  | true => exact .int hu
  | false =>
    cases hvalid : isValidHeapPointer h v with
    | false => exact .foreign hu hvalid
    | true =>
      obtain ⟨p, hp, rfl⟩ := hv hvalid
      refine .object (hwf.readableObject hp (hentry p hp) (hterm p hp)) fun w hw => ?_
      obtain ⟨j, hj, rfl⟩ := List.mem_map.mp hw
      have hlt := List.mem_range.mp hj
      exact hwf.fields p hp _ ⟨by omega, by omega⟩

/-- Two S-expressions with the same fields: an integer, and one string. -/
def sharingHeap : MemoryChunk where
  begin := 16
  end_ := 32
  current := 29
  size := 16
  words k := [17, 0, 0x6261, 21, 0, 7, 3, ptr 18, 21, 0, 7, 3, ptr 18].getD k 0

theorem sharingHeap_wellFormed : WellFormed sharingHeap [0, 3, 8] where
  tiles := ⟨rfl, by decide, rfl, by decide, rfl, by decide, rfl⟩
  begin_le := by decide
  current_le := by decide
  span := by decide
  fits := by decide
  unmarked := by decide
  dequeued := by decide
  fields := by
    have hfield : ∀ p ∈ [0, 3, 8], ∀ k ∈ List.range' (p + firstField (sharingHeap.words p))
        (objectWords (sharingHeap.words p) - firstField (sharingHeap.words p)),
        isValidHeapPointer sharingHeap (sharingHeap.words k) →
          ∃ q ∈ [0, 3, 8], sharingHeap.words k = contentWord sharingHeap q := by decide
    intro p hp k ⟨hlo, hhi⟩ hvalid
    refine hfield p hp k (List.mem_range'_1.mpr ⟨hlo, ?_⟩) hvalid
    omega

/-- The words of a program that holds both. -/
def sharingWords : Set Word := {v | v ∈ [3, ptr 18, ptr 21, ptr 26]}

theorem mem_sharingWords {v : Word} :
    v ∈ sharingWords ↔ v = 3 ∨ v = ptr 18 ∨ v = ptr 21 ∨ v = ptr 26 := by
  simp [sharingWords]

theorem sharingWords_readable : Readable sharingHeap sharingWords := by
  have hentry : ∀ p ∈ [0, 3, 8], typeAt sharingHeap p = some .closure →
      0 < lenOf (sharingHeap.words p) := by decide
  have hterm : ∀ p ∈ [0, 3, 8], typeAt sharingHeap p = some .string →
      charAt sharingHeap p (lenOf (sharingHeap.words p)) = 0 := by decide
  have hfields : ∀ p ∈ [0, 3, 8], fieldWords sharingHeap p = if p = 0 then [] else [3, ptr 18] := by
    decide
  have hobject : ∀ p ∈ [0, 3, 8], ReadableWord sharingHeap sharingWords (contentWord sharingHeap p) :=
    fun p hp => .object (sharingHeap_wellFormed.readableObject hp (hentry p hp) (hterm p hp))
      fun w hw => by
        rw [hfields p hp] at hw
        split at hw
        · cases hw
        · simp only [List.mem_cons, List.not_mem_nil, or_false] at hw
          rcases hw with rfl | rfl
          · exact List.mem_cons_self
          · exact List.mem_cons_of_mem _ List.mem_cons_self
  intro v hv
  rcases mem_sharingWords.mp hv with rfl | rfl | rfl | rfl
  · exact .int (by decide)
  · exact hobject 0 (by decide)
  · exact hobject 3 (by decide)
  · exact hobject 8 (by decide)

/-! ### Words and their bytes -/

/-- A word is its four bytes. -/
theorem word_eq_of_bytes {x y : Word}
    (hb : ∀ i, i < 4 → x.toNat / 256 ^ i % 256 = y.toNat / 256 ^ i % 256) : x = y := by
  have hx := x.isLt
  have hy := y.isLt
  have h0 := hb 0 (by decide)
  have h1 := hb 1 (by decide)
  have h2 := hb 2 (by decide)
  have h3 := hb 3 (by decide)
  refine BitVec.eq_of_toNat_eq ?_
  simp only [pow_zero, Nat.div_one, pow_one] at h0 h1 h2 h3
  omega

theorem byteOf_toNat (w : Word) (i : ℕ) : (byteOf w i).toNat = w.toNat / 256 ^ i % 256 := by
  rw [byteOf, BitVec.toNat_and, BitVec.toNat_ushiftRight, Nat.shiftRight_eq_div_pow,
    show (0xFF : Word).toNat = 2 ^ 8 - 1 from rfl, Nat.and_two_pow_sub_one_eq_mod, pow_mul,
    show (2 : ℕ) ^ 8 = 256 from rfl]

end Lama

import PlvmHomeworks.Tools.Decode
import PlvmHomeworks.Tools.Values

/-! Aggregates as tuples: how an S-expression, an array and a closure lie in the heap, and what the
    runtime's readers and `Bsta` make of them.

    The contents of an S-expression start with its tag and those of a closure with its entry, so that
    component `i` is word `i + 1` there, and word `i` of an array. -/

namespace Lama
open Outcome

/-- A tuple: the components, with the word of `LtagHash` for its tag or with the code it enters. -/
inductive Aggregate where
  | sexp (hash : Word) (fields : List Word)
  | array (fields : List Word)
  | closure (entry : ℤ) (fields : List Word)

def Aggregate.fields : Aggregate → List Word
  | .sexp _ fields => fields
  | .array fields => fields
  | .closure _ fields => fields

def Aggregate.type : Aggregate → LamaType
  | .sexp _ _ => .sexp
  | .array _ => .array
  | .closure _ _ => .closure

/-- The words of the contents. -/
def Aggregate.contents : Aggregate → List Word
  | .sexp hash fields => unbox hash :: fields
  | .array fields => fields
  | .closure entry fields => BitVec.ofInt 32 entry :: fields

/-- Where the components start in the contents. -/
def Aggregate.first : Aggregate → ℕ
  | .array _ => 0
  | _ => 1

/-- `len` in the header; the entry of a closure counts. -/
def Aggregate.len : Aggregate → ℕ
  | .closure _ fields => fields.length + 1
  | A => A.fields.length

def Aggregate.header (A : Aggregate) : Word := A.type.tag ||| BitVec.ofInt 32 A.len <<< 3

/-- The aggregate with other components. -/
def Aggregate.withFields (fields : List Word) : Aggregate → Aggregate
  | .sexp hash _ => .sexp hash fields
  | .array _ => .array fields
  | .closure entry _ => .closure entry fields

/-- The aggregate after its components have moved. -/
def Aggregate.map (move : Word → Word) (A : Aggregate) : Aggregate := A.withFields (A.fields.map move)

/-- The aggregate with one component replaced. -/
def Aggregate.set (i : ℕ) (v : Word) (A : Aggregate) : Aggregate := A.withFields (A.fields.set i v)

/-- `LtagHash` answers with a boxed word, and an entry is an `int`. -/
def Aggregate.Proper : Aggregate → Prop
  | .sexp hash _ => unboxed hash = true
  | .array _ => True
  | .closure entry _ => IsInt entry

/-- The answer `TAG t m` should give, `hash` being that of `t`. -/
def Aggregate.isSexp (hash : Word) (m : ℕ) : Aggregate → Bool
  | .sexp hash' fields => hash' == hash && fields.length == m
  | _ => false

/-- The answer `ARRAY m` should give. -/
def Aggregate.isArray (m : ℕ) : Aggregate → Bool
  | .array fields => fields.length == m
  | _ => false

/-! ### Contents and headers -/

section
variable (A : Aggregate) (fields : List Word)

@[simp] theorem Aggregate.withFields_fields : (A.withFields fields).fields = fields := by
  cases A <;> rfl

@[simp] theorem Aggregate.withFields_type : (A.withFields fields).type = A.type := by
  cases A <;> rfl

@[simp] theorem Aggregate.withFields_first : (A.withFields fields).first = A.first := by
  cases A <;> rfl

@[simp] theorem Aggregate.withFields_proper : (A.withFields fields).Proper ↔ A.Proper := by
  cases A <;> exact Iff.rfl

theorem Aggregate.contents_length : A.contents.length = A.first + A.fields.length := by
  cases A <;> simp [Aggregate.contents, Aggregate.first, Aggregate.fields, Nat.add_comm]

theorem Aggregate.contents_le : A.contents.length ≤ A.len + 1 := by
  cases A <;> simp [Aggregate.contents, Aggregate.len, Aggregate.fields]

theorem Aggregate.len_le : A.len ≤ A.fields.length + 1 := by
  cases A <;> simp [Aggregate.len, Aggregate.fields]

theorem Aggregate.fields_le : A.fields.length ≤ A.len := by
  cases A <;> simp [Aggregate.len, Aggregate.fields]

theorem Aggregate.withFields_len (h : fields.length = A.fields.length) :
    (A.withFields fields).len = A.len := by
  cases A <;> simpa [Aggregate.len, Aggregate.withFields, Aggregate.fields] using h

theorem Aggregate.contents_get (i : ℕ) : A.contents[A.first + i]? = A.fields[i]? := by
  cases A <;> simp [Aggregate.contents, Aggregate.first, Aggregate.fields, Nat.add_comm]

/-- Replacing a component replaces one word of the contents. -/
theorem Aggregate.set_contents (i : ℕ) (v : Word) :
    (A.set i v).contents = A.contents.set (A.first + i) v := by
  cases A <;> simp [Aggregate.set, Aggregate.withFields, Aggregate.contents, Aggregate.first,
    Aggregate.fields, Nat.add_comm 1 i]

end

variable {A : Aggregate}

theorem Aggregate.header_eq (A : Aggregate) : A.header = headerWord A.type A.len := by
  rw [Aggregate.header, headerWord, BitVec.ofInt_natCast]

theorem Aggregate.header_len (hlen : A.len < 2 ^ 29) : lenOf A.header = A.len := by
  rw [A.header_eq, headerWord_len hlen]

theorem Aggregate.header_tag (hlen : A.len < 2 ^ 29) : tagOf A.header = A.type.tag := by
  rw [A.header_eq, headerWord_tag hlen]

/-- An aggregate takes its header and its contents. -/
theorem Aggregate.header_words (hlen : A.len < 2 ^ 29) :
    objectWords A.header = headerSize + A.contents.length := by
  have hbytes : objBytes A.type A.len = 8 + 4 * A.contents.length := by
    cases A <;> simp only [Aggregate.type, Aggregate.len, Aggregate.contents, Aggregate.fields,
      objBytes, List.length_cons]
  have hle := A.contents_le
  rw [objectWords, A.header_tag hlen, ofTag_eq_some_iff.mpr rfl, A.header_len hlen]
  simp only
  rw [hbytes, bytesToWords_eq (by omega) (by omega), headerSize]
  omega

/-! ### Aggregates in the heap -/

/-- The object at `p` is the aggregate `A`. -/
structure Represents (h : MemoryChunk) (p : ℕ) (A : Aggregate) : Prop where
  proper : A.Proper
  len_lt : A.len < 2 ^ 29
  header : h.words p = A.header
  contents : ∀ i w, A.contents[i]? = some w → contentAt h p i = w
  inside : h.begin + p + headerSize + A.contents.length ≤ h.end_

section Represents
variable {h : MemoryChunk} {p : ℕ} (hr : Represents h p A)
include hr

theorem Represents.words : objectWords (h.words p) = headerSize + A.contents.length := by
  rw [hr.header, A.header_words hr.len_lt]

theorem Represents.object : IsObject h p := by
  have hend := hr.inside
  refine ⟨?_, ?_⟩
  · rw [hr.words, headerSize]
    omega
  · rw [hr.words]
    omega

theorem Represents.tag : tagOf (h.words p) = A.type.tag := by rw [hr.header, A.header_tag hr.len_lt]

theorem Represents.lenOf : Lama.lenOf (h.words p) = A.len := by rw [hr.header, A.header_len hr.len_lt]

/-- Component `i`. -/
theorem Represents.field {i : ℕ} {w : Word} (hi : A.fields[i]? = some w) :
    contentAt h p (A.first + i) = w ∧ headerSize + (A.first + i) < objectWords (h.words p) := by
  have hlt := (List.getElem?_eq_some_iff.mp hi).1
  have hlen := A.contents_length
  refine ⟨hr.contents _ _ (by rw [A.contents_get, hi]), ?_⟩
  rw [hr.words]
  omega

/-- An index of a component is small enough to be boxed. -/
theorem Represents.index_lt {i : ℕ} (hi : i < A.fields.length) : i < 2 ^ 29 := by
  have := hr.len_lt
  have := A.fields_le
  omega

/-- A store into component `i` changes that component. -/
theorem Represents.set {i : ℕ} (v : Word) (hi : i < A.fields.length) :
    Represents (h.setWord (p + headerSize + (A.first + i)) v) p (A.set i v) := by
  have hlen : (A.set i v).len = A.len := A.withFields_len _ (List.length_set ..)
  have htype : (A.set i v).type = A.type := A.withFields_type _
  refine ⟨(A.withFields_proper _).mpr hr.proper, by rw [hlen]; exact hr.len_lt, ?_, ?_, ?_⟩
  · rw [Aggregate.header, hlen, htype]
    refine (if_neg ?_).trans hr.header
    unfold headerSize
    omega
  · intro j w hj
    rw [A.set_contents] at hj
    by_cases hji : A.first + i = j
    · subst hji
      have hlt : A.first + i < A.contents.length := by
        rw [A.contents_length]
        omega
      rw [List.getElem?_set_self hlt, Option.some.injEq] at hj
      rw [← hj]
      exact if_pos rfl
    · rw [List.getElem?_set_ne hji] at hj
      rw [← hr.contents j w hj]
      refine if_neg ?_
      omega
  · rw [A.set_contents, List.length_set]
    exact hr.inside

end Represents

/-! ### The readers of the runtime -/

theorem unbox_box_natCast {i : ℕ} (hi : i < 2 ^ 30) :
    (unbox (box (BitVec.ofNat 32 i))).toInt = i := by
  rw [unbox_box, BitVec.toInt_ofNat']
  simp only [Int.bmod_def]
  omega

theorem unbox_box_toNat {i : ℕ} (hi : i < 2 ^ 30) : (unbox (box (BitVec.ofNat 32 i))).toNat = i := by
  have hint := unbox_box_natCast hi
  rw [BitVec.toInt_eq_toNat_bmod] at hint
  have := (unbox (box (BitVec.ofNat 32 i))).isLt
  simp only [Int.bmod_def] at hint
  omega

/-- `UNBOX` forgets nothing about a boxed word. -/
theorem unbox_inj {x y : Word} (hx : unboxed x = true) (hy : unboxed y = true) :
    unbox x = unbox y ↔ x = y := by
  refine ⟨fun h => ?_, congrArg unbox⟩
  rw [unboxed_iff] at hx hy
  have hint := congrArg BitVec.toInt h
  rw [unbox, unbox, BitVec.toInt_sshiftRight, BitVec.toInt_sshiftRight, Int.shiftRight_eq_div_pow,
    Int.shiftRight_eq_div_pow, BitVec.toInt_eq_toNat_bmod, BitVec.toInt_eq_toNat_bmod] at hint
  simp only [Int.bmod_def] at hint
  have := x.isLt
  have := y.isLt
  refine BitVec.eq_of_toNat_eq ?_
  omega

/-! A component's index, as `Belem` and `Bsta` add the tag to it. -/

theorem sexp_index (hash : Word) (fields : List Word) (i : ℕ) :
    (i : ℤ) + 1 = ((Aggregate.first (.sexp hash fields) + i : ℕ) : ℤ) := by
  simp only [Aggregate.first]
  omega

theorem array_index (fields : List Word) (i : ℕ) :
    (i : ℤ) = ((Aggregate.first (.array fields) + i : ℕ) : ℤ) := by
  simp only [Aggregate.first]
  omega

section Readers
variable {im : Image} {s : State} {p : ℕ} (hh : HeapPlaced im s.mem.heap)
  (hr : Represents s.mem.heap p A)
include hh hr

theorem llength_aggregate : llength im s (contentWord s.mem.heap p) =
    .ok (box (BitVec.ofNat 32 A.len)) := by
  rw [llength, unboxed_contentWord, ensure_of rfl, ok_bind, dataHeader_content hh hr.object, ok_bind,
    hr.lenOf]
  rfl

/-- A word of the contents, with the address as the readers compute it. -/
theorem loadWord_aggregate {i : ℕ} {w : Word} (hi : A.fields[i]? = some w) :
    loadWord im s (ptrAdd (s.mem.heap.begin + p + headerSize) ((A.first + i : ℕ) : ℤ)) = .ok w := by
  obtain ⟨hw, hlt⟩ := hr.field hi
  rw [loadWord_content hh hr.object hlt, hw]

/-- The first word of the contents. -/
theorem loadWord_head {w : Word} (hw : A.contents[0]? = some w) :
    loadWord im s (s.mem.heap.begin + p + headerSize) = .ok w := by
  have hlt := (List.getElem?_eq_some_iff.mp hw).1
  have hend := hr.inside
  rw [Nat.add_assoc, loadWord_heap hh.apart (by omega)]
  exact congrArg _ (hr.contents 0 w hw)

theorem belem_aggregate {i : ℕ} {w : Word} (hi : A.fields[i]? = some w) (hne : A.type ≠ .closure) :
    belem im s (contentWord s.mem.heap p) (box (BitVec.ofNat 32 i)) = .ok w := by
  have hlt := hr.index_lt (List.getElem?_eq_some_iff.mp hi).1
  have hload := loadWord_aggregate hh hr hi
  rw [belem, unboxed_contentWord, unboxed_box, ensure_of rfl, ok_bind, ensure_of rfl, ok_bind,
    tagWord_content hh hr.object, ok_bind, derefPtr_content hh hr.object, ok_bind, hr.tag]
  simp only
  rw [unbox_box_natCast (by omega)]
  cases A with
  | closure entry fields => exact absurd rfl hne
  | sexp hash fields =>
    rw [sexp_index hash fields]
    exact hload
  | array fields =>
    rw [array_index fields]
    exact hload

theorem bsta_aggregate {i : ℕ} (v : Word) (hi : i < A.fields.length) (hne : A.type ≠ .closure) :
    bsta im s v (box (BitVec.ofNat 32 i)) (contentWord s.mem.heap p) =
      .ok (s.withHeap (s.mem.heap.setWord (p + headerSize + (A.first + i)) v)) := by
  have hlt := hr.index_lt hi
  obtain ⟨-, hroom⟩ := hr.field (List.getElem?_eq_getElem hi)
  have hend := hr.object.inside
  -- the address of the component, and the store
  have hstore : storeWord im s (ptrAdd (s.mem.heap.begin + p + headerSize) ((A.first + i : ℕ) : ℤ)) v =
      .ok (s.withHeap (s.mem.heap.setWord (p + headerSize + (A.first + i)) v)) := by
    rw [ptrAdd_content hh hr.object hroom, storeWord,
      if_neg (hh.apart _ (Nat.le_add_right _ _) (by omega)), store_add (by omega)]
    rfl
  rw [bsta, if_pos (unboxed_box _), unboxed_contentWord, ensure_of rfl, ok_bind,
    tagWord_content hh hr.object, ok_bind, derefPtr_content hh hr.object, ok_bind, hr.tag]
  simp only
  rw [unbox_box_natCast (by omega)]
  cases A with
  | closure entry fields => exact absurd rfl hne
  | sexp hash fields =>
    rw [sexp_index hash fields]
    exact hstore
  | array fields =>
    rw [array_index fields]
    exact hstore

theorem btag_aggregate {hash : Word} {m : ℕ} (hhash : unboxed hash = true) (hm : m < 2 ^ 30) :
    btag im s (contentWord s.mem.heap p) hash (box (BitVec.ofNat 32 m)) =
      .ok (box (boolWord (A.isSexp hash m))) := by
  rw [btag, unboxed_contentWord, if_neg Bool.false_ne_true, dataHeader_content hh hr.object, ok_bind,
    hr.tag, hr.lenOf, unbox_box_toNat hm]
  cases A with
  | closure entry fields => rfl
  | array fields => rfl
  | sexp hash' fields =>
    have hload := loadWord_head hh hr (w := unbox hash') rfl
    have heq : (unbox hash' == unbox hash) = (hash' == hash) := by
      rw [Bool.eq_iff_iff, beq_iff_eq, beq_iff_eq]
      exact unbox_inj hr.proper hhash
    rw [if_pos (show (Aggregate.sexp hash' fields).type.tag = sexpTag from rfl),
      derefPtr_content hh hr.object, ok_bind, hload, ok_bind, heq]
    rfl

theorem arrayPatt_aggregate {m : ℕ} (hm : m < 2 ^ 30) :
    arrayPatt im s (contentWord s.mem.heap p) (box (BitVec.ofNat 32 m)) =
      .ok (box (boolWord (A.isArray m))) := by
  rw [arrayPatt, unboxed_contentWord, if_neg Bool.false_ne_true, dataHeader_content hh hr.object,
    ok_bind, hr.tag, hr.lenOf, unbox_box_toNat hm]
  cases A <;> rfl

end Readers

end Lama

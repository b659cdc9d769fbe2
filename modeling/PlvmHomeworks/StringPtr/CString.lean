import Mathlib.Data.Nat.Bitwise
import PlvmHomeworks.Lib.Outcome

/-! CString: a C string with a reference counter in the low bits of its address.

    L is REF_COUNTER_LENGTH, the number of these bits. The counter stays where it is once all of them
    are set. -/

namespace StringPtr

abbrev Word := BitVec 64

variable (L : ℕ)

def ALIGNMENT : Word := BitVec.ofNat 64 (1 <<< L)

def REF_COUNTER_MASK : Word := BitVec.ofNat 64 ((1 <<< L) - 1)

def REF_COUNT_SATURATION : Word := BitVec.ofNat 64 ((1 <<< L) - 1)

/-- How an operation goes wrong. -/
inductive Fault
  | usedAfterFree
  | freedTwice
  | deadObject
  | logicError (what : String)
  deriving DecidableEq

structure CString where
  ptr : Word
  deriving DecidableEq

namespace CString

/-- The constructor, with the block that aligned_alloc has returned for the string; none is
    nullptr. -/
def construct (str : Option Word) : CString :=
  match str with
  | none => ⟨REF_COUNT_SATURATION L⟩
  | some block => ⟨block⟩

variable (s : CString)

def cStr : Word := s.ptr &&& ~~~ REF_COUNTER_MASK L

def refCount : Word := s.ptr &&& REF_COUNTER_MASK L

def incRefCount : CString :=
  let refCount := s.ptr &&& REF_COUNTER_MASK L
  if refCount = REF_COUNT_SATURATION L then s
  else ⟨(s.ptr &&& ~~~ REF_COUNTER_MASK L) ||| (refCount + 1)⟩

def decRefCount : Except Fault CString :=
  let refCount := s.ptr &&& REF_COUNTER_MASK L
  if refCount = 0 then .error (.logicError "Cannot decrement if ref_count_is_zero")
  else if refCount = REF_COUNT_SATURATION L then .ok s
  else .ok ⟨(s.ptr &&& ~~~ REF_COUNTER_MASK L) ||| (refCount - 1)⟩

end CString

/-! ### The counter as a number -/

section
variable {L}

theorem toNat_mask : (REF_COUNTER_MASK L).toNat = 2 ^ min L 64 - 1 := by
  rw [REF_COUNTER_MASK, BitVec.toNat_ofNat, Nat.one_shiftLeft]
  rcases Nat.le_total L 64 with hL | hL
  · rw [Nat.min_eq_left hL]
    have hle : 2 ^ L ≤ 2 ^ 64 := Nat.pow_le_pow_right (by omega) hL
    have hpos : 0 < 2 ^ L := Nat.two_pow_pos L
    exact Nat.mod_eq_of_lt (by omega)
  · obtain ⟨m, rfl⟩ := Nat.exists_eq_add_of_le hL
    have hpos : 0 < 2 ^ m := Nat.two_pow_pos m
    rw [Nat.min_eq_right hL, Nat.pow_add]
    obtain ⟨j, hj⟩ : ∃ j, 2 ^ m = j + 1 := ⟨2 ^ m - 1, by omega⟩
    rw [hj]
    omega

theorem saturation_eq_mask : REF_COUNT_SATURATION L = REF_COUNTER_MASK L := rfl

/-- Where the counter has a bit it is saturated above 0. -/
theorem saturation_ne_zero (hL : 1 ≤ L) : REF_COUNT_SATURATION L ≠ 0 := by
  intro hzero
  have hmask : 2 ^ min L 64 - 1 = 0 := by rw [← toNat_mask, ← saturation_eq_mask, hzero]; rfl
  have hpow : 2 ^ 1 ≤ 2 ^ min L 64 := Nat.pow_le_pow_right (by omega) (by omega)
  omega

/-- A number up to the mask lies in the low bits. -/
theorem and_mask_of_le {r : Word} (h : r ≤ REF_COUNTER_MASK L) : r &&& REF_COUNTER_MASK L = r := by
  have hle : r.toNat ≤ 2 ^ min L 64 - 1 := toNat_mask ▸ BitVec.le_def.mp h
  apply BitVec.eq_of_toNat_eq
  rw [BitVec.toNat_and, toNat_mask, Nat.and_two_pow_sub_one_eq_mod]
  have hpos : 0 < 2 ^ min L 64 := Nat.two_pow_pos _
  exact Nat.mod_eq_of_lt (by omega)

theorem and_mask_le (p : Word) : p &&& REF_COUNTER_MASK L ≤ REF_COUNTER_MASK L := by
  rw [BitVec.le_def, BitVec.toNat_and, toNat_mask, Nat.and_two_pow_sub_one_eq_mod]
  have hpos : 0 < 2 ^ min L 64 := Nat.two_pow_pos _
  have hlt := Nat.mod_lt p.toNat hpos
  omega

/-- A counter that is put in place of the old one is read back. -/
theorem replace_and_mask {p r : Word} (h : r ≤ REF_COUNTER_MASK L) :
    ((p &&& ~~~ REF_COUNTER_MASK L) ||| r) &&& REF_COUNTER_MASK L = r := by
  rw [← and_mask_of_le h]
  ext i hi
  simp only [BitVec.getElem_and, BitVec.getElem_or, BitVec.getElem_not]
  cases (REF_COUNTER_MASK L)[i] <;> simp

/-- It leaves the address as it is. -/
theorem replace_and_not_mask {p r : Word} (h : r ≤ REF_COUNTER_MASK L) :
    ((p &&& ~~~ REF_COUNTER_MASK L) ||| r) &&& ~~~ REF_COUNTER_MASK L =
      p &&& ~~~ REF_COUNTER_MASK L := by
  rw [← and_mask_of_le h]
  ext i hi
  simp only [BitVec.getElem_and, BitVec.getElem_or, BitVec.getElem_not]
  cases (REF_COUNTER_MASK L)[i] <;> simp

theorem toNat_add_one {r : Word} (h : r < REF_COUNT_SATURATION L) : (r + 1).toNat = r.toNat + 1 := by
  have hlt := BitVec.lt_def.mp h
  have hsat := (REF_COUNT_SATURATION L).isLt
  rw [BitVec.toNat_add]
  exact Nat.mod_eq_of_lt (by simp; omega)

theorem toNat_sub_one {r : Word} (h : r ≠ 0) : (r - 1).toNat + 1 = r.toNat := by
  have hpos : r.toNat ≠ 0 := fun hz => h (BitVec.eq_of_toNat_eq hz)
  rw [BitVec.toNat_sub_of_le (by rw [BitVec.le_def]; simp; omega)]
  simp
  omega

namespace CString
variable {s t : CString}

theorem refCount_le : s.refCount L ≤ REF_COUNT_SATURATION L := and_mask_le s.ptr

theorem refCount_lt (h : s.refCount L ≠ REF_COUNT_SATURATION L) :
    s.refCount L < REF_COUNT_SATURATION L := BitVec.lt_of_le_ne refCount_le h

theorem add_one_le (h : s.refCount L ≠ REF_COUNT_SATURATION L) :
    s.refCount L + 1 ≤ REF_COUNTER_MASK L := by
  rw [BitVec.le_def, toNat_add_one (refCount_lt h)]
  exact BitVec.lt_def.mp (refCount_lt h)

theorem sub_one_le (h : s.refCount L ≠ 0) : s.refCount L - 1 ≤ REF_COUNTER_MASK L := by
  have hle := BitVec.le_def.mp (refCount_le (s := s) (L := L))
  have hsub := toNat_sub_one h
  rw [saturation_eq_mask] at hle
  rw [BitVec.le_def]
  omega

theorem incRefCount_saturated (h : s.refCount L = REF_COUNT_SATURATION L) : s.incRefCount L = s :=
  if_pos h

theorem incRefCount_eq (h : s.refCount L ≠ REF_COUNT_SATURATION L) :
    s.incRefCount L = ⟨s.cStr L ||| (s.refCount L + 1)⟩ := if_neg h

theorem decRefCount_saturated (h0 : s.refCount L ≠ 0)
    (h : s.refCount L = REF_COUNT_SATURATION L) : s.decRefCount L = .ok s :=
  (if_neg h0).trans (if_pos h)

theorem decRefCount_eq (h0 : s.refCount L ≠ 0) (h : s.refCount L ≠ REF_COUNT_SATURATION L) :
    s.decRefCount L = .ok ⟨s.cStr L ||| (s.refCount L - 1)⟩ := (if_neg h0).trans (if_neg h)

/-- Below saturation the counter goes up by one. -/
theorem refCount_incRefCount (h : s.refCount L ≠ REF_COUNT_SATURATION L) :
    ((s.incRefCount L).refCount L).toNat = (s.refCount L).toNat + 1 := by
  rw [← toNat_add_one (refCount_lt h), incRefCount_eq h]
  exact congrArg BitVec.toNat (replace_and_mask (add_one_le h))

theorem cStr_incRefCount : (s.incRefCount L).cStr L = s.cStr L := by
  by_cases h : s.refCount L = REF_COUNT_SATURATION L
  · rw [incRefCount_saturated h]
  · rw [incRefCount_eq h]
    exact replace_and_not_mask (add_one_le h)

/-- Below saturation a counter that is not 0 goes down by one. -/
theorem refCount_decRefCount (h0 : s.refCount L ≠ 0) (h : s.refCount L ≠ REF_COUNT_SATURATION L) :
    ∃ t, s.decRefCount L = .ok t ∧ (t.refCount L).toNat + 1 = (s.refCount L).toNat := by
  refine ⟨_, decRefCount_eq h0 h, ?_⟩
  rw [← toNat_sub_one h0]
  exact congrArg (fun r => BitVec.toNat r + 1) (replace_and_mask (sub_one_le h0))

theorem cStr_decRefCount (hstep : s.decRefCount L = .ok t) : t.cStr L = s.cStr L := by
  by_cases h0 : s.refCount L = 0
  · cases (if_pos h0).symm.trans hstep
  by_cases h : s.refCount L = REF_COUNT_SATURATION L
  · rw [decRefCount_saturated h0 h] at hstep
    rw [Except.ok.inj hstep]
  · rw [decRefCount_eq h0 h] at hstep
    rw [← Except.ok.inj hstep]
    exact replace_and_not_mask (sub_one_le h0)

end CString

end

end StringPtr

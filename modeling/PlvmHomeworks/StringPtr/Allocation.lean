import PlvmHomeworks.StringPtr.CString

/-! The block that the constructor of CString allocates, and the copy of the string into it.

    length_aligned is the length and what REF_COUNTER_MASK leaves of length + ALIGNMENT - 1. So it is
    odd for every string, and nothing is added to a length that is 1 above a multiple of ALIGNMENT. -/

namespace StringPtr

/-- length_aligned for a string of length n. -/
def lengthAligned (L : ℕ) (n : Word) : Word := n + ((n + ALIGNMENT L - 1) &&& REF_COUNTER_MASK L)

/-- A block of the heap. -/
structure Block where
  address : Word
  bytes : List UInt8
  deriving DecidableEq

/-- What aligned_alloc promises of the block that it returns. -/
structure Block.Allocated (b : Block) (alignment size : Word) : Prop where
  aligned : alignment.toNat ∣ b.address.toNat
  length : b.bytes.length = size.toNat

/-- strcpy, from the start of a block on; none is a write past the end of the block. -/
def strcpy : List UInt8 → List UInt8 → Option (List UInt8)
  | [], _ => none
  | _ :: bytes, [] => some (0 :: bytes)
  | _ :: bytes, c :: str => (strcpy bytes str).map (c :: ·)

/-- The string at an address of a block. -/
def Block.stringAt (b : Block) (p : Word) : List UInt8 :=
  (b.bytes.drop (p - b.address).toNat).takeWhile (· ≠ 0)

/-- The constructor for a string that is not nullptr, with the block that aligned_alloc has returned. -/
def CString.store (L : ℕ) (str : List UInt8) (b : Block) : Option (CString × Block) :=
  (strcpy b.bytes str).map fun bytes => (CString.construct L (some b.address), { b with bytes := bytes })

/-- strcpy stays inside the block, c_str reads the string back and the counter starts at 0. -/
def Stored (L : ℕ) (str : List UInt8) (b : Block) : Prop :=
  ∃ s b', CString.store L str b = some (s, b') ∧ b'.stringAt (s.cStr L) = str ∧ s.refCount L = 0

/-- The size is enough for the string and its terminator and is one that aligned_alloc takes, and the
    string is stored. -/
structure StoredSafely (L : ℕ) (str : List UInt8) (b : Block) : Prop where
  room : str.length + 1 ≤ (lengthAligned L (BitVec.ofNat 64 str.length)).toNat
  multiple : (ALIGNMENT L).toNat ∣ (lengthAligned L (BitVec.ofNat 64 str.length)).toNat
  stored : Stored L str b

/-- What length_aligned adds to a length. -/
def padding (L n : ℕ) : ℕ := (n + 2 ^ min L 64 - 1) % 2 ^ min L 64

variable {L n : ℕ} {str : List UInt8} {b : Block}

/-! ### The size -/

theorem toNat_alignment : (ALIGNMENT L).toNat = 2 ^ L % 2 ^ 64 := by
  rw [ALIGNMENT, BitVec.toNat_ofNat, Nat.one_shiftLeft]

theorem two_pow_dvd_size : 2 ^ min L 64 ∣ 2 ^ 64 := Nat.pow_dvd_pow 2 (Nat.min_le_right L 64)

theorem two_pow_dvd_alignment : 2 ^ min L 64 ∣ (ALIGNMENT L).toNat := by
  rw [toNat_alignment]
  exact (Nat.dvd_mod_iff two_pow_dvd_size).mpr (Nat.pow_dvd_pow 2 (Nat.min_le_left L 64))

theorem toNat_and_mask (hn : n < 2 ^ 64) :
    ((BitVec.ofNat 64 n + ALIGNMENT L - 1) &&& REF_COUNTER_MASK L).toNat = padding L n := by
  obtain ⟨a, ha⟩ := two_pow_dvd_alignment (L := L)
  obtain ⟨w, hw⟩ := two_pow_dvd_size (L := L)
  obtain ⟨v, rfl⟩ : ∃ v, w = v + 1 := ⟨w - 1, by cases w <;> omega⟩
  have hpos := Nat.two_pow_pos (min L 64)
  have hsum : 2 ^ 64 - 1 + (n + 2 ^ min L 64 * a) = n + 2 ^ min L 64 - 1 + 2 ^ min L 64 * (a + v) := by
    rw [hw, Nat.mul_add, Nat.mul_add, Nat.mul_one]
    omega
  have hone : (1 : Word).toNat = 1 := rfl
  rw [BitVec.toNat_and, toNat_mask, Nat.and_two_pow_sub_one_eq_mod, BitVec.toNat_sub, BitVec.toNat_add,
    BitVec.toNat_ofNat, Nat.mod_eq_of_lt hn, hone, ha, Nat.mod_mod_of_dvd _ two_pow_dvd_size, Nat.add_mod,
    Nat.mod_mod_of_dvd _ two_pow_dvd_size, ← Nat.add_mod, hsum, Nat.add_mul_mod_self_left, padding]

theorem toNat_lengthAligned (hn : n < 2 ^ 64) :
    (lengthAligned L (BitVec.ofNat 64 n)).toNat = (n + padding L n) % 2 ^ 64 := by
  rw [lengthAligned, BitVec.toNat_add, toNat_and_mask hn, BitVec.toNat_ofNat, Nat.mod_eq_of_lt hn]

theorem padding_lt (L n : ℕ) : padding L n < 2 ^ min L 64 := Nat.mod_lt _ (Nat.two_pow_pos _)

theorem two_dvd_two_pow (hL : 1 ≤ L) : 2 ∣ 2 ^ min L 64 := dvd_pow_self 2 (by omega)

theorem add_padding_odd (hL : 1 ≤ L) (n : ℕ) : (n + padding L n) % 2 = 1 := by
  obtain ⟨m, hm⟩ := two_dvd_two_pow hL
  have hpos := Nat.two_pow_pos (min L 64)
  have hpad : padding L n % 2 = (n + 2 ^ min L 64 - 1) % 2 := Nat.mod_mod_of_dvd _ (two_dvd_two_pow hL)
  omega

/-- The size is odd, whatever the string. -/
theorem lengthAligned_odd (hL : 1 ≤ L) (hn : n < 2 ^ 64) :
    (lengthAligned L (BitVec.ofNat 64 n)).toNat % 2 = 1 := by
  rw [toNat_lengthAligned hn, Nat.mod_mod_of_dvd _ (by decide), add_padding_odd hL]

theorem alignment_not_dvd (hL : 1 ≤ L) (hn : n < 2 ^ 64) :
    ¬ (ALIGNMENT L).toNat ∣ (lengthAligned L (BitVec.ofNat 64 n)).toNat := by
  intro hdvd
  have htwo := ((two_dvd_two_pow hL).trans two_pow_dvd_alignment).trans hdvd
  have hodd := lengthAligned_odd hL hn
  omega

/-- Nothing is added to the lengths that are 1 above a multiple of 2 ^ L. -/
theorem padding_eq_zero_iff (hL : 1 ≤ L) (hn : n < 2 ^ 64) : padding L n = 0 ↔ n % 2 ^ L = 1 := by
  have hmod : n % 2 ^ L = n % 2 ^ min L 64 := by
    rcases Nat.le_total L 64 with hle | hle
    · rw [Nat.min_eq_left hle]
    · rw [Nat.min_eq_right hle, Nat.mod_eq_of_lt hn,
        Nat.mod_eq_of_lt (Nat.lt_of_lt_of_le hn (Nat.pow_le_pow_right (by decide) hle))]
  have htwo := Nat.le_of_dvd (Nat.two_pow_pos _) (two_dvd_two_pow hL)
  rw [hmod, padding]
  generalize 2 ^ min L 64 = k at htwo
  have hlt := Nat.mod_lt n (show 0 < k by omega)
  have hsub : n + k - 1 = n + (k - 1) := by omega
  rw [hsub, Nat.add_mod, Nat.mod_eq_of_lt (show k - 1 < k by omega)]
  generalize n % k = t at hlt ⊢
  cases t with
  | zero =>
    rw [Nat.zero_add, Nat.mod_eq_of_lt (show k - 1 < k by omega)]
    omega
  | succ t =>
    have hsum : t + 1 + (k - 1) = t + k := by omega
    rw [hsum, Nat.add_mod_right, Nat.mod_eq_of_lt (by omega)]
    omega

/-- There is room for the string and its terminator if something is added, and the sum is a size_t. -/
theorem room_iff (hL : 1 ≤ L) (hn : n < 2 ^ 64) :
    n + 1 ≤ (lengthAligned L (BitVec.ofNat 64 n)).toNat ↔ n % 2 ^ L ≠ 1 ∧ n + padding L n < 2 ^ 64 := by
  rw [toNat_lengthAligned hn, Ne, ← padding_eq_zero_iff hL hn]
  have hlt := padding_lt L n
  have hle : 2 ^ min L 64 ≤ 2 ^ 64 := Nat.pow_le_pow_right (by decide) (Nat.min_le_right L 64)
  omega

/-! ### The copy -/

theorem strcpy_eq : ∀ (str bytes : List UInt8), strcpy bytes str =
    if str.length < bytes.length then some (str ++ 0 :: bytes.drop (str.length + 1)) else none
  | _, [] => by simp [strcpy]
  | [], c :: bytes => by simp [strcpy]
  | c :: str, d :: bytes => by
    rw [strcpy, strcpy_eq str bytes]
    split <;> simp_all

/-- The low bits of an aligned address are 0. -/
theorem and_mask_eq_zero {p : Word} (hp : (ALIGNMENT L).toNat ∣ p.toNat) :
    p &&& REF_COUNTER_MASK L = 0 := by
  apply BitVec.eq_of_toNat_eq
  rw [BitVec.toNat_and, toNat_mask, Nat.and_two_pow_sub_one_eq_mod]
  exact Nat.mod_eq_zero_of_dvd (two_pow_dvd_alignment.trans hp)

theorem and_not_mask_eq_self {p : Word} (hp : p &&& REF_COUNTER_MASK L = 0) :
    p &&& ~~~ REF_COUNTER_MASK L = p := by
  ext i hi
  have hbit : (p &&& REF_COUNTER_MASK L)[i] = false := by
    rw [hp]
    exact BitVec.getElem_zero hi
  rw [BitVec.getElem_and] at hbit ⊢
  rw [BitVec.getElem_not]
  cases hq : p[i] with
  | false => rfl
  | true =>
    rw [hq, Bool.true_and] at hbit
    rw [hbit]
    rfl

theorem stringAt_start (hstr : 0 ∉ str) (address : Word) (bytes : List UInt8) :
    Block.stringAt ⟨address, str ++ 0 :: bytes⟩ address = str := by
  have hne : ∀ c ∈ str, decide (c ≠ 0) = true := by
    intro c hc
    exact decide_eq_true fun h => hstr (h ▸ hc)
  rw [Block.stringAt, BitVec.sub_self]
  show List.takeWhile _ (str ++ 0 :: bytes) = str
  rw [List.takeWhile_append_of_pos hne]
  exact List.append_nil str

/-- The string is stored if there is room for it and its terminator. -/
theorem stored_iff (hstr : 0 ∉ str)
    (hb : b.Allocated (ALIGNMENT L) (lengthAligned L (BitVec.ofNat 64 str.length))) :
    Stored L str b ↔ str.length + 1 ≤ (lengthAligned L (BitVec.ofNat 64 str.length)).toNat := by
  have hzero := and_mask_eq_zero hb.aligned
  rw [Stored, CString.store, strcpy_eq, ← hb.length]
  constructor
  · rintro ⟨s, b', hstore, -⟩
    by_contra hroom
    rw [if_neg (by omega)] at hstore
    cases hstore
  · intro hroom
    rw [if_pos (by omega)]
    refine ⟨_, _, rfl, ?_, hzero⟩
    have hstart : (CString.construct L (some b.address)).cStr L = b.address := and_not_mask_eq_self hzero
    rw [hstart]
    exact stringAt_start hstr b.address _

/-- For no string is the size a multiple of ALIGNMENT. The string is stored nevertheless if its length
    is not 1 above a multiple of 2 ^ REF_COUNTER_LENGTH; for the others the terminator is written past
    the block. -/
theorem stored_never_safely (hL : 1 ≤ L) (hstr : 0 ∉ str) (hlen : str.length < 2 ^ 64)
    (hb : b.Allocated (ALIGNMENT L) (lengthAligned L (BitVec.ofNat 64 str.length))) :
    ¬ StoredSafely L str b ∧
      ¬ (ALIGNMENT L).toNat ∣ (lengthAligned L (BitVec.ofNat 64 str.length)).toNat ∧
      (str.length + 1 ≤ (lengthAligned L (BitVec.ofNat 64 str.length)).toNat ↔ Stored L str b) ∧
      (Stored L str b ↔ str.length % 2 ^ L ≠ 1 ∧ str.length + padding L str.length < 2 ^ 64) ∧
      (CString.construct L (some b.address)).refCount L = 0 := by
  have hodd := alignment_not_dvd hL hlen
  have hstored := stored_iff hstr hb
  refine ⟨fun h => hodd h.multiple, hodd, hstored.symm, ?_, and_mask_eq_zero hb.aligned⟩
  rw [hstored, room_iff hL hlen]

/-- Hello. -/
def hello : List UInt8 := [72, 101, 108, 108, 111]

/-- A block for five characters. -/
def fiveBytes : Block := ⟨94560, [170, 170, 170, 170, 170]⟩

theorem fiveBytes_allocated :
    fiveBytes.Allocated (ALIGNMENT 1) (lengthAligned 1 (BitVec.ofNat 64 hello.length)) :=
  ⟨by decide, by decide⟩

theorem stored_never_safely_hello : ¬ StoredSafely 1 hello fiveBytes ∧
    (Stored 1 hello fiveBytes ↔
      hello.length % 2 ^ 1 ≠ 1 ∧ hello.length + padding 1 hello.length < 2 ^ 64) := by
  obtain ⟨hnever, -, -, hiff, -⟩ :=
    stored_never_safely (Nat.le_refl 1) (by decide) (by decide) fiveBytes_allocated
  exact ⟨hnever, hiff⟩

/-- Five bytes are allocated for Hello, and strcpy writes the sixth. -/
theorem hello_overflows :
    ¬ StoredSafely 1 hello fiveBytes ∧ lengthAligned 1 (BitVec.ofNat 64 hello.length) = 5 ∧
      CString.store 1 hello fiveBytes = none :=
  ⟨fun h => absurd h.room (by decide), by decide, by decide⟩

end StringPtr

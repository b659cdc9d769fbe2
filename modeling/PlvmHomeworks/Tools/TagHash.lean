import PlvmHomeworks.Lib.Numerals
import PlvmHomeworks.Tools.Tuples

/-! `LtagHash` and `de_hash`: a tag as a numeral in base 64.

    The hash is the number of the first five characters, and `de_hash` spells it again. It writes the
    digits backwards into a buffer of six bytes, so `deHashBuffer` has the buffer and where `p` points
    in it. -/

namespace Lama
open Outcome Numerals

/-! ### The buffer -/

/-- The loop of `de_hash`, where `p` points in front of cell `p` of the buffer; `none` is a write in
    front of the buffer. -/
def deHashLoop : ℕ → Word → List UInt8 → Option (ℕ × List UInt8)
  | p, n, buf =>
    if n = 0 then some (p, buf)
    else match p with
      | 0 => none
      | p + 1 => deHashLoop p (n.sshiftRight 6) (buf.set p (tagChars.getD (n &&& 0x3F).toNat 0))

/-- The string at `p` of a buffer. -/
def bufferString (buf : List UInt8) (p : ℕ) : List UInt8 := (buf.drop p).takeWhile (· ≠ 0)

/-- `de_hash`, with what an earlier call has left in the buffer. -/
def deHashBuffer (n : Word) (buf : List UInt8) : Option (List UInt8) := do
  let (p, buf) ← deHashLoop 5 n (buf.set 5 0)
  return bufferString buf p

/-! ### The alphabet -/

theorem tagChars_length : tagChars.length = 64 := by decide +kernel

theorem tagChars_one_lt : 1 < tagChars.length := by
  rw [tagChars_length]
  decide

theorem tagChars_nodup : tagChars.Nodup := by decide +kernel

theorem zero_not_mem_tagChars : (0 : UInt8) ∉ tagChars := by decide +kernel

/-- `_`. -/
def underscore : UInt8 := 95

theorem idxOf_eq_zero_iff {c : UInt8} : tagChars.idxOf c = 0 ↔ c = underscore := by
  have hhead : tagChars[0]? = some underscore := by decide +kernel
  constructor
  · intro h
    have hlt : tagChars.idxOf c < tagChars.length := by
      rw [h, tagChars_length]
      decide
    have hc := List.getElem?_idxOf (List.idxOf_lt_length_iff.mp hlt)
    rw [h, hhead] at hc
    exact (Option.some.inj hc).symm
  · rintro rfl
    decide +kernel

/-- The tags that are told apart: five characters of the alphabet, no `_` at the start. -/
structure IsTag (s : List UInt8) : Prop where
  letters : ∀ c ∈ s.take 5, c ∈ tagChars
  lead : s.head? ≠ some underscore

theorem isTag_iff {s : List UInt8} : IsTag s ↔ IsNumeral tagChars (s.take 5) := by
  have hhead : (s.take 5).head? = s.head? := by cases s <;> rfl
  constructor
  · rintro ⟨hmem, hlead⟩
    refine ⟨hmem, fun c hc h0 => hlead ?_⟩
    rw [← hhead, hc, idxOf_eq_zero_iff.mp h0]
  · rintro ⟨hmem, hlead⟩
    refine ⟨hmem, fun h => hlead _ (hhead.trans h) (idxOf_eq_zero_iff.mpr rfl)⟩

/-! ### Hashing -/

/-- The loop goes over the characters of the tag and stops at one that is not in the alphabet. -/
theorem tagHashLoop_eq_ok {limit n : ℕ} : ∀ {s : List UInt8} (pre : List UInt8),
    tagHashLoop limit (value tagChars pre) s = .ok n ↔
      (∀ c ∈ s.take limit, c ∈ tagChars) ∧ n = value tagChars (pre ++ s.take limit) := by
  induction limit with
  | zero =>
    intro s pre
    rw [tagHashLoop, List.take_zero, List.append_nil, Except.ok.injEq, eq_comm]
    exact ⟨fun h => ⟨fun c hc => absurd hc List.not_mem_nil, h⟩, And.right⟩
  | succ limit ih =>
    intro s pre
    cases s with
    | nil =>
      rw [tagHashLoop, List.take_nil, List.append_nil, Except.ok.injEq, eq_comm]
      · exact ⟨fun h => ⟨fun c hc => absurd hc List.not_mem_nil, h⟩, And.right⟩
      · exact Nat.succ_ne_zero limit
    | cons c cs =>
      rw [tagHashLoop, List.take_succ_cons]
      split
      · next hc =>
        have hvalue := value_concat tagChars pre c
        rw [tagChars_length] at hvalue
        rw [← hvalue, ih, List.append_assoc, List.singleton_append, List.forall_mem_cons]
        exact ⟨fun h => ⟨⟨hc, h.1⟩, h.2⟩, fun h => ⟨h.1.2, h.2⟩⟩
      · next hc => simp [hc]

/-- `de_hash` spells the number. -/
theorem deHash_eq {fuel : ℕ} : ∀ {n : ℕ} {acc : List UInt8}, n < 64 ^ fuel →
    deHash fuel n acc = spell tagChars 0 n ++ acc := by
  induction fuel with
  | zero =>
    intro n acc hn
    obtain rfl : n = 0 := by simpa using hn
    rw [spell_zero, List.nil_append, deHash]
  | succ fuel ih =>
    intro n acc hn
    rw [deHash]
    split
    · next h0 => rw [h0, spell_zero, List.nil_append]
    · next h0 =>
      have hstep := spell_pos (0 : UInt8) tagChars_one_lt (Nat.pos_of_ne_zero h0)
      rw [tagChars_length] at hstep
      rw [ih (by rw [Nat.pow_succ] at hn; omega), hstep, List.append_assoc, List.singleton_append]

/-- It writes the digits in front of what is at `p`, one cell for each. -/
theorem deHashLoop_eq {p : ℕ} : ∀ {n : Word} {buf : List UInt8}, p ≤ 5 → n.toNat < 64 ^ p →
    p < buf.length → ∃ q buf', deHashLoop p n buf = some (q, buf') ∧
      buf'.drop q = spell tagChars 0 n.toNat ++ buf.drop p := by
  induction p with
  | zero =>
    intro n buf _ hn _
    obtain rfl : n = 0 := BitVec.eq_of_toNat_eq (by simpa using hn)
    refine ⟨0, buf, if_pos rfl, ?_⟩
    rw [show (0 : Word).toNat = 0 from rfl, spell_zero, List.nil_append]
  | succ p ih =>
    intro n buf hp hn hlen
    by_cases h0 : n = 0
    · subst h0
      refine ⟨p + 1, buf, if_pos rfl, ?_⟩
      rw [show (0 : Word).toNat = 0 from rfl, spell_zero, List.nil_append]
    · have hpow : 64 ^ (p + 1) ≤ 64 ^ 5 := Nat.pow_le_pow_right (by decide) hp
      have hpos : 0 < n.toNat := Nat.pos_of_ne_zero fun h => h0 (BitVec.eq_of_toNat_eq h)
      have hmsb : n.msb = false := BitVec.msb_eq_false_iff_two_mul_lt.mpr (by omega)
      have hshift : (n.sshiftRight 6).toNat = n.toNat / 64 := by
        rw [BitVec.sshiftRight_eq_of_msb_false hmsb, BitVec.toNat_ushiftRight, Nat.shiftRight_eq_div_pow]
      have hdigit : (n &&& 0x3F).toNat = n.toNat % 64 := by
        rw [BitVec.toNat_and, show (0x3F : Word).toNat = 2 ^ 6 - 1 from rfl,
          Nat.and_two_pow_sub_one_eq_mod]
      have hstep := spell_pos (0 : UInt8) tagChars_one_lt hpos
      rw [tagChars_length] at hstep
      have hlen' : p < (buf.set p (tagChars.getD (n &&& 0x3F).toNat 0)).length := by
        rw [List.length_set]
        omega
      obtain ⟨q, buf', hrun, hdrop⟩ := ih (n := n.sshiftRight 6) (by omega)
        (by rw [hshift]; rw [Nat.pow_succ] at hn; omega) hlen'
      refine ⟨q, buf', ?_, ?_⟩
      · rw [deHashLoop, if_neg h0]
        exact hrun
      · rw [hdrop, hshift, hstep, List.append_assoc, List.singleton_append, ← hdigit,
          List.drop_eq_getElem_cons hlen', List.getElem_set_self,
          List.drop_set_of_lt (Nat.lt_succ_self p)]

theorem tagValue_lt {s : List UInt8} (hmem : ∀ c ∈ s.take 5, c ∈ tagChars) :
    value tagChars (s.take 5) < 64 ^ 5 := by
  have hlt := value_lt tagChars_one_lt hmem
  rw [tagChars_length] at hlt
  exact Nat.lt_of_lt_of_le hlt (Nat.pow_le_pow_right (by decide) (List.length_take_le 5 s))

/-- A hash is computed of the tags, and of nothing else. -/
theorem tagHash_eq_ok {s : List UInt8} {w : Word} :
    tagHash s = .ok w ↔ IsTag s ∧ w = box (BitVec.ofNat 32 (value tagChars (s.take 5))) := by
  have hspelled : (∀ c ∈ s.take 5, c ∈ tagChars) →
      ((deHash 6 (value tagChars (s.take 5)) []).take 5 = s.take 5 ↔ IsTag s) := by
    intro hmem
    have hlt := tagValue_lt hmem
    have hlen := spell_length_le (0 : UInt8) tagChars_one_lt (k := 5)
      (n := value tagChars (s.take 5)) (by rw [tagChars_length]; exact hlt)
    rw [deHash_eq (Nat.lt_trans hlt (by decide)), List.append_nil, List.take_of_length_le hlen,
      isTag_iff]
    constructor
    · intro h
      rw [← h]
      exact isNumeral_spell tagChars_one_lt tagChars_nodup 0 _
    · exact spell_value 0 tagChars_one_lt
  constructor
  · intro h
    obtain ⟨n, hn, h⟩ := bind_eq_ok.mp h
    obtain ⟨u, hu, h⟩ := bind_eq_ok.mp h
    obtain ⟨hmem, rfl⟩ := (tagHashLoop_eq_ok []).mp hn
    cases h
    exact ⟨(hspelled hmem).mp (ensure_eq_ok.mp hu), rfl⟩
  · rintro ⟨htag, rfl⟩
    have hloop : tagHashLoop 5 0 s = .ok (value tagChars (s.take 5)) :=
      (tagHashLoop_eq_ok []).mpr ⟨htag.letters, rfl⟩
    rw [tagHash, hloop, ok_bind, ensure_of ((hspelled htag.letters).mpr htag)]
    rfl

/-- What `de_hash` leaves in its buffer is what `deHash` computes, whatever was there before. -/
theorem deHashBuffer_eq {n : Word} {buf : List UInt8} (hlen : buf.length = 6)
    (hn : n.toNat < 64 ^ 5) : deHashBuffer n buf = some (deHash 6 n.toNat []) := by
  have hlen' : 5 < (buf.set 5 0).length := by
    rw [List.length_set, hlen]
    decide
  obtain ⟨q, buf', hrun, hdrop⟩ := deHashLoop_eq (Nat.le_refl 5) hn hlen'
  have hend : (buf.set 5 0).drop 5 = [0] := by
    rw [List.drop_eq_getElem_cons hlen', List.getElem_set_self,
      List.drop_eq_nil_of_le (by rw [List.length_set, hlen])]
  have hne : ∀ c ∈ spell tagChars 0 n.toNat, decide (c ≠ 0) = true := by
    intro c hc
    have hmem := (isNumeral_spell tagChars_one_lt tagChars_nodup 0 n.toNat).mem c hc
    exact decide_eq_true fun h => zero_not_mem_tagChars (h ▸ hmem)
  have hstring : bufferString buf' q = spell tagChars 0 n.toNat := by
    rw [bufferString, hdrop, hend, List.takeWhile_append_of_pos hne]
    exact List.append_nil _
  rw [deHashBuffer, hrun]
  simp only [Option.bind_eq_bind, Option.bind_some, Option.pure_def]
  rw [hstring, deHash_eq (Nat.lt_trans hn (by decide)), List.append_nil]

/-- The hash fits its box, and `de_hash` gives the first five characters back inside its buffer. -/
structure ExactHash (s : List UInt8) (w : Word) : Prop where
  nonneg : 0 ≤ (unbox w).toInt
  lt : (unbox w).toInt < 2 ^ 30
  boxed : box (unbox w) = w
  spelled : ∀ buf : List UInt8, buf.length = 6 → deHashBuffer (unbox w) buf = some (s.take 5)

theorem IsTag.exactHash {s : List UInt8} (htag : IsTag s) :
    ExactHash s (box (BitVec.ofNat 32 (value tagChars (s.take 5)))) := by
  have hlt : value tagChars (s.take 5) < 2 ^ 30 := tagValue_lt htag.letters
  have hint := unbox_box_natCast hlt
  have hnat := unbox_box_toNat hlt
  refine ⟨by omega, by omega, ?_, fun buf hlen => ?_⟩
  · congr 1
    refine BitVec.eq_of_toNat_eq ?_
    rw [hnat, BitVec.toNat_ofNat, Nat.mod_eq_of_lt (by omega)]
  · rw [deHashBuffer_eq hlen (by rw [hnat]; exact hlt), hnat,
      deHash_eq (Nat.lt_trans hlt (by decide)), List.append_nil,
      spell_value 0 tagChars_one_lt (isTag_iff.mp htag)]

/-- Tags with one hash agree on their first five characters. -/
theorem tagHash_inj {s s' : List UInt8} {w w' : Word} (h : tagHash s = .ok w)
    (h' : tagHash s' = .ok w') : w = w' ↔ s.take 5 = s'.take 5 := by
  obtain ⟨htag, rfl⟩ := tagHash_eq_ok.mp h
  obtain ⟨htag', rfl⟩ := tagHash_eq_ok.mp h'
  rw [← value_inj tagChars_one_lt (isTag_iff.mp htag) (isTag_iff.mp htag')]
  refine ⟨fun heq => ?_, fun heq => by rw [heq]⟩
  rw [← unbox_box_toNat (tagValue_lt htag.letters), heq, unbox_box_toNat (tagValue_lt htag'.letters)]

/-- `LtagHash` succeeds on the tags and on nothing else; the hash loses nothing of the first five
    characters, and `TAG` tells two tags apart exactly by these. -/
theorem hashes_exactly (s : List UInt8) :
    ((∃ w, tagHash s = .ok w) ↔ IsTag s) ∧
    ∀ w, tagHash s = .ok w → ExactHash s w ∧
      ∀ s' w', tagHash s' = .ok w' →
        (unbox w = unbox w' ↔ s.take 5 = s'.take 5) ∧
        ∀ im state p fields m, HeapPlaced im state.mem.heap →
          Represents state.mem.heap p (.sexp w fields) → m < 2 ^ 30 →
          btag im state (contentWord state.mem.heap p) w' (box (BitVec.ofNat 32 m)) =
            .ok (box (boolWord (decide (s.take 5 = s'.take 5 ∧ fields.length = m)))) := by
  refine ⟨⟨fun ⟨w, h⟩ => (tagHash_eq_ok.mp h).1, fun h => ⟨_, tagHash_eq_ok.mpr ⟨h, rfl⟩⟩⟩,
    fun w h => ⟨?_, fun s' w' h' => ⟨?_, fun im state p fields m hh hr hm => ?_⟩⟩⟩
  · obtain ⟨htag, rfl⟩ := tagHash_eq_ok.mp h
    exact htag.exactHash
  · rw [unbox_inj (tagHash_unboxed h) (tagHash_unboxed h'), tagHash_inj h h']
  · rw [btag_aggregate hh hr (tagHash_unboxed h') hm]
    congr 3
    rw [Aggregate.isSexp, Bool.eq_iff_iff, Bool.and_eq_true, beq_iff_eq, beq_iff_eq, decide_eq_true_eq,
      tagHash_inj h h']

/-- The S-expression `mains_1 (7)` at the start of the heap. -/
def taggedState : State :=
  pairOnTop.withHeap (pairOnTop.mem.heap.setWords 0
    (Aggregate.header (.sexp (box 218403731) [box 7]) :: 0 ::
      Aggregate.contents (.sexp (box 218403731) [box 7])))

/-- It matches the tag `mains_2`. -/
theorem hashes_exactly_mains :
    ((∃ w, tagHash [109, 97, 105, 110, 115, 95, 49] = .ok w) ↔
      IsTag [109, 97, 105, 110, 115, 95, 49]) ∧
    ExactHash [109, 97, 105, 110, 115, 95, 49] (box 218403731) ∧
    btag sampleImage taggedState (contentWord taggedState.mem.heap 0) (box 218403731)
      (box (BitVec.ofNat 32 1)) = .ok (box 1) := by
  have h : tagHash [109, 97, 105, 110, 115, 95, 49] = .ok (box 218403731) := by decide +kernel
  have h' : tagHash [109, 97, 105, 110, 115, 95, 50] = .ok (box 218403731) := by decide +kernel
  have hplaced : HeapPlaced sampleImage taggedState.mem.heap :=
    ⟨Image.apart_of (by decide), by decide⟩
  have hr : Represents taggedState.mem.heap 0 (.sexp (box 218403731) [box 7]) :=
    represents_setWords (unboxed_box _) (by decide) (by decide)
  obtain ⟨hexact, hmatch⟩ := (hashes_exactly _).2 _ h
  exact ⟨(hashes_exactly _).1, hexact,
    ((hmatch _ _ h').2 sampleImage taggedState 0 [box 7] 1 hplaced hr (by decide)).trans (by decide)⟩

end Lama

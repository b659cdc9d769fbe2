import PlvmHomeworks.Tools.Frames
import PlvmHomeworks.Tools.Values

/-! The pattern instructions on every kind of value.

    `#val`, `#ref` and the four tag patterns look at the value alone. `=str` takes two operands, and
    `Bstring_patt` wants its second one to be a string: that is the one popped last, the scrutinee,
    and not the literal that the compiler puts on top of it. -/

namespace Lama
open Outcome

/-- The pattern that asks for this type. -/
def Pattern.ofType : LamaType → Pattern
  | .string => .stringTag
  | .array => .arrayTag
  | .sexp => .sexpTag
  | .closure => .closureTag

/-- The four patterns that ask for a type. -/
def tagPatterns : List Pattern := [.stringTag, .arrayTag, .sexpTag, .closureTag]

/-- What a pattern with one operand should answer about a value of this kind. -/
def singleAnswer (kind : Option LamaType) : Pattern → Bool
  | .unboxed => kind.isNone
  | .boxed => kind.isSome
  | .stringTag => kind == some .string
  | .arrayTag => kind == some .array
  | .sexpTag => kind == some .sexp
  | .closureTag => kind == some .closure
  | .string => false

theorem singleAnswer_boxed_iff (kind : Option LamaType) :
    singleAnswer kind .boxed = true ↔ singleAnswer kind .unboxed = false := by
  cases kind <;> simp [singleAnswer]

theorem singleAnswer_ofType (kind : Option LamaType) (type : LamaType) :
    singleAnswer kind (Pattern.ofType type) = true ↔ kind = some type := by
  cases type <;> exact beq_iff_eq

theorem mem_tagPatterns {pattern : Pattern} :
    pattern ∈ tagPatterns ↔ ∃ type, pattern = Pattern.ofType type := by
  constructor
  · intro h
    cases pattern with
    | stringTag => exact ⟨.string, rfl⟩
    | arrayTag => exact ⟨.array, rfl⟩
    | sexpTag => exact ⟨.sexp, rfl⟩
    | closureTag => exact ⟨.closure, rfl⟩
    | string | boxed | unboxed => exact absurd h (by decide)
  · rintro ⟨type, rfl⟩
    cases type <;> decide

/-- A value has a type exactly when one of the tag patterns says so. -/
theorem singleAnswer_existsUnique (kind : Option LamaType) : singleAnswer kind .boxed = true ↔
    ∃! pattern, pattern ∈ tagPatterns ∧ singleAnswer kind pattern = true := by
  constructor
  · intro h
    obtain ⟨type, rfl⟩ := Option.isSome_iff_exists.mp h
    refine ⟨Pattern.ofType type, ⟨mem_tagPatterns.mpr ⟨type, rfl⟩, (singleAnswer_ofType _ _).mpr rfl⟩, ?_⟩
    rintro pattern ⟨hmem, ha⟩
    obtain ⟨type', rfl⟩ := mem_tagPatterns.mp hmem
    rw [Option.some.inj ((singleAnswer_ofType _ _).mp ha)]
  · rintro ⟨pattern, ⟨hmem, ha⟩, -⟩
    obtain ⟨type, rfl⟩ := mem_tagPatterns.mp hmem
    rw [(singleAnswer_ofType _ _).mp ha]
    rfl

/-- The instruction pops what it asks about and pushes `a` as a boxed integer. -/
def Answers (im : Image) (s : State) (pattern : Pattern) (a : Bool) : Prop :=
  patt im s pattern = .ok ((s.drop (Inst.patt pattern).pops).push (box (boolWord a)))

/-- The patterns classify the value `v`, of this kind, and tell whether it is the string at `q`. -/
structure Classified (im : Image) (s : State) (objects : List ℕ) (v : Word) (kind : Option LamaType)
    (q : ℕ) : Prop where
  /-- The answers of the patterns that look at one operand. -/
  single : ∃ a : Pattern → Bool, (∀ pattern, pattern ≠ .string → Answers im (s.push v) pattern (a pattern)) ∧
    (a .boxed = true ↔ a .unboxed = false) ∧
    (a .boxed = true ↔ ∃! pattern, pattern ∈ tagPatterns ∧ a pattern = true) ∧
    ∀ type, a (Pattern.ofType type) = true ↔ kind = some type
  /-- The answer of `=str` with the literal above the value. -/
  string : ∃ b, Answers im ((s.push v).push (contentWord s.mem.heap q)) .string b ∧
    (b = true ↔ ∃ p ∈ objects, v = contentWord s.mem.heap p ∧ typeAt s.mem.heap p = some .string ∧
      chars s.mem.heap p = chars s.mem.heap q)

theorem Answers.unique {im : Image} {s : State} {pattern : Pattern} {a b : Bool}
    (ha : Answers im s pattern a) (hb : Answers im s pattern b) : a = b := by
  have hstate := Except.ok.inj (ha.symm.trans hb)
  have hram := congrArg (fun t : State => t.mem.ram (s.drop (Inst.patt pattern).pops).top) hstate
  simp only [State.push_ram, if_true] at hram
  exact box_boolWord_inj hram

variable {im : Image} {s : State} {objects : List ℕ} {v : Word} {kind : Option LamaType} {q : ℕ}

section
variable (hlo : im.vstack < s.top) (hhi : s.top < im.bottom)
include hlo hhi

/-- The value is popped again. -/
theorem pop_pushed : vstackPop im (s.push v) = .ok (v, (s.push v).drop 1) := by
  have htop : (s.push v).top + 1 = s.top := by
    rw [State.push_top]
    omega
  rw [vstackPop_of (by omega) (by omega), htop, State.push_ram, if_pos rfl]

theorem push_answer (w : Word) : vstackPush im ((s.push v).drop 1) w = .ok (((s.push v).drop 1).push w) := by
  have htop : ((s.push v).drop 1).top = s.top := by
    rw [State.drop_top, State.push_top]
    omega
  exact vstackPush_of (by rwa [htop]) (by rwa [htop])

theorem answers_unboxed : Answers im (s.push v) .unboxed (unboxed v) := by
  rw [Answers, patt, pop_pushed hlo hhi]
  exact push_answer hlo hhi _

theorem answers_boxed : Answers im (s.push v) .boxed (!unboxed v) := by
  rw [Answers, patt, pop_pushed hlo hhi]
  exact push_answer hlo hhi _

theorem answers_tag (hs : Objects s.mem.heap objects) (hap : im.Apart s.mem.heap)
    (hv : IsValue s.mem.heap objects v kind) (type : LamaType) :
    Answers im (s.push v) (Pattern.ofType type) (kind == some type) := by
  have htag : tagPatt im ((s.push v).drop 1) type.tag v = .ok (box (boolWord (kind == some type))) := by
    cases hv with
    | int hu =>
      rw [tagPatt, if_pos hu]
      cases type <;> rfl
    | @object p type' hp ht =>
      have htag : tagWord im ((s.push (contentWord s.mem.heap p)).drop 1) (contentWord s.mem.heap p) =
          .ok type'.tag := by
        rw [← ofTag_eq_some_iff.mp ht]
        exact tagWord_content ⟨hap, hs.fits⟩ (hs.object hp)
      rw [tagPatt, unboxed_contentWord, if_neg Bool.false_ne_true, htag]
      cases type' <;> cases type <;> rfl
  cases type
  all_goals
    rw [Answers, Pattern.ofType, patt, pop_pushed hlo hhi, ok_bind]
    exact bind_eq_ok.mpr ⟨_, htag, push_answer hlo hhi _⟩

/-- The answers of the patterns that look at one operand. -/
theorem answers_single (hs : Objects s.mem.heap objects) (hap : im.Apart s.mem.heap)
    (hv : IsValue s.mem.heap objects v kind) (pattern : Pattern) (hne : pattern ≠ .string) :
    Answers im (s.push v) pattern (singleAnswer kind pattern) := by
  have hboxed : unboxed v = kind.isNone := by
    cases hv with
    | int hu => exact hu
    | object => exact unboxed_contentWord
  cases pattern with
  | string => exact absurd rfl hne
  | boxed =>
    have h := answers_boxed (v := v) hlo hhi
    rwa [hboxed, Option.not_isNone] at h
  | unboxed =>
    have h := answers_unboxed (v := v) hlo hhi
    rwa [hboxed] at h
  | stringTag => exact answers_tag hlo hhi hs hap hv .string
  | arrayTag => exact answers_tag hlo hhi hs hap hv .array
  | sexpTag => exact answers_tag hlo hhi hs hap hv .sexp
  | closureTag => exact answers_tag hlo hhi hs hap hv .closure

end

/-! ### Strings -/

section
variable (hs : Objects s.mem.heap objects) (hap : im.Apart s.mem.heap) (hq : q ∈ objects)
  (hlit : typeAt s.mem.heap q = some .string)
include hs hap hq hlit

/-- Two strings are compared up to their first NULs. -/
theorem stringPatt_string {p : ℕ} (hterm : Terminated s.mem.heap objects) (hp : p ∈ objects)
    (ht : typeAt s.mem.heap p = some .string) :
    stringPatt im s (contentWord s.mem.heap q) (contentWord s.mem.heap p) =
      .ok (box (boolWord (beforeNul s.mem.heap q == beforeNul s.mem.heap p))) := by
  have htag : ∀ {r : ℕ}, r ∈ objects → typeAt s.mem.heap r = some .string →
      tagWord im s (contentWord s.mem.heap r) = .ok stringTag := fun hr htr => by
    rw [tagWord_content ⟨hap, hs.fits⟩ (hs.object hr), ofTag_eq_some_iff.mp htr]
    rfl
  unfold stringPatt
  rw [unboxed_contentWord, unboxed_contentWord]
  simp only [Bool.not_false, if_true, htag hp ht]
  rw [ok_bind, ensure_of rfl, ok_bind, if_neg Bool.false_ne_true, htag hq hlit, ok_bind,
    if_neg (not_not.mpr rfl), derefPtr_content ⟨hap, hs.fits⟩ (hs.object hq), ok_bind,
    heapString_string hap hs hq hterm hlit, ok_bind,
    derefPtr_content ⟨hap, hs.fits⟩ (hs.object hp), ok_bind, heapString_string hap hs hp hterm ht]
  rfl

/-- The scrutinee has to be a string. -/
theorem stringPatt_ok {w : Word} (hv : IsValue s.mem.heap objects v kind)
    (h : stringPatt im s (contentWord s.mem.heap q) v = .ok w) :
    ∃ p ∈ objects, v = contentWord s.mem.heap p ∧ typeAt s.mem.heap p = some .string := by
  cases hv with
  | int hu =>
    -- nothing asks whether the scrutinee is a pointer before its characters are read
    unfold stringPatt at h
    rw [hu, unboxed_contentWord] at h
    obtain ⟨t, ht, h⟩ := bind_eq_ok.mp h
    rw [tagWord_content ⟨hap, hs.fits⟩ (hs.object hq), ofTag_eq_some_iff.mp hlit] at ht
    cases ht
    rw [if_neg (show ¬ LamaType.string.tag ≠ stringTag from not_not.mpr rfl)] at h
    obtain ⟨_, -, h⟩ := bind_eq_ok.mp h
    obtain ⟨_, -, h⟩ := bind_eq_ok.mp h
    obtain ⟨a, ha, -⟩ := bind_eq_ok.mp h
    have hodd := (unboxed_iff v).mp hu
    rw [derefPtr, aligned, if_neg (by omega)] at ha
    cases ha
  | @object p type hp ht =>
    refine ⟨p, hp, rfl, ?_⟩
    unfold stringPatt at h
    simp only [unboxed_contentWord, Bool.not_false, if_true] at h
    obtain ⟨t, htag, h⟩ := bind_eq_ok.mp h
    obtain ⟨_, hstring, -⟩ := bind_eq_ok.mp h
    have hstring := ensure_eq_ok.mp hstring
    rw [tagWord_content ⟨hap, hs.fits⟩ (hs.object hp)] at htag
    cases htag
    exact ofTag_eq_some_iff.mpr hstring

end

/-- The literal is popped first, and `Bstring_patt` gets it as its first argument. -/
theorem patt_string {lit : Word} {s' : State} (hlo : im.vstack < s.top) (hhi : s.top < im.bottom) :
    patt im ((s.push v).push lit) .string = .ok s' ↔
      ∃ w, stringPatt im (((s.push v).push lit).drop 2) lit v = .ok w ∧
        s' = (((s.push v).push lit).drop 2).push w := by
  have hpos := im.vstack_pos
  have htop₁ : (s.push v).top + 1 = s.top := by
    rw [State.push_top]
    omega
  have htop₂ : ((s.push v).push lit).top + 1 = (s.push v).top := by
    rw [State.push_top]
    omega
  have hpop : vstackPop im ((s.push v).push lit) = .ok (lit, ((s.push v).push lit).drop 1) := by
    rw [vstackPop_of (by omega) (by omega), htop₂, State.push_ram, if_pos rfl]
  have hdrop₁ : (((s.push v).push lit).drop 1).top + 1 = s.top := by
    rw [State.drop_top]
    omega
  have hdrop₂ : (((s.push v).push lit).drop 2).top = s.top := by
    rw [State.drop_top]
    omega
  have hpop' : vstackPop im (((s.push v).push lit).drop 1) = .ok (v, ((s.push v).push lit).drop 2) := by
    rw [vstackPop_of (by omega) (by omega), hdrop₁, State.drop_drop, State.drop_mem, State.push_ram,
      if_neg (by omega), State.push_ram, if_pos rfl]
  have hpush : ∀ w, vstackPush im (((s.push v).push lit).drop 2) w =
      .ok ((((s.push v).push lit).drop 2).push w) := fun w => vstackPush_of (by omega) (by omega)
  rw [patt, hpop, ok_bind]
  simp only [hpop', ok_bind, hpush]
  rw [bind_eq_ok]
  simp only [Except.ok.injEq, @eq_comm _ s']

/-- The patterns do what they should exactly when the scrutinee is a string, and one that differs from
    the literal before a NUL if it differs at all. -/
theorem patterns_classify_iff (hlo : im.vstack < s.top) (hhi : s.top < im.bottom)
    (hs : Objects s.mem.heap objects) (hterm : Terminated s.mem.heap objects)
    (hap : im.Apart s.mem.heap) (hv : IsValue s.mem.heap objects v kind) (hq : q ∈ objects)
    (hlit : typeAt s.mem.heap q = some .string) :
    Classified im s objects v kind q ↔
      ∃ p ∈ objects, v = contentWord s.mem.heap p ∧ typeAt s.mem.heap p = some .string ∧
        (beforeNul s.mem.heap p = beforeNul s.mem.heap q → chars s.mem.heap p = chars s.mem.heap q) := by
  have hanswer : ∀ {p : ℕ}, p ∈ objects → typeAt s.mem.heap p = some .string →
      Answers im ((s.push (contentWord s.mem.heap p)).push (contentWord s.mem.heap q)) .string
        (beforeNul s.mem.heap q == beforeNul s.mem.heap p) := fun hp ht =>
    (patt_string hlo hhi).mpr ⟨_, stringPatt_string (s := ((s.push _).push _).drop 2) hs hap hq hlit hterm
      hp ht, rfl⟩
  constructor
  · intro h
    obtain ⟨b, hb, hbiff⟩ := h.string
    obtain ⟨w, hw, -⟩ := (patt_string hlo hhi).mp hb
    obtain ⟨p, hp, rfl, ht⟩ : ∃ p ∈ objects, v = contentWord s.mem.heap p ∧
        typeAt s.mem.heap p = some .string :=
      stringPatt_ok (s := ((s.push _).push _).drop 2) hs hap hq hlit hv hw
    refine ⟨p, hp, rfl, ht, fun heq => ?_⟩
    have hb' := hb.unique (hanswer hp ht)
    obtain ⟨p', hp', hpp, -, hchars⟩ := hbiff.mp (by rw [hb', heq]; exact beq_self_eq_true _)
    rwa [hs.contentWord_inj hp hp' hpp]
  · rintro ⟨p, hp, rfl, ht, hsame⟩
    refine ⟨⟨_, answers_single hlo hhi hs hap hv, singleAnswer_boxed_iff kind,
      singleAnswer_existsUnique kind, singleAnswer_ofType kind⟩, _, hanswer hp ht, ?_⟩
    rw [beq_iff_eq]
    constructor
    · exact fun heq => ⟨p, hp, rfl, ht, hsame heq.symm⟩
    · rintro ⟨p', hp', hpp, -, hchars⟩
      rw [hs.contentWord_inj hp hp' hpp, beforeNul, beforeNul, hchars]

/-- A heap with the string `ab` twice and an empty array. -/
def stringsHeap : MemoryChunk where
  begin := sampleHeap
  end_ := sampleHeap + 16
  current := sampleHeap + 8
  size := 16
  words k := [17, 0, 25185, 17, 0, 25185, 3, 0].getD k 0

theorem stringsHeap_objects : Objects stringsHeap [0, 3, 6] where
  tiles := ⟨rfl, by decide, rfl, by decide, rfl, by decide, rfl⟩
  begin_le := by decide
  current_le := by decide
  span := by decide
  fits := by decide

theorem stringsHeap_terminated : Terminated stringsHeap [0, 3, 6] := by
  unfold Terminated
  decide

theorem stringsHeap_apart : sampleImage.Apart stringsHeap := Image.apart_of (by decide)

/-- The state in which the scrutinee is pushed. -/
def stringsState : State where
  ip := none
  top := 60000
  globalsCount := 0
  cstack _ := ⟨none, false, 0, 0, 0⟩
  ctop := 0
  mem := ⟨fun _ => 0, stringsHeap⟩
  out := []

theorem patterns_classify_iff_equal :
    Classified sampleImage stringsState [0, 3, 6] (contentWord stringsHeap 0) (some .string) 3 ↔
      ∃ p ∈ [0, 3, 6], contentWord stringsHeap 0 = contentWord stringsHeap p ∧
        typeAt stringsHeap p = some .string ∧
        (beforeNul stringsHeap p = beforeNul stringsHeap 3 → chars stringsHeap p = chars stringsHeap 3) :=
  patterns_classify_iff (s := stringsState) (by decide) (by decide) stringsHeap_objects stringsHeap_terminated
    stringsHeap_apart (.object (by decide) (by decide)) (by decide) (by decide)

/-- An integer and an empty array below the literal: the first is read as the address of a string, the
    second ends the program. -/
theorem notString_unclassified :
    patt sampleImage ((stringsState.push (box 7)).push (contentWord stringsHeap 3)) .string =
        .error (.undefined "misaligned pointer") ∧
      patt sampleImage ((stringsState.push (contentWord stringsHeap 6)).push (contentWord stringsHeap 3))
        .string = .error (.fail "string value expected in .string_patt:2\n" []) ∧
      ¬ Classified sampleImage stringsState [0, 3, 6] (box 7) none 3 ∧
      ¬ Classified sampleImage stringsState [0, 3, 6] (contentWord stringsHeap 6) (some .array) 3 := by
  have hint : patt sampleImage ((stringsState.push (box 7)).push (contentWord stringsHeap 3)) .string =
      .error (.undefined "misaligned pointer") := by
    refine error_of_map_eq_error (g := fun _ => ()) ?_
    decide +kernel
  have harray : patt sampleImage ((stringsState.push (contentWord stringsHeap 6)).push
      (contentWord stringsHeap 3)) .string =
        .error (.fail "string value expected in .string_patt:2\n" []) := by
    refine error_of_map_eq_error (g := fun _ => ()) ?_
    decide +kernel
  refine ⟨hint, harray, fun h => ?_, fun h => ?_⟩
  · obtain ⟨b, hb, -⟩ := h.string
    cases hint.symm.trans hb
  · obtain ⟨b, hb, -⟩ := h.string
    cases harray.symm.trans hb

end Lama

import Mathlib.Data.List.TakeWhile
import PlvmHomeworks.Library.Values

/-! `Lcompare`: the structural comparison of `runtime.c`.

    Its answer depends on the values alone. It tells equal values from different ones as long as the
    raw words in them are not `2^31` apart, and orders them as long as no difference is so large that
    `BOX` turns its sign. On a cyclic value it may not return. -/

namespace Lama
open Unfolding

/-! ### The code -/

/-- `strcmp`, of the characters in front of the NULs. -/
def strcmp : List Word → List Word → Word
  | [], [] => 0
  | [], b :: _ => 0 - b
  | a :: _, [] => a
  | a :: s, b :: t => if a = b then strcmp s t else a - b

/-- The loop of `Lcompare` over `n` words of the contents, from word `i` on. -/
def compareContents (h : MemoryChunk) (compare : Word → Word → Option Word) (a b : ℕ) :
    ℕ → ℕ → Option Word
  | 0, _ => some (box 0)
  | n + 1, i => do
    let c ← compare (← h.load (ptrAdd a i)) (← h.load (ptrAdd b i))
    if c ≠ box 0 then return c
    compareContents h compare a b n (i + 1)

/-- `Lcompare`, with a bound on how deep the calls nest; `none` is a value that is too deep, or the
    failure on an unknown header. -/
def lcompare (h : MemoryChunk) : ℕ → Word → Word → Option Word
  | 0, _, _ => none
  | depth + 1, p, q =>
    if p = q then some (box 0)
    else if unboxed p then
      if unboxed q then some (box (unbox p - unbox q)) else some (box (-1))
    else if unboxed q then some (box 1)
    else if isValidHeapPointer h p then
      if isValidHeapPointer h q then do
        let a ← aligned p
        let b ← aligned q
        let ha ← h.load (ptrAdd a (-2))
        let hb ← h.load (ptrAdd b (-2))
        let la := lenOf ha
        let lb := lenOf hb
        if tagOf ha ≠ tagOf hb then return box (tagOf ha - tagOf hb)
        match LamaType.ofTag (tagOf ha) with
        | some .string => return box (strcmp (← cStringOf h a) (← cStringOf h b))
        | some .closure =>
          let ea ← h.load (ptrAdd a (0 : ℕ))
          let eb ← h.load (ptrAdd b (0 : ℕ))
          if ea ≠ eb then return box (ea - eb)
          if la ≠ lb then return box (BitVec.ofNat 32 la - BitVec.ofNat 32 lb)
          compareContents h (lcompare h depth) a b (la - 1) 1
        | some .array =>
          if la ≠ lb then return box (BitVec.ofNat 32 la - BitVec.ofNat 32 lb)
          compareContents h (lcompare h depth) a b la 0
        | some .sexp =>
          let ta ← h.load (ptrAdd a (0 : ℕ))
          let tb ← h.load (ptrAdd b (0 : ℕ))
          if ta ≠ tb then return box (ta - tb)
          if la ≠ lb then return box (BitVec.ofNat 32 la - BitVec.ofNat 32 lb)
          compareContents h (lcompare h depth) a b la 1
        | none => none
      else some (box (-1))
    else if isValidHeapPointer h q then some (box 1)
    else some (box (p - q))

/-! ### The comparison of values -/

/-- A string as `strcmp` sees it. -/
def cut (s : List Word) : List Word := s.takeWhile (· ≠ 0)

/-- What the labels of two values and the numbers of their fields decide; `none` leaves it to the
    fields. -/
def compareLabels (k l : ℕ) : Label → Label → Option Word
  | .int v, .int w => some (box (unbox v - unbox w))
  | .int _, _ => some (box (-1))
  | _, .int _ => some (box 1)
  | .foreign p, .foreign q => some (box (p - q))
  | .foreign _, _ => some (box 1)
  | _, .foreign _ => some (box (-1))
  | .string s, .string t => some (box (strcmp (cut s) (cut t)))
  | .string _, .object type _ => some (box (stringTag - type.tag))
  | .object type _, .string _ => some (box (type.tag - stringTag))
  | .object type a, .object type' b =>
    if type ≠ type' then some (box (type.tag - type'.tag))
    else if a ≠ b then some (box (a - b))
    else if k ≠ l then some (box (BitVec.ofNat 32 k - BitVec.ofNat 32 l))
    else none

variable {V : Type*}

/-- The first fields that differ decide. -/
def compareFields (compare : V → V → Option Word) : List V → List V → Option Word
  | x :: xs, y :: ys => do
    let c ← compare x y
    if c ≠ box 0 then return c
    compareFields compare xs ys
  | _, _ => some (box 0)

/-- The comparison of two vertices of a view. -/
def compareValues [DecidableEq V] (view : View V Label) : ℕ → V → V → Option Word
  | 0, _, _ => none
  | depth + 1, x, y =>
    if x = y then some (box 0)
    else match compareLabels (view x).2.length (view y).2.length (view x).1 (view y).1 with
      | some c => some c
      | none => compareFields (compareValues view depth) (view x).2 (view y).2

variable {h : MemoryChunk} {S : Set Word} {p q : ℕ} {v w : Word} {type : LamaType}

/-- `compareContents` goes over the fields. -/
theorem compareContents_eq (hop : ReadableObject h p) (hoq : ReadableObject h q)
    (compare : Word → Word → Option Word) : ∀ {n i : ℕ},
    headerSize + i + n ≤ objectWords (h.words p) → headerSize + i + n ≤ objectWords (h.words q) →
    compareContents h compare (h.begin + p + headerSize) (h.begin + q + headerSize) n i =
      compareFields compare ((List.range' i n).map (contentAt h p))
        ((List.range' i n).map (contentAt h q)) := by
  intro n
  induction n with
  | zero => intro i _ _; rfl
  | succ n ih =>
    intro i hp hq
    rw [compareContents, hop.load (by omega), hoq.load (by omega), List.range'_succ, List.map_cons,
      List.map_cons, compareFields, ih (by omega) (by omega)]
    rfl

theorem compareFields_congr {compare compare' : V → V → Option Word} : ∀ {xs ys : List V},
    (∀ x ∈ xs, ∀ y ∈ ys, compare x y = compare' x y) →
      compareFields compare xs ys = compareFields compare' xs ys
  | [], ys, _ => by cases ys <;> rfl
  | _ :: _, [], _ => rfl
  | x :: xs, y :: ys, heq => by
    have ih : compareFields compare xs ys = compareFields compare' xs ys :=
      compareFields_congr fun a ha b hb =>
        heq a (List.mem_cons_of_mem _ ha) b (List.mem_cons_of_mem _ hb)
    rw [compareFields, compareFields, heq x List.mem_cons_self y List.mem_cons_self, ih]

theorem LamaType.tag_inj {type type' : LamaType} : type.tag = type'.tag ↔ type = type' := by
  cases type <;> cases type' <;> decide

/-- Two aggregates of one type and with the same head: the lengths, and then the fields. -/
theorem compareRest (compare : Word → Word → Option Word) (hop : ReadableObject h p)
    (hoq : ReadableObject h q) (ht : typeAt h p = some type) (ht' : typeAt h q = some type)
    (hne : type ≠ .string) :
    (if lenOf (h.words p) ≠ lenOf (h.words q) then
        some (box (BitVec.ofNat 32 (lenOf (h.words p)) - BitVec.ofNat 32 (lenOf (h.words q))))
      else compareContents h compare (h.begin + p + headerSize) (h.begin + q + headerSize)
        (type.fieldCount (lenOf (h.words p))) type.firstIndex) =
    (match (if (fieldWords h p).length ≠ (fieldWords h q).length then
        some (box (BitVec.ofNat 32 (fieldWords h p).length - BitVec.ofNat 32 (fieldWords h q).length))
        else none : Option Word) with
      | some c => some c
      | none => compareFields compare (fieldWords h p) (fieldWords h q)) := by
  have hlen := hop.fieldWords_length ht hne
  have hlen' := hoq.fieldWords_length ht' hne
  by_cases heq : lenOf (h.words p) = lenOf (h.words q)
  · have hcount : (fieldWords h p).length = (fieldWords h q).length := by rw [hlen, hlen', heq]
    obtain ⟨-, hwords⟩ := hop.shape ht hne
    obtain ⟨-, hwords'⟩ := hoq.shape ht' hne
    rw [← heq] at hwords'
    rw [if_neg (not_not_intro heq), if_neg (not_not_intro hcount),
      compareContents_eq hop hoq compare (Nat.le_of_eq hwords.symm) (Nat.le_of_eq hwords'.symm),
      hop.fieldWords ht hne, hoq.fieldWords ht' hne, ← heq]
  · have hdiff : lenOf (h.words p) ≠ lenOf (h.words q) := heq
    have hcount : (fieldWords h p).length ≠ (fieldWords h q).length ∧
        BitVec.ofNat 32 (lenOf (h.words p)) - BitVec.ofNat 32 (lenOf (h.words q)) =
          BitVec.ofNat 32 (fieldWords h p).length - BitVec.ofNat 32 (fieldWords h q).length := by
      rw [hlen, hlen']
      cases type with
      | string => exact absurd rfl hne
      | array => exact ⟨hdiff, rfl⟩
      | sexp => exact ⟨hdiff, rfl⟩
      | closure =>
        -- the entry counts on both sides
        have hpos := hop.entry ht
        have hpos' := hoq.entry ht'
        simp only [LamaType.fieldCount]
        refine ⟨by omega, ?_⟩
        bv_omega
    rw [if_pos hdiff, if_pos hcount.1, hcount.2]

/-- Two objects. -/
theorem lcompare_objects {depth : ℕ} (hop : ReadableObject h p) (hoq : ReadableObject h q)
    (hne : contentWord h p ≠ contentWord h q)
    (hfields : ∀ x ∈ fieldWords h p, ∀ y ∈ fieldWords h q,
      lcompare h depth x y = compareValues (valueView h) depth x y) :
    lcompare h (depth + 1) (contentWord h p) (contentWord h q) =
      compareValues (valueView h) (depth + 1) (contentWord h p) (contentWord h q) := by
  obtain ⟨type, ht, -⟩ := objectWords_spec hop.object.pos
  obtain ⟨type', ht', -⟩ := objectWords_spec hoq.object.pos
  have htag := ofTag_eq_some_iff.mp ht
  have htag' := ofTag_eq_some_iff.mp ht'
  have hcongr := compareFields_congr hfields
  rw [lcompare, if_neg hne, compareValues, if_neg hne, hop.view, hoq.view, labelAt, labelAt,
    show typeAt h p = some type from ht, show typeAt h q = some type' from ht']
  simp only [unboxed_contentWord, hop.valid, hoq.valid, hop.aligned, hoq.aligned, hop.load_header,
    hoq.load_header, htag, htag', Bool.false_eq_true, if_false, if_true, Option.bind_eq_bind,
    Option.bind_some, ne_eq, LamaType.tag_inj, ofTag_eq_some_iff.mpr rfl]
  by_cases htt : type = type'
  · subst htt
    rw [if_neg (not_not_intro rfl)]
    cases type with
    | string =>
      rw [hop.cStringOf ht, hoq.cStringOf ht']
      rfl
    | array =>
      have hrest := compareRest (lcompare h depth) hop hoq ht ht' (by decide)
      rw [hcongr] at hrest
      exact hrest
    | sexp =>
      have hrest := compareRest (lcompare h depth) hop hoq ht ht' (by decide)
      rw [hcongr] at hrest
      rw [hop.load_head ht rfl (by decide), hoq.load_head ht' rfl (by decide)]
      simp only [Option.bind_some, compareLabels, ne_eq, not_true, if_false]
      by_cases hhead : contentAt h p 0 = contentAt h q 0
      · rw [if_neg (not_not_intro hhead), if_neg (not_not_intro hhead)]
        exact hrest
      · rw [if_pos hhead, if_pos hhead]
        rfl
    | closure =>
      have hrest := compareRest (lcompare h depth) hop hoq ht ht' (by decide)
      rw [hcongr] at hrest
      rw [hop.load_head ht rfl (by decide), hoq.load_head ht' rfl (by decide)]
      simp only [Option.bind_some, compareLabels, ne_eq, not_true, if_false]
      by_cases hhead : contentAt h p 0 = contentAt h q 0
      · rw [if_neg (not_not_intro hhead), if_neg (not_not_intro hhead)]
        exact hrest
      · rw [if_pos hhead, if_pos hhead]
        rfl
  · rw [if_pos htt]
    cases type <;> cases type' <;> first | exact absurd rfl htt | rfl

section Kinds
variable {k l : ℕ}

theorem compareLabels_int_left : compareLabels k l (.int v) (labelAt h p) = some (box (-1)) := by
  unfold labelAt
  split <;> rfl

theorem compareLabels_int_right : compareLabels k l (labelAt h p) (.int v) = some (box 1) := by
  unfold labelAt
  split <;> rfl

theorem compareLabels_foreign_left : compareLabels k l (.foreign v) (labelAt h p) = some (box 1) := by
  unfold labelAt
  split <;> rfl

theorem compareLabels_foreign_right : compareLabels k l (labelAt h p) (.foreign v) = some (box (-1)) := by
  unfold labelAt
  split <;> rfl

end Kinds

/-- On words that can be read, `Lcompare` is the comparison of their values. -/
theorem lcompare_eq {depth : ℕ} (hS : Readable h S) (hv : v ∈ S) (hw : w ∈ S) :
    lcompare h depth v w = compareValues (valueView h) depth v w := by
  induction depth generalizing v w with
  | zero => rfl
  | succ depth ih =>
    by_cases heq : v = w
    · rw [lcompare, if_pos heq, compareValues, if_pos heq]
    cases hS v hv with
    | int hu =>
      cases hS w hw with
      | int hu' =>
        rw [lcompare, if_neg heq, if_pos hu, if_pos hu', compareValues, if_neg heq, valueView_int hu,
          valueView_int hu']
        rfl
      | foreign hu' hf' =>
        rw [lcompare, if_neg heq, if_pos hu, if_neg (by simp [hu']), compareValues, if_neg heq,
          valueView_int hu, valueView_foreign hu' hf']
        rfl
      | object hoq =>
        rw [lcompare, if_neg heq, if_pos hu, if_neg (by simp [unboxed_contentWord]), compareValues,
          if_neg heq, valueView_int hu, hoq.view, compareLabels_int_left]
    | foreign hu hf =>
      cases hS w hw with
      | int hu' =>
        rw [lcompare, if_neg heq, if_neg (by simp [hu]), if_pos hu', compareValues, if_neg heq,
          valueView_foreign hu hf, valueView_int hu']
        rfl
      | foreign hu' hf' =>
        rw [lcompare, if_neg heq, if_neg (by simp [hu]), if_neg (by simp [hu']), if_neg (by simp [hf]),
          if_neg (by simp [hf']), compareValues, if_neg heq, valueView_foreign hu hf,
          valueView_foreign hu' hf']
        rfl
      | object hoq =>
        rw [lcompare, if_neg heq, if_neg (by simp [hu]), if_neg (by simp [unboxed_contentWord]),
          if_neg (by simp [hf]), if_pos hoq.valid, compareValues, if_neg heq, valueView_foreign hu hf,
          hoq.view, compareLabels_foreign_left]
    | object hop hfields =>
      cases hS w hw with
      | int hu' =>
        rw [lcompare, if_neg heq, if_neg (by simp [unboxed_contentWord]), if_pos hu', compareValues,
          if_neg heq, valueView_int hu', hop.view, compareLabels_int_right]
      | foreign hu' hf' =>
        rw [lcompare, if_neg heq, if_neg (by simp [unboxed_contentWord]), if_neg (by simp [hu']),
          if_pos hop.valid, if_neg (by simp [hf']), compareValues, if_neg heq,
          valueView_foreign hu' hf', hop.view, compareLabels_foreign_right]
      | object hoq hfields' =>
        exact lcompare_objects hop hoq heq fun x hx y hy => ih (hfields x hx) (hfields' y hy)

/-! ### Equality -/

/-- A label as `Lcompare` sees it. -/
def Label.cut : Label → Label
  | .string s => .string (Lama.cut s)
  | a => a

/-- The label of a value: integers are odd words, the characters of a string are bytes, and a string is
    no aggregate. -/
def Label.Sound : Label → Prop
  | .int v => unboxed v = true
  | .foreign _ => True
  | .string s => ∀ c ∈ s, c.toNat < 256
  | .object type _ => type ≠ .string

/-- The raw words of a value are below this bound. -/
def Label.Below (bound : ℕ) : Label → Prop
  | .foreign p => p.toNat < bound
  | .object _ head => head.toNat < bound
  | _ => True

def cutView (view : View V Label) : View V Label := fun x => ((view x).1.cut, (view x).2)

/-- The values are equal but for what is behind the NULs of their strings. -/
def EqualValues (h : MemoryChunk) (v w : Word) : Prop :=
  Same (cutView (valueView h)) (cutView (valueView h)) v w

theorem box_eq_box_zero_iff {x : Word} : box x = box 0 ↔ x.toNat % 2 ^ 31 = 0 := by
  rw [← BitVec.toNat_inj, box_toNat, box_toNat, show (0 : Word).toNat = 0 from rfl]
  omega

theorem sub_toNat_mod {a b : Word} (ha : a.toNat < 2 ^ 31) (hb : b.toNat < 2 ^ 31) :
    (a - b).toNat % 2 ^ 31 = 0 ↔ a = b := by
  rw [← BitVec.toNat_inj, BitVec.toNat_sub]
  omega

/-- An integer is twice its value and one. -/
theorem toInt_of_unboxed {v : Word} (hv : unboxed v = true) : v.toInt = 2 * (unbox v).toInt + 1 := by
  have hodd := (unboxed_iff v).mp hv
  have hlt := v.isLt
  rw [unbox, BitVec.toInt_sshiftRight, Int.shiftRight_eq_div_pow, BitVec.toInt_eq_toNat_cond]
  split <;> omega

theorem unbox_toInt_inj {v w : Word} (hv : unboxed v = true) (hw : unboxed w = true) :
    (unbox v).toInt = (unbox w).toInt ↔ v = w := by
  rw [← BitVec.toInt_inj, toInt_of_unboxed hv, toInt_of_unboxed hw]
  omega

/-- The difference of two integers keeps 31 bits. -/
theorem unbox_sub_zero_iff {v w : Word} (hv : unboxed v = true) (hw : unboxed w = true) :
    (unbox v - unbox w).toNat % 2 ^ 31 = 0 ↔ v = w := by
  obtain ⟨hlo, hhi⟩ := unbox_range v
  obtain ⟨hlo', hhi'⟩ := unbox_range w
  have hlt := (unbox v).isLt
  have hlt' := (unbox w).isLt
  rw [← unbox_toInt_inj hv hw, BitVec.toNat_sub]
  rw [BitVec.toInt_eq_toNat_cond] at *
  rw [BitVec.toInt_eq_toNat_cond (x := unbox w)] at *
  split at hlo <;> split at hlo' <;> simp_all <;> omega

/-- `strcmp` finds nothing exactly in equal strings. -/
theorem strcmp_zero_iff : ∀ {s t : List Word}, (∀ c ∈ s, c.toNat < 256 ∧ c ≠ 0) →
    (∀ c ∈ t, c.toNat < 256 ∧ c ≠ 0) → ((strcmp s t).toNat % 2 ^ 31 = 0 ↔ s = t)
  | [], [], _, _ => iff_of_true rfl rfl
  | [], b :: t, _, ht => by
    obtain ⟨hlt, hne⟩ := ht b List.mem_cons_self
    rw [strcmp, sub_toNat_mod (by decide) (by omega)]
    exact iff_of_false (Ne.symm hne) (List.cons_ne_nil b t).symm
  | a :: s, [], hs, _ => by
    obtain ⟨hlt, hne⟩ := hs a List.mem_cons_self
    have hpos : a.toNat ≠ 0 := fun h0 => hne (BitVec.eq_of_toNat_eq h0)
    rw [strcmp]
    exact iff_of_false (by omega) (List.cons_ne_nil a s)
  | a :: s, b :: t, hs, ht => by
    rw [strcmp]
    split
    · next hab =>
      rw [strcmp_zero_iff (fun c hc => hs c (List.mem_cons_of_mem _ hc))
        fun c hc => ht c (List.mem_cons_of_mem _ hc), hab, List.cons.injEq]
      exact (and_iff_right rfl).symm
    · next hab =>
      have hlt := (hs a List.mem_cons_self).1
      have hlt' := (ht b List.mem_cons_self).1
      rw [sub_toNat_mod (by omega) (by omega)]
      exact iff_of_false hab fun h => hab (List.cons.inj h).1

theorem strcmp_self : ∀ s : List Word, strcmp s s = 0
  | [] => rfl
  | a :: s => by rw [strcmp, if_pos rfl, strcmp_self s]

theorem cut_bytes {s : List Word} (hs : ∀ c ∈ s, c.toNat < 256) :
    ∀ c ∈ cut s, c.toNat < 256 ∧ c ≠ 0 := fun c hc =>
  ⟨hs c (List.takeWhile_subset _ hc), by simpa using List.mem_takeWhile_imp hc⟩

section Labels
variable {k l : ℕ} {a b : Label} {c : Word}

/-- The labels leave it to the fields of objects that look alike. -/
theorem compareLabels_none (hn : compareLabels k l a b = none) :
    ∃ type head, a = .object type head ∧ b = .object type head ∧ k = l := by
  cases a <;> cases b <;> simp only [compareLabels, reduceCtorEq] at hn
  next type head type' head' =>
    split at hn
    · cases hn
    · next htype =>
      split at hn
      · cases hn
      · next hhead =>
        split at hn
        · cases hn
        · next hk =>
          rw [not_not] at htype hhead hk
          exact ⟨type, head, rfl, by rw [htype, hhead], hk⟩

theorem LamaType.tag_sub_zero_iff {type type' : LamaType} :
    (type.tag - type'.tag).toNat % 2 ^ 31 = 0 ↔ type = type' := by
  have hlt := type.tag_lt
  have hlt' := type'.tag_lt
  rw [sub_toNat_mod (by omega) (by omega), LamaType.tag_inj]

/-- Where the labels decide for equality, they are equal and there are no fields. -/
theorem compareLabels_zero (hs : a.Sound) (hs' : b.Sound) (hbelow : a.Below (2 ^ 31))
    (hbelow' : b.Below (2 ^ 31)) (hk : k < 2 ^ 31) (hl : l < 2 ^ 31)
    (hz : compareLabels k l a b = some (box 0)) :
    a.cut = b.cut ∧ (∀ type head, a ≠ .object type head) ∧ ∀ type head, b ≠ .object type head := by
  cases a with
  | int v =>
    cases b with
    | int w =>
      rw [compareLabels, Option.some.injEq, box_eq_box_zero_iff, unbox_sub_zero_iff hs hs'] at hz
      subst hz
      exact ⟨rfl, nofun, nofun⟩
    | _ => exact absurd (Option.some.inj hz) (by decide)
  | foreign p =>
    cases b with
    | foreign q =>
      rw [compareLabels, Option.some.injEq, box_eq_box_zero_iff, sub_toNat_mod hbelow hbelow'] at hz
      subst hz
      exact ⟨rfl, nofun, nofun⟩
    | _ => exact absurd (Option.some.inj hz) (by decide)
  | string s =>
    cases b with
    | string t =>
      rw [compareLabels, Option.some.injEq, box_eq_box_zero_iff,
        strcmp_zero_iff (cut_bytes hs) (cut_bytes hs')] at hz
      exact ⟨congrArg Label.string hz, nofun, nofun⟩
    | object type head =>
      rw [compareLabels, Option.some.injEq, box_eq_box_zero_iff,
        show stringTag = LamaType.string.tag from rfl, LamaType.tag_sub_zero_iff] at hz
      exact absurd hz.symm hs'
    | _ => exact absurd (Option.some.inj hz) (by decide)
  | object type head =>
    cases b with
    | string t =>
      rw [compareLabels, Option.some.injEq, box_eq_box_zero_iff,
        show stringTag = LamaType.string.tag from rfl, LamaType.tag_sub_zero_iff] at hz
      exact absurd hz hs
    | object type' head' =>
      simp only [compareLabels] at hz
      split at hz
      · next hne =>
        rw [Option.some.injEq, box_eq_box_zero_iff, LamaType.tag_sub_zero_iff] at hz
        exact absurd hz hne
      · split at hz
        · next hne =>
          rw [Option.some.injEq, box_eq_box_zero_iff, sub_toNat_mod hbelow hbelow'] at hz
          exact absurd hz hne
        · split at hz
          · next hne =>
            rw [Option.some.injEq, box_eq_box_zero_iff, sub_toNat_mod (by simp; omega) (by simp; omega),
              ← BitVec.toNat_inj, BitVec.toNat_ofNat, BitVec.toNat_ofNat] at hz
            omega
          · cases hz
    | _ => exact absurd (Option.some.inj hz) (by decide)

/-- Labels that `Lcompare` cannot tell apart do not decide against equality. -/
theorem compareLabels_same (hcut : a.cut = b.cut) :
    compareLabels k k a b = some (box 0) ∨ compareLabels k k a b = none := by
  cases a <;> cases b <;> simp only [Label.cut, reduceCtorEq, Label.int.injEq, Label.foreign.injEq,
    Label.string.injEq, Label.object.injEq] at hcut
  next v w =>
    rw [hcut, compareLabels, BitVec.sub_self]
    exact .inl rfl
  next p q =>
    rw [hcut, compareLabels, BitVec.sub_self]
    exact .inl rfl
  next s t =>
    rw [compareLabels, hcut, strcmp_self]
    exact .inl rfl
  next type head type' head' =>
    rw [hcut.1, hcut.2]
    simp [compareLabels]

end Labels

theorem compareFields_cons {compare : V → V → Option Word} {x y : V} {xs ys : List V} {c : Word}
    (hc : compare x y = some c) : compareFields compare (x :: xs) (y :: ys) =
      if c = box 0 then compareFields compare xs ys else some c := by
  rw [compareFields, hc, Option.bind_eq_bind, Option.bind_some]
  by_cases hz : c = box 0
  · rw [if_neg (not_not_intro hz), if_pos hz]
  · rw [if_pos hz, if_neg hz]
    rfl

theorem compareFields_zero {compare : V → V → Option Word} : ∀ {xs ys : List V},
    xs.length = ys.length → (compareFields compare xs ys = some (box 0) ↔
      List.Forall₂ (fun x y => compare x y = some (box 0)) xs ys)
  | [], [], _ => iff_of_true rfl .nil
  | x :: xs, y :: ys, hlen => by
    have ih : compareFields compare xs ys = some (box 0) ↔ _ :=
      compareFields_zero (Nat.succ.inj hlen)
    rw [List.forall₂_cons, ← ih]
    cases hc : compare x y with
    | none =>
      rw [compareFields, hc]
      exact iff_of_false nofun fun h => nomatch h.1
    | some c =>
      rw [compareFields_cons hc, Option.some.injEq]
      by_cases hz : c = box 0
      · rw [if_pos hz, and_iff_right hz]
      · rw [if_neg hz, Option.some.injEq]
        exact iff_of_false hz fun h => hz h.1

theorem compareFields_answers {compare : V → V → Option Word} : ∀ {xs ys : List V},
    (∀ x ∈ xs, ∀ y ∈ ys, ∃ c, compare x y = some c) → ∃ c, compareFields compare xs ys = some c
  | [], ys, _ => by cases ys <;> exact ⟨_, rfl⟩
  | _ :: _, [], _ => ⟨_, rfl⟩
  | x :: xs, y :: ys, hans => by
    obtain ⟨c, hc⟩ := hans x List.mem_cons_self y List.mem_cons_self
    rw [compareFields_cons hc]
    split
    · exact compareFields_answers fun a ha b hb =>
        hans a (List.mem_cons_of_mem _ ha) b (List.mem_cons_of_mem _ hb)
    · exact ⟨c, rfl⟩

theorem compareFields_rel {W : Type*} {R : V → W → Prop} {compare : V → V → Option Word}
    {compare' : W → W → Option Word} :
    ∀ {xs ys : List V} {xs' ys' : List W}, List.Forall₂ R xs xs' → List.Forall₂ R ys ys' →
      (∀ x x' y y', R x x' → R y y' → compare x y = compare' x' y') →
      compareFields compare xs ys = compareFields compare' xs' ys'
  | [], _, [], _, _, _, _ => by rw [compareFields, compareFields] <;> exact nofun
  | _ :: _, [], _ :: _, [], _, _, _ => rfl
  | x :: xs, y :: ys, x' :: xs', y' :: ys', .cons hx hxs, .cons hy hys, heq => by
    rw [compareFields, compareFields, heq x x' y y' hx hy, compareFields_rel hxs hys heq]

section Values
variable [DecidableEq V] {view : View V Label} {depth n : ℕ} {x y : V} {S : Set V}

/-- The comparison of a finite value comes to an end. -/
theorem compareValues_answers (hn : EndsWithin view n x) : ∃ c, compareValues view n x y = some c := by
  induction n generalizing x y with
  | zero => exact hn.elim
  | succ n ih =>
    rw [compareValues]
    split
    · exact ⟨_, rfl⟩
    · split
      · exact ⟨_, rfl⟩
      · exact compareFields_answers fun a ha b _ => ih (hn a ha)

/-- A finite value is found equal to what has its value. -/
theorem compareValues_of_same (hn : EndsWithin view n x) (hsame : Same (cutView view) (cutView view) x y) :
    compareValues view n x y = some (box 0) := by
  induction n generalizing x y with
  | zero => exact hn.elim
  | succ n ih =>
    obtain ⟨hlabel, hfields⟩ := hsame.children
    have hlen : (view x).2.length = (view y).2.length := hfields.length_eq
    rw [compareValues]
    split
    · rfl
    · rw [hlen]
      rcases compareLabels_same (k := (view y).2.length) hlabel with hz | hnone
      · rw [hz]
      · rw [hnone]
        refine (compareFields_zero hlen).mpr ?_
        rw [List.forall₂_iff_get] at hfields ⊢
        exact ⟨hlen, fun i hi hi' => ih (hn _ (List.get_mem _ _)) (hfields.2 i hi hi')⟩

section Views
variable {W : Type*} [DecidableEq W] {view' : View W Label} {R : V → W → Prop} {x' y' : W}

/-- The comparison is the same in related views, if the relation keeps vertices apart. -/
theorem compareValues_rel (hsim : Simulation view view' R)
    (hinj : ∀ x x' y y', R x x' → R y y' → (x = y ↔ x' = y')) (hx : R x x') (hy : R y y') :
    compareValues view depth x y = compareValues view' depth x' y' := by
  induction depth generalizing x y x' y' with
  | zero => rfl
  | succ depth ih =>
    obtain ⟨hlabel, hfields⟩ := hsim x x' hx
    obtain ⟨hlabel', hfields'⟩ := hsim y y' hy
    rw [compareValues, compareValues, hlabel, hlabel', hfields.length_eq, hfields'.length_eq]
    by_cases heq : x = y
    · rw [if_pos heq, if_pos ((hinj x x' y y' hx hy).mp heq)]
    · rw [if_neg heq, if_neg fun h => heq ((hinj x x' y y' hx hy).mpr h),
        compareFields_rel hfields hfields' fun a a' b b' ha hb => ih ha hb]

end Views

/-- The vertices of `S` have sound labels with small words and not too many fields, and lead to
    vertices of `S`. -/
structure Comparable (view : View V Label) (S : Set V) (bound : ℕ) : Prop where
  sound : ∀ x ∈ S, (view x).1.Sound
  below : ∀ x ∈ S, (view x).1.Below bound
  leaf : ∀ x ∈ S, (∀ type head, (view x).1 ≠ .object type head) → (view x).2 = []
  length : ∀ x ∈ S, (view x).2.length < 2 ^ 30
  closed : ∀ x ∈ S, ∀ y ∈ (view x).2, y ∈ S

/-- What is found equal, however deep it lies, has one value. -/
theorem Comparable.same (hS : Comparable view S (2 ^ 31)) (hx : x ∈ S) (hy : y ∈ S)
    (hz : compareValues view depth x y = some (box 0)) : Same (cutView view) (cutView view) x y := by
  have hsim : Simulation (cutView view) (cutView view) fun x y => x = y ∨
      x ∈ S ∧ y ∈ S ∧ ∃ depth, compareValues view depth x y = some (box 0) := by
    rintro x y (rfl | ⟨hx, hy, depth, hz⟩)
    · exact ⟨rfl, List.forall₂_same.mpr fun _ _ => .inl rfl⟩
    · cases depth with
      | zero => cases hz
      | succ depth =>
        rw [compareValues] at hz
        split at hz
        · next heq =>
          subst heq
          exact ⟨rfl, List.forall₂_same.mpr fun _ _ => .inl rfl⟩
        · split at hz
          · next c hc =>
            rw [hz] at hc
            have hlen := hS.length x hx
            have hlen' := hS.length y hy
            obtain ⟨hlabel, hleaf, hleaf'⟩ := compareLabels_zero (hS.sound x hx) (hS.sound y hy)
              (hS.below x hx) (hS.below y hy) (by omega) (by omega) hc
            refine ⟨hlabel, ?_⟩
            simp only [cutView, hS.leaf x hx hleaf, hS.leaf y hy hleaf']
            exact .nil
          · next hnone =>
            obtain ⟨type, head, hlx, hly, hlen⟩ := compareLabels_none hnone
            refine ⟨by simp only [cutView, hlx, hly], ?_⟩
            have hfields := (compareFields_zero hlen).mp hz
            simp only [cutView]
            rw [List.forall₂_iff_get] at hfields ⊢
            refine ⟨hlen, fun i hi hi' => .inr ⟨?_, ?_, depth, hfields.2 i hi hi'⟩⟩
            · exact hS.closed x hx _ (List.get_mem _ _)
            · exact hS.closed y hy _ (List.get_mem _ _)
  exact hsim.same (.inr ⟨hx, hy, depth, hz⟩)

end Values

theorem labelAt_sound : (labelAt h p).Sound := by
  unfold labelAt
  split
  · intro c hc
    obtain ⟨i, -, rfl⟩ := List.mem_map.mp hc
    rw [charAt, byteOf_toNat]
    exact Nat.mod_lt _ (by decide)
  all_goals exact LamaType.noConfusion

theorem labelAt_leaf (hl : ∀ type head, labelAt h p ≠ .object type head) : fieldWords h p = [] := by
  cases ht : typeAt h p with
  | none => exact absurd (by simp only [labelAt, ht]) (hl .array 0)
  | some type =>
    cases type with
    | string => exact fieldWords_string ht
    | array => exact absurd (by simp only [labelAt, ht]) (hl .array 0)
    | closure => exact absurd (by simp only [labelAt, ht]) (hl .closure (contentAt h p 0))
    | sexp => exact absurd (by simp only [labelAt, ht]) (hl .sexp (contentAt h p 0))

/-- Words that can be read can be compared. -/
theorem Readable.comparable {bound : ℕ} (hS : Readable h S)
    (hbelow : ∀ v ∈ S, (valueView h v).1.Below bound) : Comparable (valueView h) S bound where
  below := hbelow
  sound v hv := by
    cases hS v hv with
    | int hu => rwa [valueView_int hu]
    | foreign hu hf =>
      rw [valueView_foreign hu hf]
      trivial
    | object ho =>
      rw [ho.view]
      exact labelAt_sound
  leaf v hv hl := by
    cases hS v hv with
    | int hu => rw [valueView_int hu]
    | foreign hu hf => rw [valueView_foreign hu hf]
    | object ho =>
      rw [ho.view] at hl ⊢
      exact labelAt_leaf hl
  length v hv := by
    cases hS v hv with
    | int hu =>
      rw [valueView_int hu]
      exact Nat.two_pow_pos 30
    | foreign hu hf =>
      rw [valueView_foreign hu hf]
      exact Nat.two_pow_pos 30
    | @object p ho =>
      have hinside := ho.object.inside
      have hspan := ho.span
      have hfits := ho.fits
      rw [ho.view]
      simp only [fieldWords, List.length_map, List.length_range]
      omega
  closed _ hv := hS.fields hv

/-- Whenever `Lcompare` finds nothing, the values are equal; on a finite value it comes to an end, and
    finds nothing exactly in equal ones. -/
theorem lcompare_zero_iff (hS : Readable h S) (hbelow : ∀ v ∈ S, (valueView h v).1.Below (2 ^ 31))
    (hv : v ∈ S) (hw : w ∈ S) :
    (∀ depth, lcompare h depth v w = some (box 0) → EqualValues h v w) ∧
      ∀ depth, EndsWithin (valueView h) depth v →
        ∃ c, lcompare h depth v w = some c ∧ (c = box 0 ↔ EqualValues h v w) := by
  have hcmp := hS.comparable hbelow
  have hequal : ∀ depth, lcompare h depth v w = some (box 0) → EqualValues h v w := by
    intro depth hz
    rw [lcompare_eq hS hv hw] at hz
    exact hcmp.same hv hw hz
  refine ⟨hequal, fun depth hfinite => ?_⟩
  obtain ⟨c, hc⟩ := compareValues_answers (y := w) hfinite
  refine ⟨c, by rw [lcompare_eq hS hv hw, hc], fun hz => ?_, fun hsame => ?_⟩
  · refine hequal depth ?_
    rw [lcompare_eq hS hv hw, hc, hz]
  · rw [compareValues_of_same hfinite hsame] at hc
    exact (Option.some.inj hc).symm

theorem sharingWords_below : ∀ v ∈ sharingWords, (valueView sharingHeap v).1.Below (2 ^ 31) := by
  intro v hv
  rcases mem_sharingWords.mp hv with rfl | rfl | rfl | rfl
  · exact trivial
  · exact trivial
  · exact (by decide : (7 : Word).toNat < 2 ^ 31)
  · exact (by decide : (7 : Word).toNat < 2 ^ 31)

/-- Two objects with the same fields. -/
theorem lcompare_zero_iff_sharingHeap :
    (∀ depth, lcompare sharingHeap depth (ptr 21) (ptr 26) = some (box 0) →
      EqualValues sharingHeap (ptr 21) (ptr 26)) ∧
    ∀ depth, EndsWithin (valueView sharingHeap) depth (ptr 21) →
      ∃ c, lcompare sharingHeap depth (ptr 21) (ptr 26) = some c ∧
        (c = box 0 ↔ EqualValues sharingHeap (ptr 21) (ptr 26)) :=
  lcompare_zero_iff sharingWords_readable sharingWords_below
    (mem_sharingWords.mpr (by decide)) (mem_sharingWords.mpr (by decide))

end Lama

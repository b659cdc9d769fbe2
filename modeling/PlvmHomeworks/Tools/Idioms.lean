import PlvmHomeworks.Lib.Sorting
import PlvmHomeworks.Tools.Stats

/-! The rest of `bcstats.cpp`: the idioms it collects, and the groups it reports.

    An idiom is a stretch of the code section, one instruction or two in a row. The bitmaps are lists
    of the addresses that are set, and the two tables of short idioms are functions of their index. -/

namespace Lama
open Outcome Worklist Runs Sorting

/-! ### mark_jumps -/

/-- The opcodes that `mark_jumps` lists. -/
def jumpOpcodes : List ℕ := [21, 81, 80, 86, 85, 89, 240]

/-- `if (c) bitmap->at(i) = true`. -/
def setIf (f : Bytefile) (c : Prop) [Decidable c] (bitmap : List ℤ) (i : ℤ) : Except Stop (List ℤ) :=
  if c then do
    ensure (CodeIndex f i) (.uncaught "std::out_of_range")
    return i :: bitmap
  else .ok bitmap

/-- The labels that an instruction sets. -/
def setLabels (f : Bytefile) (next : ℤ) : List ℤ → List ℤ → Except Stop (List ℤ)
  | [], label => .ok label
  | s :: ss, label => do
    let label ← setIf f (next ≠ s) label s
    setLabels f next ss label

/-- `mark_jumps` from `ip` on: the bitmaps `jump` and `label`. -/
def markJumps (f : Bytefile) (fuel : ℕ) (ip : ℤ) (jump label : List ℤ) :
    Except Stop (List ℤ × List ℤ) :=
  if ip = getCodeSize f then .ok (jump, label) else
  match fuel with
  | 0 => .error .outOfFuel
  | fuel + 1 => do
    let opcode ← rawByte f ip
    let jump ← setIf f (opcode ∈ jumpOpcodes) jump ip
    let (inst, next) ← readInst f ip
    let label ← setLabels f next (successorsFunctor next inst) label
    markJumps f fuel next jump label

/-! ### The collection loop -/

/-- `Idiom`. -/
structure Idiom where
  begin : ℤ
  end_ : ℤ
  deriving DecidableEq, Repr

/-- The bytes of an idiom. -/
def Idiom.bytes (f : Bytefile) (i : Idiom) : List UInt8 :=
  (List.range (i.end_ - i.begin).toNat).map fun k : ℕ => (f.codeByte (i.begin + k)).getD 0

/-- `ShortIdiomGroup`; the idiom of an unused entry is a null pointer. -/
structure ShortIdiomGroup where
  idiom : Option Idiom
  count : ℕ

/-- The two assignments that count a short idiom. -/
def ShortIdiomGroup.add (g : ShortIdiomGroup) (i : Idiom) : ShortIdiomGroup := ⟨some i, g.count + 1⟩

/-- The three containers of `main`. `pairs` is not one of them: it lists the pairs of adjacent
    instructions that the loop has counted, by their addresses. -/
structure Containers where
  oneByteIdioms : ℕ → ShortIdiomGroup
  twoByteIdioms : ℕ → ShortIdiomGroup
  longIdioms : List Idiom
  pairs : List (ℤ × ℤ)

def Containers.empty : Containers := ⟨fun _ => ⟨none, 0⟩, fun _ => ⟨none, 0⟩, [], []⟩

/-- `table[index].idiom = ...; table[index].count++`. -/
def addAt (table : ℕ → ShortIdiomGroup) (index : ℕ) (i : Idiom) : ℕ → ShortIdiomGroup :=
  fun k => if k = index then (table k).add i else table k

/-- `((int)(*prev) << 8) | (int)(*ip)`: both bytes are signed. -/
def pairIndex (prev ip : ℕ) : ℤ :=
  (charWord (BitVec.ofNat 32 prev) <<< 8 ||| charWord (BitVec.ofNat 32 ip)).toInt

/-- The pair of `prev` and `ip` is counted. -/
def countPair (f : Bytefile) (c : Containers) (prev ip next : ℤ) : Except Stop Containers :=
  let c := { c with pairs := c.pairs ++ [(prev, ip)] }
  if next - prev = 2 then do
    let index := pairIndex (← rawByte f prev) (← rawByte f ip)
    ensure (0 ≤ index ∧ index < 2 ^ 16) (.undefined "two_byte_idioms")
    return { c with twoByteIdioms := addAt c.twoByteIdioms index.toNat ⟨prev, next⟩ }
  else .ok { c with longIdioms := c.longIdioms ++ [⟨prev, next⟩] }

/-- The instruction at `ip` is counted. -/
def countInst (f : Bytefile) (c : Containers) (ip next : ℤ) : Except Stop Containers :=
  if next - ip = 1 then do
    let index ← rawByte f ip
    return { c with oneByteIdioms := addAt c.oneByteIdioms index ⟨ip, next⟩ }
  else .ok { c with longIdioms := c.longIdioms ++ [⟨ip, next⟩] }

/-- The first `if` of a turn. -/
def countPrev (f : Bytefile) (label : List ℤ) (c : Containers) (prev : Option ℤ) (ip next : ℤ) :
    Except Stop Containers :=
  match prev with
  | some prev => if ip ∉ label then countPair f c prev ip next else .ok c
  | none => .ok c

/-- The collection loop of `main` from `ip` on. -/
def collect (f : Bytefile) (reachable jump label : List ℤ) (fuel : ℕ) (ip : ℤ) (prev : Option ℤ)
    (c : Containers) : Except Stop Containers :=
  if ip = getCodeSize f then .ok c else
  match fuel with
  | 0 => .error .outOfFuel
  | fuel + 1 => do
    checkIndex f ip
    let (_, next) ← readInst f ip
    if ip ∉ reachable then collect f reachable jump label fuel next none c
    else
      let c ← countPrev f label c prev ip next
      let c ← countInst f c ip next
      collect f reachable jump label fuel next (if ip ∈ jump then none else some ip) c

/-- `main` up to the end of the collection loop. -/
def collectIdioms (fuel : ℕ) (f : Bytefile) : Except Stop Containers := do
  let entrypoints ← getEntrypoints f
  let reachable ← markReachableInstructions fuel f entrypoints
  let (jump, label) ← markJumps f fuel 0 [] []
  collect f reachable jump label fuel 0 none .empty

/-! ### Grouping -/

/-- A byte as the `char` (signed) that `compare_idioms` sees. -/
def signedChar (b : UInt8) : ℤ := (charWord (BitVec.ofNat 32 b.toNat)).toInt

/-- The loop of `compare_idioms`: the first place where two idioms differ. -/
def firstDifference : List UInt8 → List UInt8 → Option (UInt8 × UInt8)
  | a :: as, b :: bs => if a ≠ b then some (a, b) else firstDifference as bs
  | _, _ => none

/-- `compare_idioms` on the bytes of two idioms. -/
def compareBytes (fst snd : List UInt8) : ℤ :=
  match firstDifference fst snd with
  | some (a, b) => signedChar a - signedChar b
  | none => fst.length - snd.length

/-- `compare_idioms`. -/
def compareIdioms (f : Bytefile) (fst snd : Idiom) : ℤ := compareBytes (fst.bytes f) (snd.bytes f)

/-- `IdiomGroup`. -/
structure IdiomGroup where
  idiom : Idiom
  count : ℕ
  deriving DecidableEq, Repr

/-- One turn of the loop that groups the long idioms. -/
def pushIdiom (f : Bytefile) (groups : List IdiomGroup) (idiom : Idiom) : List IdiomGroup :=
  match groups.getLast? with
  | none => [⟨idiom, 1⟩]
  | some back =>
    if compareIdioms f idiom back.idiom ≠ 0 then groups ++ [⟨idiom, 1⟩]
    else groups.dropLast ++ [{ back with count := back.count + 1 }]

/-- The loops that group the short idioms of a table with `size` entries. -/
def shortGroups (table : ℕ → ShortIdiomGroup) (size : ℕ) : List IdiomGroup :=
  (List.range size).filterMap fun i => (table i).idiom.map fun idiom => ⟨idiom, (table i).count⟩

/-- The groups of `main`, before they are sorted by their counts. -/
def idiomGroups (sorter : Sorter) (f : Bytefile) (c : Containers) : List IdiomGroup :=
  (sorter.sort (fun fst snd => decide (compareIdioms f fst snd < 0)) c.longIdioms).foldl (pushIdiom f) []
    ++ shortGroups c.oneByteIdioms (2 ^ 8) ++ shortGroups c.twoByteIdioms (2 ^ 16)

/-- `main`: the groups in the order it reports them. -/
def bcstats (sorter : Sorter) (fuel : ℕ) (f : Bytefile) : Except Stop (List IdiomGroup) := do
  let c ← collectIdioms fuel f
  return sorter.sort (fun fst snd => decide (fst.count > snd.count)) (idiomGroups sorter f c)

/-! ### The linear decode -/

/-- An instruction, where it stands. -/
structure InstAt where
  ip : ℤ
  inst : Inst
  next : ℤ
  deriving DecidableEq, Repr

/-- The instructions from an address on, one after another, up to the last byte of the code. -/
inductive LinearDecode (f : Bytefile) : ℤ → List InstAt → Prop
  | done : LinearDecode f (getCodeSize f) []
  | step {ip next : ℤ} {inst : Inst} {l : List InstAt} : ip ≠ getCodeSize f →
      readInst f ip = .ok (inst, next) → LinearDecode f next l → LinearDecode f ip (⟨ip, inst, next⟩ :: l)

/-- `jump` is set for the instruction at `ip`. -/
def JumpMarked (f : Bytefile) (ip : ℤ) : Prop := ∃ x ∈ jumpOpcodes, rawByte f ip = .ok x

instance (f : Bytefile) (ip : ℤ) : Decidable (JumpMarked f ip) := by
  unfold JumpMarked; infer_instance

/-- An instruction leads to `o` otherwise than by being followed by it. -/
def LabelMarked (l : List InstAt) (o : ℤ) : Prop :=
  ∃ p ∈ l, o ∈ successorsFunctor p.next p.inst ∧ p.next ≠ o

instance (l : List InstAt) (o : ℤ) : Decidable (LabelMarked l o) := by
  unfold LabelMarked; infer_instance

/-- Every label is in the code section. -/
def LabelsInside (f : Bytefile) (l : List InstAt) : Prop := ∀ o, LabelMarked l o → CodeIndex f o

variable {f : Bytefile} {ip next : ℤ} {inst : Inst} {l : List InstAt} {fuel : ℕ}

theorem LinearDecode.readInst (h : LinearDecode f ip l) :
    ∀ p ∈ l, readInst f p.ip = .ok (p.inst, p.next) := by
  induction h with
  | done => exact fun p hp => absurd hp List.not_mem_nil
  | step _ hi _ ih => exact List.forall_mem_cons.mpr ⟨hi, ih⟩

/-- A decode is unique. -/
theorem LinearDecode.unique (h : LinearDecode f ip l) {l' : List InstAt} (h' : LinearDecode f ip l') :
    l = l' := by
  induction h generalizing l' with
  | done =>
    cases h' with
    | done => rfl
    | step hne => exact absurd rfl hne
  | step hne hi _ ih =>
    cases h' with
    | done => exact absurd rfl hne
    | step _ hi' h' =>
      rw [hi] at hi'
      cases hi'
      rw [ih h']

theorem LinearDecode.length_le (h : LinearDecode f ip l) : ip + l.length ≤ getCodeSize f := by
  induction h with
  | done => simp
  | step _ hi _ ih =>
    have := (readInst_lt hi).2.1
    rw [List.length_cons]
    omega

/-! ### The bitmaps of mark_jumps -/

theorem setIf_ok {c : Prop} [Decidable c] {bitmap bitmap' : List ℤ} {i : ℤ} :
    setIf f c bitmap i = .ok bitmap' ↔
      (c → CodeIndex f i) ∧ bitmap' = if c then i :: bitmap else bitmap := by
  by_cases hc : c
  · rw [setIf, if_pos hc, if_pos hc, bind_eq_ok]
    constructor
    · rintro ⟨_, hin, h⟩
      cases h
      exact ⟨fun _ => ensure_eq_ok.mp hin, rfl⟩
    · rintro ⟨hin, rfl⟩
      exact ⟨(), ensure_of (hin hc), rfl⟩
  · rw [setIf, if_neg hc, if_neg hc, Except.ok.injEq]
    exact ⟨fun h => ⟨fun h => absurd h hc, h.symm⟩, fun h => h.2.symm⟩

/-- The bits after a conditional assignment. -/
theorem mem_setIf {c : Prop} [Decidable c] {bitmap : List ℤ} {i o : ℤ} :
    (o ∈ if c then i :: bitmap else bitmap) ↔ o ∈ bitmap ∨ o = i ∧ c := by
  by_cases hc : c
  · simp only [hc, if_true, List.mem_cons, and_true]
    exact or_comm
  · simp [hc]

theorem setLabels_ok : ∀ {ss label label' : List ℤ}, setLabels f next ss label = .ok label' →
    (∀ s ∈ ss, next ≠ s → CodeIndex f s) ∧ ∀ o, o ∈ label' ↔ o ∈ label ∨ o ∈ ss ∧ next ≠ o
  | [], label, _, h => by
    cases h
    simp
  | s :: ss, label, label', h => by
    obtain ⟨label₁, h₁, h⟩ := bind_eq_ok.mp h
    obtain ⟨hs, rfl⟩ := setIf_ok.mp h₁
    obtain ⟨hin, hmem⟩ := setLabels_ok h
    refine ⟨List.forall_mem_cons.mpr ⟨hs, hin⟩, fun o => ?_⟩
    rw [hmem, mem_setIf, List.mem_cons]
    constructor
    · rintro ((h | ⟨rfl, hno⟩) | ⟨h, hno⟩)
      · exact Or.inl h
      · exact Or.inr ⟨Or.inl rfl, hno⟩
      · exact Or.inr ⟨Or.inr h, hno⟩
    · rintro (h | ⟨rfl | h, hno⟩)
      · exact Or.inl (Or.inl h)
      · exact Or.inl (Or.inr ⟨rfl, hno⟩)
      · exact Or.inr ⟨h, hno⟩

theorem setLabels_of : ∀ {ss : List ℤ} (label : List ℤ), (∀ s ∈ ss, next ≠ s → CodeIndex f s) →
    ∃ label', setLabels f next ss label = .ok label'
  | [], label, _ => ⟨label, rfl⟩
  | s :: ss, label, h => by
    obtain ⟨hs, hss⟩ := List.forall_mem_cons.mp h
    obtain ⟨label', h'⟩ := setLabels_of (if next ≠ s then s :: label else label) hss
    exact ⟨label', bind_eq_ok.mpr ⟨_, setIf_ok.mpr ⟨hs, rfl⟩, h'⟩⟩

theorem LabelMarked.cons_iff {p : InstAt} {o : ℤ} :
    LabelMarked (p :: l) o ↔ (o ∈ successorsFunctor p.next p.inst ∧ p.next ≠ o) ∨ LabelMarked l o := by
  simp [LabelMarked]

/-- What a run of `mark_jumps` has decoded, and the bits it has set on the way. -/
theorem markJumps_ok {jump label : List ℤ} {r : List ℤ × List ℤ}
    (h : markJumps f fuel ip jump label = .ok r) : ∃ l, LinearDecode f ip l ∧ l.length ≤ fuel ∧
      LabelsInside f l ∧
      (∀ o, o ∈ r.1 ↔ o ∈ jump ∨ JumpMarked f o ∧ ∃ p ∈ l, p.ip = o) ∧
      ∀ o, o ∈ r.2 ↔ o ∈ label ∨ LabelMarked l o := by
  induction fuel generalizing ip jump label with
  | zero =>
    rw [markJumps] at h
    split at h
    · rename_i hend
      cases h
      subst hend
      exact ⟨[], .done, Nat.zero_le _, by simp [LabelsInside, LabelMarked], by simp, by simp [LabelMarked]⟩
    · cases h
  | succ fuel ih =>
    rw [markJumps] at h
    split at h
    · rename_i hend
      cases h
      subst hend
      exact ⟨[], .done, Nat.zero_le _, by simp [LabelsInside, LabelMarked], by simp, by simp [LabelMarked]⟩
    · rename_i hne
      obtain ⟨opcode, hop, h⟩ := bind_eq_ok.mp h
      obtain ⟨jump', hjump, h⟩ := bind_eq_ok.mp h
      obtain ⟨⟨inst, next⟩, hi, h⟩ := bind_eq_ok.mp h
      obtain ⟨label', hlabel, h⟩ := bind_eq_ok.mp h
      obtain ⟨l, hl, hlen, hin, hj, hlab⟩ := ih h
      obtain ⟨hin', hlab'⟩ := setLabels_ok hlabel
      obtain ⟨-, rfl⟩ := setIf_ok.mp hjump
      have hmarked : opcode ∈ jumpOpcodes ↔ JumpMarked f ip := by
        constructor
        · exact fun hmem => ⟨opcode, hmem, hop⟩
        · rintro ⟨x, hx, hraw⟩
          rw [hop] at hraw
          cases hraw
          exact hx
      refine ⟨⟨ip, inst, next⟩ :: l, .step hne hi hl, Nat.succ_le_succ hlen, fun o ho => ?_, fun o => ?_,
        fun o => ?_⟩
      · rcases LabelMarked.cons_iff.mp ho with ⟨hs, hno⟩ | ho
        · exact hin' o hs hno
        · exact hin o ho
      · rw [hj, mem_setIf, hmarked]
        simp only [List.exists_mem_cons_iff]
        constructor
        · rintro ((h | ⟨rfl, h⟩) | ⟨h, hp⟩)
          · exact Or.inl h
          · exact Or.inr ⟨h, Or.inl rfl⟩
          · exact Or.inr ⟨h, Or.inr hp⟩
        · rintro (h | ⟨h, rfl | hp⟩)
          · exact Or.inl (Or.inl h)
          · exact Or.inl (Or.inr ⟨rfl, h⟩)
          · exact Or.inr ⟨h, hp⟩
      · rw [hlab, hlab', LabelMarked.cons_iff]
        exact or_assoc

/-- `mark_jumps` ends where the labels are in the code section. -/
theorem markJumps_of (hf : CodePlaced f) (hl : LinearDecode f ip l) (jump label : List ℤ)
    (hfuel : l.length ≤ fuel) (hin : LabelsInside f l) : ∃ r, markJumps f fuel ip jump label = .ok r := by
  induction hl generalizing fuel jump label with
  | done => exact ⟨(jump, label), by rw [markJumps.eq_def, if_pos rfl]⟩
  | @step ip next inst l hne hi hl ih =>
    rw [List.length_cons] at hfuel
    obtain ⟨n, rfl⟩ := Nat.exists_eq_add_of_le' (show 1 ≤ fuel by omega)
    obtain ⟨-, x, hx, -⟩ := readInst_decoded hi
    have hjump : setIf f (x ∈ jumpOpcodes) jump ip = .ok (if x ∈ jumpOpcodes then ip :: jump else jump) :=
      setIf_ok.mpr ⟨fun _ => codeIndex_of_readInst hf hi, rfl⟩
    obtain ⟨label', hlabel⟩ : ∃ label', setLabels f next (successorsFunctor next inst) label = .ok label' :=
      setLabels_of label fun s hs hno => hin s (LabelMarked.cons_iff.mpr (Or.inl ⟨hs, hno⟩))
    obtain ⟨r, hr⟩ := ih (if x ∈ jumpOpcodes then ip :: jump else jump) label' (show l.length ≤ n by omega)
      fun o ho => hin o (LabelMarked.cons_iff.mpr (Or.inr ho))
    refine ⟨r, ?_⟩
    rw [markJumps, if_neg hne, hx, ok_bind, hjump, ok_bind, hi, ok_bind]
    simp only
    rw [hlabel, ok_bind, hr]

/-! ### What the loop counts -/

/-- One idiom that is counted: an instruction, alone or after the one in front of it. -/
structure Occurrence where
  prev : Option InstAt
  last : InstAt
  deriving DecidableEq, Repr

def Occurrence.idiom (o : Occurrence) : Idiom := ⟨(o.prev.getD o.last).ip, o.last.next⟩

/-- What a turn does about an occurrence. -/
def countOccurrence (f : Bytefile) (c : Containers) (o : Occurrence) : Except Stop Containers :=
  match o.prev with
  | some a => countPair f c a.ip o.last.ip o.last.next
  | none => countInst f c o.last.ip o.last.next

section Bitmaps
variable (reach jump label : ℤ → Bool)

/-- The occurrences in the order in which the loop counts them. -/
def counted : Option InstAt → List InstAt → List Occurrence
  | _, [] => []
  | prev, p :: l =>
    if reach p.ip then
      (if label p.ip then [] else prev.toList.map fun a => ⟨some a, p⟩) ++
        ⟨none, p⟩ :: counted (if jump p.ip then none else some p) l
    else counted none l

/-- Two adjacent instructions make an idiom. -/
def paired (a b : InstAt) : Bool := reach a.ip && reach b.ip && !jump a.ip && !label b.ip

/-- The reachable instructions. -/
def singles (l : List InstAt) : List Occurrence :=
  (l.filter fun p => reach p.ip).map fun p => ⟨none, p⟩

/-- The pairs of adjacent instructions that make an idiom. -/
def pairs (l : List InstAt) : List Occurrence :=
  ((l.zip l.tail).filter fun ab => paired reach jump label ab.1 ab.2).map fun ab => ⟨some ab.1, ab.2⟩

/-- The occurrences of idioms among the instructions of a decode. -/
def occurrences (l : List InstAt) : List Occurrence := singles reach l ++ pairs reach jump label l

variable {reach jump label}

theorem pairs_cons_cons (a p : InstAt) (l : List InstAt) : pairs reach jump label (a :: p :: l) =
    (if paired reach jump label a p then [⟨some a, p⟩] else []) ++ pairs reach jump label (p :: l) := by
  simp only [pairs, List.tail_cons, List.zip_cons_cons, List.filter_cons]
  split <;> rfl

/-- An instruction that starts no pair. -/
theorem pairs_skip {p : InstAt} (h : ∀ q, paired reach jump label p q = false) (l : List InstAt) :
    pairs reach jump label (p :: l) = pairs reach jump label l := by
  cases l with
  | nil => rfl
  | cons q l => rw [pairs_cons_cons, h q, if_neg Bool.false_ne_true, List.nil_append]

/-- The loop counts every occurrence once. -/
theorem counted_perm : ∀ (prev : Option InstAt) (l : List InstAt),
    (∀ a, prev = some a → reach a.ip = true ∧ jump a.ip = false) →
    (counted reach jump label prev l).Perm (singles reach l ++ pairs reach jump label (prev.toList ++ l))
  | none, [], _ => .refl _
  | some _, [], _ => .refl _
  | prev, p :: l, hprev => by
    cases hp : reach p.ip with
    | false =>
      have hskip : pairs reach jump label (p :: l) = pairs reach jump label l :=
        pairs_skip (fun q => by simp [paired, hp]) l
      have hpairs : pairs reach jump label (prev.toList ++ p :: l) = pairs reach jump label l := by
        cases prev with
        | none => exact hskip
        | some a => exact (pairs_cons_cons a p l).trans (by simp [paired, hp, hskip])
      rw [counted, hp, if_neg Bool.false_ne_true, hpairs, singles, List.filter_cons_of_neg (by simp [hp])]
      exact counted_perm none l (by simp)
    | true =>
      have ih := counted_perm (if jump p.ip then none else some p) l (by
        intro a ha
        split at ha
        · cases ha
        · rename_i hj
          cases ha
          exact ⟨hp, Bool.eq_false_iff.mpr hj⟩)
      have htail : pairs reach jump label ((if jump p.ip then none else some p).toList ++ l) =
          pairs reach jump label (p :: l) := by
        split
        · rename_i hj
          exact (pairs_skip (fun q => by simp [paired, hj]) l).symm
        · rfl
      have hpairs : pairs reach jump label (prev.toList ++ p :: l) =
          (if label p.ip then [] else prev.toList.map fun a => ⟨some a, p⟩) ++
            pairs reach jump label (p :: l) := by
        cases prev with
        | none => simp
        | some a =>
          obtain ⟨ha, hj⟩ := hprev a rfl
          refine (pairs_cons_cons a p l).trans ?_
          cases hl : label p.ip <;> simp [paired, ha, hj, hp, hl]
      have hsingles : singles reach (p :: l) = ⟨none, p⟩ :: singles reach l := by simp [singles, hp]
      rw [htail] at ih
      rw [counted, hp, if_pos rfl, hpairs, hsingles, List.cons_append]
      refine List.perm_middle.trans (.cons _ ?_)
      exact (ih.append_left _).trans (List.perm_append_comm_assoc ..)

theorem counted_congr {reach' jump' label' : ℤ → Bool} : ∀ (prev : Option InstAt) (l : List InstAt),
    (∀ p ∈ l, reach p.ip = reach' p.ip ∧ jump p.ip = jump' p.ip ∧ label p.ip = label' p.ip) →
    counted reach jump label prev l = counted reach' jump' label' prev l
  | _, [], _ => rfl
  | prev, p :: l, h => by
    obtain ⟨⟨h1, h2, h3⟩, hl⟩ := List.forall_mem_cons.mp h
    rw [counted, counted, h1, h2, h3, counted_congr none l hl, counted_congr _ l hl]

end Bitmaps

/-- The collection loop takes one counting step after another. -/
theorem collect_eq (hf : CodePlaced f) {reachable jump label : List ℤ} (hl : LinearDecode f ip l)
    (hfuel : l.length ≤ fuel) (prev : Option InstAt) (c : Containers) :
    collect f reachable jump label fuel ip (prev.map InstAt.ip) c =
      (counted (fun o => decide (o ∈ reachable)) (fun o => decide (o ∈ jump))
        (fun o => decide (o ∈ label)) prev l).foldlM (countOccurrence f) c := by
  induction hl generalizing fuel prev c with
  | done =>
    rw [collect.eq_def, if_pos rfl]
    rfl
  | @step ip next inst l hne hi hl ih =>
    rw [List.length_cons] at hfuel
    obtain ⟨n, rfl⟩ := Nat.exists_eq_add_of_le' (show 1 ≤ fuel by omega)
    have hlen : l.length ≤ n := by omega
    have hcheck : checkIndex f ip = .ok () := ensure_of (codeIndex_of_readInst hf hi)
    rw [collect, if_neg hne, hcheck, ok_bind, hi, ok_bind, counted]
    by_cases hr : ip ∈ reachable
    · have hprev : countPrev f label c (prev.map InstAt.ip) ip next =
          (if decide (ip ∈ label) then [] else prev.toList.map fun a => (⟨some a, ⟨ip, inst, next⟩⟩ :
            Occurrence)).foldlM (countOccurrence f) c := by
        by_cases hlab : ip ∈ label <;> cases prev <;> simp [countPrev, hlab, countOccurrence]
        exact (bind_pure _).symm
      simp only [hr, not_true_eq_false, if_false, decide_true, if_true]
      rw [List.foldlM_append, hprev]
      congr 1
      funext c'
      rw [List.foldlM_cons]
      congr 1
      funext c''
      have hnext : (if ip ∈ jump then none else some ip) =
          (if decide (ip ∈ jump) then none else some (⟨ip, inst, next⟩ : InstAt)).map InstAt.ip := by
        by_cases hj : ip ∈ jump <;> simp [hj]
      rw [hnext]
      exact ih hlen _ c''
    · simp only [hr, not_false_eq_true, if_true, decide_false, Bool.false_eq_true, if_false]
      exact ih hlen none c

/-! ### main up to the end of the collection loop -/

section Bits
open Classical

/-- The bits of the three bitmaps, as they are defined by the code section and its entry points. -/
noncomputable def reachBit (f : Bytefile) (es : List ℤ) (o : ℤ) : Bool := decide (o ∈ EntryReachable f es)

end Bits

def jumpBit (f : Bytefile) (o : ℤ) : Bool := decide (JumpMarked f o)

def labelBit (l : List InstAt) (o : ℤ) : Bool := decide (LabelMarked l o)

variable {es : List ℤ} {c : Containers}

/-- The three bitmaps of a run have the bits they should have. -/
theorem counted_bitmaps {reachable jump label : List ℤ} (hr : ∀ o, o ∈ reachable ↔ o ∈ EntryReachable f es)
    (hj : ∀ o, o ∈ jump ↔ o ∈ ([] : List ℤ) ∨ JumpMarked f o ∧ ∃ p ∈ l, p.ip = o)
    (hlab : ∀ o, o ∈ label ↔ o ∈ ([] : List ℤ) ∨ LabelMarked l o) :
    counted (fun o => decide (o ∈ reachable)) (fun o => decide (o ∈ jump)) (fun o => decide (o ∈ label))
      none l = counted (reachBit f es) (jumpBit f) (labelBit l) none l := by
  refine counted_congr none l fun p hp => ⟨?_, ?_, ?_⟩
  · exact decide_eq_decide.mpr (hr p.ip)
  · refine decide_eq_decide.mpr ((hj p.ip).trans ?_)
    simp only [List.not_mem_nil, false_or]
    exact and_iff_left ⟨p, hp, rfl⟩
  · refine decide_eq_decide.mpr ((hlab p.ip).trans ?_)
    simp only [List.not_mem_nil, false_or]

/-- What a collection that came to its end has counted. -/
theorem collectIdioms_ok (hf : CodePlaced f) (hes : getEntrypoints f = .ok es)
    (h : collectIdioms fuel f = .ok c) : ∃ l, LinearDecode f 0 l ∧ LabelsInside f l ∧
      (counted (reachBit f es) (jumpBit f) (labelBit l) none l).foldlM (countOccurrence f) .empty =
        .ok c := by
  rw [collectIdioms, hes, ok_bind] at h
  obtain ⟨reachable, hreachable, h⟩ := bind_eq_ok.mp h
  obtain ⟨⟨jump, label⟩, hmark, h⟩ := bind_eq_ok.mp h
  obtain ⟨l, hl, hlen, hin, hj, hlab⟩ := markJumps_ok hmark
  refine ⟨l, hl, hin, ?_⟩
  rw [← counted_bitmaps (markReachableInstructions_ok hreachable) hj hlab]
  exact (collect_eq hf hl hlen none .empty).symm.trans h

/-- The collection counts to its end where the reachable instructions are on the decode of the code
    section and the labels are in it. -/
theorem collectIdioms_eq (hf : CodePlaced f) (hes : getEntrypoints f = .ok es) (hl : LinearDecode f 0 l)
    (hreach : ∀ o ∈ EntryReachable f es, ∃ p ∈ l, p.ip = o) (hin : LabelsInside f l)
    (hfuel : es.length + (getCodeSize f).toNat ≤ fuel) : collectIdioms fuel f =
      (counted (reachBit f es) (jumpBit f) (labelBit l) none l).foldlM (countOccurrence f) .empty := by
  have hread : ∀ o ∈ EntryReachable f es, ∃ inst next, readInst f o = .ok (inst, next) := by
    intro o ho
    obtain ⟨p, hp, rfl⟩ := hreach o ho
    exact ⟨p.inst, p.next, hl.readInst p hp⟩
  obtain ⟨reachable, hok⟩ := markReachableInstructions_of hf (by
    intro o ho
    obtain ⟨inst, next, hi⟩ := hread o ho
    refine ⟨inst, next, hi, fun s hs => ?_⟩
    obtain ⟨inst', next', hi'⟩ := hread s (closed_reachable o ho s ⟨inst, next, hi, hs⟩)
    exact codeIndex_of_readInst hf hi') hfuel
  have hlen : l.length ≤ fuel := by
    have := hl.length_le
    omega
  obtain ⟨⟨jump, label⟩, hmark⟩ := markJumps_of hf hl [] [] hlen hin
  obtain ⟨l', hl', -, -, hj, hlab⟩ := markJumps_ok hmark
  cases hl.unique hl'
  rw [collectIdioms, hes, ok_bind, hok, ok_bind, hmark, ok_bind,
    ← counted_bitmaps (markReachableInstructions_ok hok) hj hlab]
  exact collect_eq hf hl hlen none .empty

end Lama

import PlvmHomeworks.Tools.Idioms

/-! Which pairs of adjacent instructions are counted, and when control really passes from the first
    to the second.

    `mark_jumps` lists the opcodes after which no pair starts and labels the targets it is not about to
    decode next. `SuccessorsFunctor` knows more instructions without a successor, and a closure may
    follow itself. -/

namespace Lama
open Outcome Worklist Runs Sorting

/-- The targets of jumps and calls, and the entries of closures. -/
def Inst.targets : Inst → List ℤ
  | .jmp target | .cjmpz target | .cjmpnz target => [target]
  | .call _ offset _ => [offset]
  | .closure entry _ => [entry]
  | _ => []

/-- `END`, `RET`, `JMP`, `FAIL` or `STOP`. -/
def Inst.isLast : Inst → Bool
  | .end_ | .ret | .jmp _ | .fail _ _ | .stop => true
  | _ => false

/-- Control falls through from the instruction at `a` to the one at `b`, and comes to `b` from nowhere
    else. -/
structure RealSequence (f : Bytefile) (l : List InstAt) (a b : ℤ) : Prop where
  succeeds : Succeeds f a b
  untargeted : ∀ p ∈ l, b ∉ p.inst.targets
  first : ∀ inst next, readInst f a = .ok (inst, next) → inst.isLast = false

/-- An instruction that `mark_jumps` does not list although it is not simply followed by the next one:
    `END`, `RET`, a byte without a functor, a `STOP` other than `0xF0`, and a closure whose entry comes
    next. -/
def Breaks (f : Bytefile) (p : InstAt) : Prop :=
  match p.inst with
  | .end_ | .ret | .noFunctor => True
  | .stop => rawByte f p.ip ≠ .ok 240
  | .closure entry _ => entry = p.next
  | _ => False

/-- No such instruction is reachable in front of a reachable instruction without a label. -/
def NoBreak (f : Bytefile) (es : List ℤ) (l : List InstAt) : Prop :=
  ∀ a b, (a, b) ∈ l.zip l.tail → a.ip ∈ EntryReachable f es → b.ip ∈ EntryReachable f es →
    ¬ LabelMarked l b.ip → ¬ Breaks f a

/-! ### The instructions of a decode -/

variable {f : Bytefile} {ip next : ℤ} {inst : Inst} {l : List InstAt} {fuel : ℕ} {es : List ℤ}
  {c c' : Containers} {a b p q : InstAt}

theorem LinearDecode.mem_adjacent (h : LinearDecode f ip l) (hab : (a, b) ∈ l.zip l.tail) :
    a ∈ l ∧ b ∈ l ∧ b.ip = a.next := by
  induction h with
  | done => cases hab
  | @step ip next inst l _ _ hl ih =>
    cases hl with
    | done => cases hab
    | @step _ next' inst' l' _ _ hl' =>
      rw [List.tail_cons, List.zip_cons_cons, List.mem_cons] at hab
      rcases hab with hab | hab
      · cases hab
        exact ⟨List.mem_cons_self, List.mem_cons_of_mem _ List.mem_cons_self, rfl⟩
      · obtain ⟨ha, hb, hnext⟩ := ih hab
        exact ⟨List.mem_cons_of_mem _ ha, List.mem_cons_of_mem _ hb, hnext⟩

/-- No two instructions of a decode end at the same address. -/
theorem LinearDecode.eq_of_next (h : LinearDecode f ip l) (hp : p ∈ l) (hq : q ∈ l)
    (hnext : p.next = q.next) : p = q := by
  have later : ∀ {ip : ℤ} {l : List InstAt}, LinearDecode f ip l → ∀ q ∈ l, ip < q.next := by
    intro ip l h
    induction h with
    | done => exact fun q hq => absurd hq List.not_mem_nil
    | step _ hi _ ih =>
      have hlt := (readInst_lt hi).2.1
      refine List.forall_mem_cons.mpr ⟨hlt, fun q hq => ?_⟩
      have := ih q hq
      omega
  induction h with
  | done => cases hp
  | @step ip next inst l _ _ hl ih =>
    rcases List.mem_cons.mp hp with rfl | hp <;> rcases List.mem_cons.mp hq with rfl | hq
    · rfl
    · have := later hl q hq
      simp only at hnext
      omega
    · have := later hl p hp
      simp only at hnext
      omega
    · exact ih hp hq

/-- The instructions for which `mark_jumps` sets `jump`. -/
def Inst.isJump : Inst → Bool
  | .jmp _ | .cjmpz _ | .cjmpnz _ | .call _ _ _ | .callc _ _ | .fail _ _ => true
  | _ => false

theorem jumpMarked_iff (h : readInst f ip = .ok (inst, next)) :
    JumpMarked f ip ↔ inst.isJump = true ∨ inst = .stop ∧ rawByte f ip = .ok 240 := by
  obtain ⟨x, hx, htaken⟩ := readInst_taken h
  have hmarked : JumpMarked f ip ↔ x ∈ jumpOpcodes := by
    constructor
    · rintro ⟨y, hy, hraw⟩
      rw [hx] at hraw
      cases hraw
      exact hy
    · exact fun hmem => ⟨x, hmem, hx⟩
  rw [hmarked, hx]
  simp only [Except.ok.injEq, jumpOpcodes, List.mem_cons, List.not_mem_nil, or_false]
  rcases htaken with ⟨hop, -, -⟩ | ⟨hu, rfl, -⟩ | ⟨rfl, entry, n, rfl, -, -⟩
  · cases inst <;> simp only [Inst.IsOpcode, Inst.isJump, reduceCtorEq, Bool.false_eq_true, true_or, false_or,
      false_and, iff_true, iff_false, true_and] at hop ⊢ <;> omega
  · simp only [Inst.isJump, reduceCtorEq, Bool.false_eq_true, false_and, or_self, iff_false]
    rcases hu with hu | hu | hu <;> omega
  · simp [Inst.isJump]

theorem Breaks.not_jumpMarked (h : Breaks f p) (hi : readInst f p.ip = .ok (p.inst, p.next)) :
    ¬ JumpMarked f p.ip := by
  rw [jumpMarked_iff hi]
  obtain ⟨ip, inst, next⟩ := p
  cases inst <;> simp_all [Breaks, Inst.isJump]

/-- A target is a successor. -/
theorem mem_successors_of_target {t : ℤ} (h : t ∈ inst.targets) : t ∈ successorsFunctor next inst := by
  cases inst <;> simp_all [Inst.targets, successorsFunctor]

/-- A pair that is counted is a real sequence, unless its first instruction breaks it. -/
theorem LinearDecode.realSequence_iff (h : LinearDecode f 0 l) (hab : (a, b) ∈ l.zip l.tail)
    (hjump : ¬ JumpMarked f a.ip) (hlabel : ¬ LabelMarked l b.ip) :
    RealSequence f l a.ip b.ip ↔ ¬ Breaks f a := by
  obtain ⟨ha, -, hnext⟩ := h.mem_adjacent hab
  have hi := h.readInst a ha
  rw [jumpMarked_iff hi, not_or] at hjump
  obtain ⟨hjump, hstop⟩ := hjump
  constructor
  · rintro ⟨⟨inst, next, hi', hs⟩, huntargeted, -⟩ hbreaks
    rw [hi] at hi'
    cases hi'
    have hself := huntargeted a ha
    rw [hnext] at hs hself
    unfold Breaks at hbreaks
    cases hinst : a.inst <;> rw [hinst] at hbreaks hs hself
    case end_ | ret | noFunctor | stop => exact absurd hs List.not_mem_nil
    case closure entry captured => exact hself (by simp [Inst.targets, hbreaks])
    all_goals exact hbreaks
  · intro hno
    have hfirst : a.inst.isLast = false ∧ b.ip ∈ successorsFunctor a.next a.inst := by
      rw [hnext]
      unfold Breaks at hno
      cases hinst : a.inst <;> rw [hinst] at hno hjump hstop <;>
        simp_all [Inst.isLast, Inst.isJump, successorsFunctor]
    refine ⟨⟨a.inst, a.next, hi, hfirst.2⟩, fun p hp htarget => ?_, fun inst next hi' => ?_⟩
    · -- a target without a label is the next address of its own instruction, which is `a` then
      have hpnext : p.next = b.ip := by
        by_contra hne
        exact hlabel ⟨p, hp, mem_successors_of_target htarget, hne⟩
      obtain rfl := h.eq_of_next hp ha (hpnext.trans hnext)
      rw [hnext] at htarget
      unfold Breaks at hno
      cases hinst : p.inst <;> rw [hinst] at hno hjump htarget
      case jmp | cjmpz | cjmpnz | call => exact hjump rfl
      case closure entry captured => exact hno (List.mem_singleton.mp htarget).symm
      all_goals exact absurd htarget List.not_mem_nil
    · rw [hi] at hi'
      cases hi'
      exact hfirst.1

/-! ### The pairs that are counted -/

theorem countOccurrence_pairs {o : Occurrence} (h : countOccurrence f c o = .ok c') :
    c'.pairs = c.pairs ++ o.prev.toList.map fun a => (a.ip, o.last.ip) := by
  obtain ⟨prev, last⟩ := o
  cases prev with
  | none =>
    rw [Option.toList_none, List.map_nil, List.append_nil]
    simp only [countOccurrence, countInst] at h
    split at h
    · obtain ⟨_, -, h⟩ := bind_eq_ok.mp h
      cases h
      rfl
    · cases h
      rfl
  | some a =>
    simp only [countOccurrence, countPair] at h
    split at h
    · obtain ⟨_, -, h⟩ := bind_eq_ok.mp h
      obtain ⟨_, -, h⟩ := bind_eq_ok.mp h
      obtain ⟨_, -, h⟩ := bind_eq_ok.mp h
      cases h
      rfl
    · cases h
      rfl

theorem foldlM_pairs : ∀ {os : List Occurrence} {c c' : Containers},
    os.foldlM (countOccurrence f) c = .ok c' →
      c'.pairs = c.pairs ++ os.flatMap fun o => o.prev.toList.map fun a => (a.ip, o.last.ip)
  | [], c, c', h => by
    cases h
    exact (List.append_nil _).symm
  | o :: os, c, c', h => by
    rw [List.foldlM_cons] at h
    obtain ⟨c₁, h₁, h⟩ := bind_eq_ok.mp h
    rw [foldlM_pairs h, countOccurrence_pairs h₁, List.flatMap_cons, List.append_assoc]

/-- The pairs that the loop has counted are the adjacent reachable instructions of which the first is
    not marked in `jump` and the second is not marked in `label`. -/
theorem mem_pairs_iff
    (h : (counted (reachBit f es) (jumpBit f) (labelBit l) none l).foldlM (countOccurrence f) .empty = .ok c)
    (ab : ℤ × ℤ) : ab ∈ c.pairs ↔ ∃ a b, (a, b) ∈ l.zip l.tail ∧ ab = (a.ip, b.ip) ∧
      (a.ip ∈ EntryReachable f es ∧ b.ip ∈ EntryReachable f es) ∧ ¬ JumpMarked f a.ip ∧
      ¬ LabelMarked l b.ip := by
  have hperm : (counted (reachBit f es) (jumpBit f) (labelBit l) none l).Perm _ :=
    counted_perm none l (by simp)
  rw [foldlM_pairs h, Containers.empty, List.nil_append, List.mem_flatMap]
  simp only [hperm.mem_iff, List.mem_append, singles, pairs, List.mem_map, List.mem_filter,
    Option.toList_none,
    List.nil_append, paired, reachBit, jumpBit, labelBit, Bool.and_eq_true, Bool.not_eq_true',
    decide_eq_true_eq, decide_eq_false_iff_not]
  constructor
  · rintro ⟨o, ⟨p, -, rfl⟩ | ⟨⟨a, b⟩, ⟨hab, ⟨⟨ha, hb⟩, hj⟩, hlab⟩, rfl⟩, a', ha', rfl⟩
    · cases ha'
    · cases List.mem_singleton.mp ha'
      exact ⟨a, b, hab, rfl, ⟨ha, hb⟩, hj, hlab⟩
  · rintro ⟨a, b, hab, rfl, ⟨ha, hb⟩, hj, hlab⟩
    exact ⟨⟨some a, b⟩, Or.inr ⟨(a, b), ⟨hab, ⟨⟨ha, hb⟩, hj⟩, hlab⟩, rfl⟩, a, List.mem_singleton_self a, rfl⟩

/-- Wherever the collection of idioms comes to its end, the pairs that it counts are real sequences if
    and only if no reachable `END`, `RET`, byte without a functor, `STOP` other than `0xF0` or closure
    that is its own successor stands in front of a reachable instruction without a label. -/
theorem real_sequences_iff (hf : CodePlaced f) (hes : getEntrypoints f = .ok es)
    (h : collectIdioms fuel f = .ok c) : ∃ l, LinearDecode f 0 l ∧
      ((∀ ab ∈ c.pairs, RealSequence f l ab.1 ab.2) ↔ NoBreak f es l) := by
  obtain ⟨l, hl, -, hcount⟩ := collectIdioms_ok hf hes h
  refine ⟨l, hl, fun hreal a b hab ha hb hlabel hbreaks => ?_, fun hno ab hmem => ?_⟩
  · have hjump := hbreaks.not_jumpMarked (hl.readInst a (hl.mem_adjacent hab).1)
    have hpair := (mem_pairs_iff hcount (a.ip, b.ip)).mpr ⟨a, b, hab, rfl, ⟨ha, hb⟩, hjump, hlabel⟩
    exact (hl.realSequence_iff hab hjump hlabel).mp (hreal _ hpair) hbreaks
  · obtain ⟨a, b, hab, rfl, ⟨ha, hb⟩, hjump, hlabel⟩ := (mem_pairs_iff hcount ab).mp hmem
    exact (hl.realSequence_iff hab hjump hlabel).mpr (hno a b hab ha hb hlabel)

/-- A file with two public functions: `BEGIN 0 0; END`, twice. -/
def twoFunctions : List UInt8 :=
  intBytes 1 ++ intBytes 0 ++ intBytes 2 ++ intBytes 0 ++ intBytes 0 ++ intBytes 0 ++ intBytes 10 ++ [0] ++
    82 :: intBytes 0 ++ intBytes 0 ++ 22 :: 82 :: intBytes 0 ++ intBytes 0 ++ [22]

theorem real_sequences_iff_twoFunctions : ∃ c l, collectIdioms 22 (describe twoFunctions) = .ok c ∧
    LinearDecode (describe twoFunctions) 0 l ∧
      ((∀ ab ∈ c.pairs, RealSequence (describe twoFunctions) l ab.1 ab.2) ↔
        NoBreak (describe twoFunctions) [0, 10] l) := by
  have hpairs : (collectIdioms 22 (describe twoFunctions)).map (·.pairs) =
      .ok [(0, 9), (9, 10), (10, 19)] := by
    decide +kernel
  have hes : getEntrypoints (describe twoFunctions) = .ok [0, 10] := by decide +kernel
  obtain ⟨c, hc, -⟩ := exists_of_map_eq_ok hpairs
  obtain ⟨l, hl, hiff⟩ :=
    real_sequences_iff ⟨by decide, by decide, by decide, by decide⟩ hes hc
  exact ⟨c, l, hc, hl, hiff⟩

/-- The `END` of the first function and the `BEGIN` of the second are counted as a pair. -/
theorem functions_paired : ∃ c, readFile twoFunctions = .ok (describe twoFunctions) ∧
    collectIdioms 22 (describe twoFunctions) = .ok c ∧ (9, 10) ∈ c.pairs ∧
    readInst (describe twoFunctions) 9 = .ok (.end_, 10) ∧ ¬ Succeeds (describe twoFunctions) 9 10 := by
  have hpairs : (collectIdioms 22 (describe twoFunctions)).map (·.pairs) =
      .ok [(0, 9), (9, 10), (10, 19)] := by
    decide +kernel
  have hend : readInst (describe twoFunctions) 9 = .ok (.end_, 10) := by decide +kernel
  obtain ⟨c, hc, hmem⟩ := exists_of_map_eq_ok hpairs
  refine ⟨c, (readFile_eq_ok (by decide)).mpr ⟨by decide, by decide, by decide, rfl⟩, hc, ?_, hend, ?_⟩
  · rw [hmem]
    decide
  · rintro ⟨inst, next, hi, hs⟩
    rw [hend] at hi
    cases hi
    cases hs

end Lama

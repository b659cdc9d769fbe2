import PlvmHomeworks.Lib.Runs
import PlvmHomeworks.Tools.CodeOnly
import PlvmHomeworks.Tools.Frames
import PlvmHomeworks.Tools.Strays

/-! The bounds of the stacks along a run of the interpreter, on any bytecode.

    Each helper asserts one side of the range of a pointer, after arithmetic that may have wrapped
    around. The other side holds while the operands of calls and prologues fit: then the top, the
    frames and the locals of every frame stay inside `__vstack`. -/

namespace Lama
open Outcome Runs

variable {im : Image} {e : Env} {f : Bytefile} {s s' s₀ : State} {v : Word}

/-! ### Frames -/

/-- The arguments of a frame, and the closure below them, are slots of the stack. -/
structure FrameBounds (im : Image) (fr : Frame) : Prop where
  base : im.vstack ≤ fr.base + 1
  args : fr.base + fr.argsCount + fr.isClosure.toNat < im.bottom

/-- The locals that a frame counts are slots of the stack. -/
def LocalsBound (im : Image) (fr : Frame) : Prop := im.vstack + fr.localsCount ≤ fr.base + 1

/-- The slot of the running closure. -/
theorem FrameBounds.closure_inStack {fr : Frame} (h : FrameBounds im fr) (hc : fr.isClosure = true) :
    im.inStack (ptrAdd fr.base (fr.argsCount + 1)) := by
  obtain ⟨hlo, hhi⟩ := h
  rw [hc, Bool.toNat_true] at hhi
  have hb := im.bottom_lt
  have := ptrAdd_eq (p := fr.base) (n := fr.argsCount + 1) (by omega) (by omega)
  exact inStack_iff.mpr (by omega)

theorem errorsIn_loc {l : LocationEntry} (hf : FrameBounds im s.frame) :
    ErrorsIn NotStray (loc im e s l) := by
  unfold loc
  split
  · exact errorsIn_bind.mpr ⟨errorsIn_check, fun _ _ => errorsIn_ok⟩
  · exact errorsIn_bind.mpr ⟨errorsIn_check, fun _ _ => errorsIn_ok⟩
  · exact errorsIn_bind.mpr ⟨errorsIn_check, fun _ _ => errorsIn_ok⟩
  · refine errorsIn_bind.mpr ⟨errorsIn_check, fun _ hc => ?_⟩
    rw [ensure_eq_ok] at hc
    exact errorsIn_bind.mpr ⟨errorsIn_readSlot (hf.closure_inStack hc), fun _ _ =>
      errorsIn_bind.mpr ⟨errorsIn_check, fun _ _ =>
        errorsIn_bind.mpr ⟨errorsIn_derefPtr, fun _ _ => errorsIn_ok⟩⟩⟩
  · exact errorsIn_error.mpr (by simp [NotStray])

/-- An index that passes as a `size_t` below a small bound is not negative. -/
theorem toSize_bound {i : ℤ} {n : ℕ} (hi : IsInt i) (h : toSize i < n) (hn : n ≤ 2 ^ 31) :
    0 ≤ i ∧ i < n := by
  unfold IsInt at hi
  unfold toSize at h
  omega

/-- A global, local or argument that `loc` finds is a slot of the stack. -/
theorem loc_inStack {l : LocationEntry} {a : ℕ} (hf : FrameBounds im s.frame)
    (hl : LocalsBound im s.frame) (hg : s.globalsCount ≤ vstackSize) (hi : IsInt l.index)
    (hkind : l.location ≠ some .captured) (h : loc im e s l = .ok a) : im.inStack a := by
  obtain ⟨hlo, hhi⟩ := hf
  unfold LocalsBound at hl
  have hb := im.bottom_lt
  have hbot : im.bottom = im.vstack + vstackSize := rfl
  unfold loc at h
  split at h
  case h_1 =>
    obtain ⟨u, hc, h⟩ := bind_eq_ok.mp h
    rw [ensure_eq_ok] at hc
    cases h
    obtain ⟨h0, h1⟩ := toSize_bound hi hc (by unfold vstackSize at *; omega)
    have := ptrAdd_eq (p := im.bottom) (n := -1 - l.index) (by omega) (by omega)
    exact inStack_iff.mpr (by omega)
  case h_2 =>
    obtain ⟨u, hc, h⟩ := bind_eq_ok.mp h
    rw [ensure_eq_ok] at hc
    cases h
    obtain ⟨h0, h1⟩ := toSize_bound hi hc (by omega)
    have := ptrAdd_eq (p := s.frame.base) (n := -l.index) (by omega) (by omega)
    exact inStack_iff.mpr (by omega)
  case h_3 =>
    obtain ⟨u, hc, h⟩ := bind_eq_ok.mp h
    rw [ensure_eq_ok] at hc
    cases h
    obtain ⟨h0, h1⟩ := toSize_bound hi hc (by omega)
    have := ptrAdd_eq (p := s.frame.base) (n := s.frame.argsCount - l.index) (by omega) (by omega)
    exact inStack_iff.mpr (by omega)
  case h_4 => exact absurd ‹_› hkind
  case h_5 => cases h

/-! ### Instructions that leave the call stack alone -/

theorem ends_pushLocations (hf : FrameBounds im s₀.frame) : ∀ {ls : List LocationEntry} {s : State},
    Within im s₀ s → Ends NotStray (Within im s₀) (pushLocations im e s ls)
  | [], _, hs => ends_ok.mpr hs
  | _ :: _, _, hs => (errorsIn_loc (by rw [hs.frame]; exact hf)).bind fun _ =>
      errorsIn_loadWord.bind fun _ => (ends_vstackPush hs).bind fun _ hs' =>
        ends_pushLocations hf hs'

theorem ends_patt {pattern : Pattern} (hs : Within im s₀ s) :
    Ends NotStray (Within im s₀) (patt im s pattern) := by
  refine (ends_vstackPop hs).bind fun r hr => ?_
  cases pattern
  case string =>
    exact (ends_vstackPop hr).bind fun r' hr' => errorsIn_stringPatt.bind fun _ => ends_vstackPush hr'
  case boxed => exact ends_vstackPush hr
  case unboxed => exact ends_vstackPush hr
  all_goals exact errorsIn_tagPatt.bind fun _ => ends_vstackPush hr

/-- The memory of a state may change. -/
theorem Within.of_mem {m : Memory} {out : List ℤ} (hs : Within im s₀ s) :
    Within im s₀ { s with mem := m, out := out } := ⟨hs.top, hs.control.trans ⟨rfl, rfl, rfl⟩⟩

theorem ends_allocRequest {inst : Inst} (hf : FrameBounds im s₀.frame) (hs : Within im s₀ s) :
    Ends NotStray (fun o => ∀ r, o = some r → Within im s₀ r.state) (allocRequest im e f s inst) := by
  have some_ok : ∀ {r : AllocRequest}, Within im s₀ r.state →
      Ends NotStray (fun o => ∀ r, o = some r → Within im s₀ r.state)
        (.ok (some r) : Except Stop (Option AllocRequest)) := by
    intro r hr
    refine ends_ok.mpr ?_
    rintro r' ⟨⟩
    exact hr
  cases inst
  case string pos => exact (errorsIn_orStop_other (by decide)).bind fun _ => some_ok hs.of_mem
  case sexp pos n =>
    exact (errorsIn_orStop_other (by decide)).bind fun _ => errorsIn_tagHash.bind fun _ => some_ok hs
  case closure entry ls => exact (ends_pushLocations hf hs).bind fun _ hs' => some_ok hs'
  case barray n => exact some_ok hs
  case lstring => exact (ends_vstackPop hs).bind fun _ hs' => some_ok hs'.of_mem
  all_goals exact ends_ok.mpr fun _ h => nomatch h

theorem ends_allocObject {r : AllocRequest} (hr : Within im s₀ r.state) :
    Ends NotStray (fun q => Within im s₀ q.2) (allocObject im e r) :=
  (errorsIn_orStop_other (by decide)).bind fun _ => (errorsIn_orStop_other (by decide)).bind fun _ =>
    (ends_storeHeap hr.of_mem).bind fun _ h => (ends_storeHeap h).bind fun _ h' => ends_ok.mpr h'

theorem ends_afterAlloc {inst : Inst} {p : ℕ} (hs : Within im s₀ s) :
    Ends NotStray (Within im s₀) (afterAlloc im e f p s inst) := by
  cases inst
  case string pos =>
    exact (errorsIn_orStop_other (by decide)).bind fun _ => (ends_storeWords hs).bind fun _ h =>
      ends_vstackPush h
  case sexp pos n =>
    exact (errorsIn_orStop_other (by decide)).bind fun _ => errorsIn_tagHash.bind fun _ =>
      (ends_storeHeap hs).bind fun _ h => (ends_popInto h).bind fun _ h =>
        (ends_storeHeap h).bind fun _ h => ends_vstackPush h
  case closure entry ls =>
    exact (ends_storeHeap hs).bind fun _ h => (ends_popInto h).bind fun _ h => ends_vstackPush h
  case barray n => exact (ends_popInto hs).bind fun _ h => ends_vstackPush h
  case lstring => exact (ends_storeWords hs).bind fun _ h => ends_vstackPush h
  all_goals exact ends_ok.mpr hs

theorem ends_execPlain {inst : Inst} (hinst : inst.isPlain = true) (hf : FrameBounds im s₀.frame)
    (hs : Within im s₀ s) : Ends NotStray (Within im s₀) (execPlain im e f s inst) := by
  have hloc : ∀ l, ErrorsIn NotStray (loc im e s l) :=
    fun l => errorsIn_loc (by rw [hs.frame]; exact hf)
  cases inst
  case begin => exact Bool.noConfusion hinst
  case cbegin => exact Bool.noConfusion hinst
  case const value => exact ends_vstackPush hs
  case sti =>
    exact (ends_vstackPop hs).bind fun _ h => (ends_vstackPop h).bind fun _ h =>
      errorsIn_derefPtr.bind fun _ => (ends_storeWord h).bind fun _ h => ends_vstackPush h
  case sta =>
    exact (ends_vstackPop hs).bind fun _ h => (ends_vstackPop h).bind fun _ h =>
      (ends_vstackPop h).bind fun _ h => (ends_bsta h).bind fun _ h => ends_vstackPush h
  case drop => exact (ends_vstackPop hs).bind fun _ h => ends_ok.mpr h
  case dup => exact (errorsIn_vstackTop hs.top).bind fun _ => ends_vstackPush hs
  case swap =>
    exact (ends_vstackPop hs).bind fun _ h => (ends_vstackPop h).bind fun _ h =>
      (ends_vstackPush h).bind fun _ h => ends_vstackPush h
  case elem =>
    exact (ends_vstackPop hs).bind fun _ h => (ends_vstackPop h).bind fun _ h =>
      errorsIn_belem.bind fun _ => ends_vstackPush h
  case tag pos args =>
    exact (ends_vstackPop hs).bind fun _ h => (errorsIn_orStop_other (by decide)).bind fun _ =>
      errorsIn_tagHash.bind fun _ => errorsIn_btag.bind fun _ => ends_vstackPush h
  case array n =>
    exact (ends_vstackPop hs).bind fun _ h => errorsIn_arrayPatt.bind fun _ => ends_vstackPush h
  case fail line col =>
    exact (ends_vstackPop hs).bind fun _ _ => ends_error.mpr (by simp [NotStray])
  case binop op =>
    exact (ends_vstackPop hs).bind fun _ h => (ends_vstackPop h).bind fun _ h =>
      errorsIn_binop.bind fun _ => ends_vstackPush h
  case ld l => exact (hloc l).bind fun _ => errorsIn_loadWord.bind fun _ => ends_vstackPush hs
  case lda l =>
    exact (hloc l).bind fun _ => (ends_vstackPush hs).bind fun _ h => ends_vstackPush h
  case st l =>
    exact (hloc l).bind fun _ => (errorsIn_vstackTop hs.top).bind fun _ => ends_storeWord hs
  case patt pattern => exact ends_patt hs
  case lread => exact ends_vstackPush hs
  case lwrite => exact (ends_vstackPop hs).bind fun _ h => ends_vstackPush h.of_mem
  case llength =>
    exact (ends_vstackPop hs).bind fun _ h => errorsIn_llength.bind fun _ => ends_vstackPush h
  case stop => exact ends_error.mpr (by simp [NotStray])
  all_goals exact ends_ok.mpr hs

/-- A plain instruction makes no access outside the stack and leaves the top inside. -/
theorem ends_exec_plain {inst : Inst} (hinst : inst.isPlain = true) (hf : FrameBounds im s.frame)
    (ht : TopInside im s) : Ends NotStray (fun q => Within im s q.1) (exec im e f s inst) := by
  have hs := within_self ht
  cases inst
  case jmp target => exact ends_ok.mpr hs
  case cjmpz target => exact (ends_vstackPop hs).bind fun _ h => ends_ok.mpr h
  case cjmpnz target => exact (ends_vstackPop hs).bind fun _ h => ends_ok.mpr h
  case end_ => exact Bool.noConfusion hinst
  case ret => exact Bool.noConfusion hinst
  case call => exact Bool.noConfusion hinst
  case callc => exact Bool.noConfusion hinst
  all_goals
    refine (ends_allocRequest hf hs).bind fun o ho => ?_
    cases o with
    | none => exact (ends_execPlain hinst hf hs).bind fun _ h => ends_ok.mpr h
    | some r => exact (ends_allocObject (ho r rfl)).bind fun q hq =>
        (ends_afterAlloc hq).bind fun _ h => ends_ok.mpr h

/-! ### The condition on a step -/

/-- What decodes at `ip` is a prologue. -/
def PrologueAt (f : Bytefile) (ip : ℤ) : Prop :=
  ∀ inst next, readInst f ip = .ok (inst, next) → inst.isPrologue = true

/-- A call enters a body with a prologue, or the `locals_count` that its record still holds from an
    earlier call fits below the new base. -/
def Enters (im : Image) (f : Bytefile) (s : State) (target : ℤ) : Prop :=
  PrologueAt f target ∨ im.vstack + (s.cstack (s.ctop - 1)).localsCount ≤ s.top + 1

/-- The operands of the next instruction fit wherever the check in front of them lets them pass: neither
    the sum of the top and the arguments of a call nor the difference of the top and the locals of a
    prologue wraps around, and the locals, which are counted from the base of the frame, lie in the
    stack. -/
structure StepFits (im : Image) (f : Bytefile) (s : State) : Prop where
  prologue : ∀ inst next argc locc, s.Executes f inst next →
    inst = .begin argc locc ∨ inst = .cbegin argc locc →
      im.vstack < ptrAdd s.top (-toSize locc) →
        toSize locc ≤ s.top ∧ im.vstack + toSize locc ≤ s.frame.base + 1
  call : ∀ returnIp offset argc next, s.Executes f (.call returnIp offset argc) next →
    0 < s.ctop → ptrAdd s.top (toSize argc) < im.bottom →
      s.top + toSize argc < 2 ^ 30 ∧ Enters im f s offset
  callc : ∀ returnIp argc next, s.Executes f (.callc returnIp argc) next →
    ptrAdd s.top (1 + toSize argc) < im.bottom →
      s.top + 1 + toSize argc < 2 ^ 30 ∧ (0 < s.ctop →
        ∀ closure p entry, vstackKthFromEnd im s (toSize argc) = .ok closure →
          derefPtr closure = .ok p → loadWord im s p = .ok entry → Enters im f s entry.toInt)

/-- The next instruction stops on something else than an access outside `__vstack`, the globals,
    locals and arguments it names are slots of it, and it leaves both stack pointers inside. -/
structure StackContained (im : Image) (f : Bytefile) (e : Env) (s : State) : Prop where
  noStray : ErrorsIn NotStray (step im f e s)
  slots : ∀ inst next, s.Executes f inst next → ∀ l ∈ inst.locations,
    l.location ≠ some .captured → ∀ a, loc im e s l = .ok a → im.inStack a
  after : ∀ s', step im f e s = .ok s' → TopInside im s' ∧ s'.ctop ≤ cstackSize

/-! ### The invariant -/

/-- Every frame in use is inside the stack, and so are its locals, unless it has yet to reserve them. -/
structure StackInv (im : Image) (f : Bytefile) (s : State) : Prop where
  top : TopInside im s
  ctop : s.ctop ≤ cstackSize
  globals : s.globalsCount ≤ vstackSize
  frames : ∀ i, s.ctop ≤ i → i < cstackSize → FrameBounds im (s.cstack i)
  locals : ∀ i, s.ctop < i → i < cstackSize → LocalsBound im (s.cstack i)
  running : ∀ ip, s.ip = some ip → s.ctop < cstackSize ∧ (LocalsBound im s.frame ∨ PrologueAt f ip)
  main : (s.cstack (cstackSize - 1)).returnIp = none

namespace StackInv

theorem frame (h : StackInv im f s) {inst : Inst} {next : ℤ} (hi : s.Executes f inst next) :
    s.ctop < cstackSize ∧ FrameBounds im s.frame := by
  obtain ⟨ip, hip, -⟩ := hi
  have hlt := (h.running ip hip).1
  exact ⟨hlt, h.frames _ (Nat.le_refl _) hlt⟩

/-- Past its prologue, a frame has its locals in the stack. -/
theorem localsBound (h : StackInv im f s) {inst : Inst} {next : ℤ} (hi : s.Executes f inst next)
    (hp : inst.isPrologue = false) : LocalsBound im s.frame := by
  obtain ⟨ip, hip, hi⟩ := hi
  rcases (h.running ip hip).2 with hl | hpro
  · exact hl
  · rw [hpro inst next hi] at hp
    cases hp

end StackInv

theorem errorsIn_readInst (f : Bytefile) (ip : ℤ) : ErrorsIn NotStray (readInst f ip) := by
  have check : ∀ ip n, ErrorsIn NotStray (assertCanRead f ip n) :=
    fun ip n => errorsIn_bind.mpr ⟨errorsIn_check, fun _ _ => errorsIn_check⟩
  exact (ends_readInst (fun _ _ => by simp [NotStray])
    (fun ip => errorsIn_bind.mpr ⟨check _ _, fun _ _ => errorsIn_bind.mpr
      ⟨errorsIn_orStop_other (by decide), fun _ _ => errorsIn_ok⟩⟩)
    (fun ip => errorsIn_bind.mpr ⟨check _ _, fun _ _ => errorsIn_bind.mpr
      ⟨errorsIn_orStop_other (by decide), fun _ _ => errorsIn_ok⟩⟩) ip).1

/-! ### One step -/

/-- An instruction that leaves the call stack alone keeps the invariant. -/
theorem StackInv.of_within (h : StackInv im f s) {inst : Inst} {next : ℤ}
    (hi : s.Executes f inst next) (hp : inst.isPrologue = false) (hs : Within im s s') (ip : Option ℤ) :
    StackInv im f { s' with ip := ip } := by
  obtain ⟨htop, hcstack, hctop, hglobals⟩ := hs
  have hlt := (h.frame hi).1
  have hlocals := h.localsBound hi hp
  refine ⟨htop, ?_, ?_, ?_, ?_, ?_, ?_⟩ <;> simp only [hcstack, hctop, hglobals]
  · exact h.ctop
  · exact h.globals
  · exact h.frames
  · exact h.locals
  · exact fun _ _ => ⟨hlt, Or.inl hlocals⟩
  · exact h.main

/-- A prologue whose locals fit. -/
theorem StackInv.reserved (h : StackInv im f s) {inst : Inst} {next : ℤ} (hi : s.Executes f inst next)
    {n : ℕ} (hn : n ≤ s.top) (hbase : im.vstack + n ≤ s.frame.base + 1)
    (hroom : im.vstack < ptrAdd s.top (-n)) (ip : ℤ) :
    StackInv im f { s.reserved n with ip := some ip } := by
  obtain ⟨hlt, hframe⟩ := h.frame hi
  obtain ⟨htop, hctop, hglobals, hframes, hlocals, -, hmain⟩ := h
  have hb := im.bottom_lt
  have heq := ptrAdd_eq (p := s.top) (n := -n) (by omega) (by have := htop.2; omega)
  have hne : ∀ i, s.ctop < i → i ≠ s.ctop := fun i hi => by omega
  refine ⟨⟨?_, ?_⟩, hctop, hglobals, fun i h1 h2 => ?_, fun i h1 h2 => ?_, fun _ _ => ⟨hlt, Or.inl ?_⟩,
    ?_⟩
  · simp only [State.reserved]; omega
  · have := htop.2
    simp only [State.reserved]; omega
  · simp only [State.reserved]
    split
    · rename_i hi'
      rw [hi']
      exact ⟨hframe.base, hframe.args⟩
    · exact hframes i h1 h2
  · simp only [State.reserved] at h1 ⊢
    rw [if_neg (hne i h1)]
    exact hlocals i h1 h2
  · simp only [State.frame, State.reserved, if_pos, LocalsBound]
    exact hbase
  · simp only [State.reserved]
    split <;> exact hmain

/-- A call whose arguments fit, and whose body is entered with its locals in the stack. -/
theorem StackInv.called (h : StackInv im f s) {inst : Inst} {next : ℤ} (hi : s.Executes f inst next)
    (hp : inst.isPrologue = false) {returnIp target : ℤ} {n : ℕ} {c : Bool} (hpos : 0 < s.ctop)
    (hargs : s.top + n + c.toNat < im.bottom) (henters : Enters im f s target) :
    StackInv im f { s.called returnIp n c with ip := some target } := by
  have hlocals := h.localsBound hi hp
  obtain ⟨hlt, -⟩ := h.frame hi
  obtain ⟨htop, hctop, hglobals, hframes, hrest, -, hmain⟩ := h
  refine ⟨htop, ?_, hglobals, fun i h1 h2 => ?_, fun i h1 h2 => ?_, fun ip hip => ⟨?_, ?_⟩, ?_⟩
  · simp only [State.called]; omega
  · simp only [State.called] at h1 ⊢
    split
    · exact ⟨htop.1, hargs⟩
    · exact hframes i (by omega) h2
  · simp only [State.called] at h1 ⊢
    rw [if_neg (by omega)]
    by_cases heq : i = s.ctop
    · rw [heq]; exact hlocals
    · exact hrest i (by omega) h2
  · simp only [State.called]; omega
  · simp only [Option.some.injEq] at hip
    rw [← hip]
    rcases henters with hpro | hstale
    · exact Or.inr hpro
    · refine Or.inl ?_
      simp only [State.frame, State.called, if_pos, State.callee, LocalsBound]
      exact hstale
  · simp only [State.called]
    rw [if_neg (by omega)]
    exact hmain

/-- A return goes back to a frame that has its locals in the stack. -/
theorem StackInv.returned (h : StackInv im f s) (hlt : s.ctop < cstackSize)
    (hlo : im.vstack < s.frame.resultSlot) (hhi : s.frame.resultSlot < im.bottom) :
    StackInv im f { s.returned with ip := s.frame.returnIp } := by
  obtain ⟨htop, hctop, hglobals, hframes, hlocals, -, hmain⟩ := h
  refine ⟨⟨?_, ?_⟩, ?_, hglobals, fun i h1 h2 => ?_, fun i h1 h2 => ?_, fun ip hip => ?_, hmain⟩
  · simp only [State.returned]; omega
  · simp only [State.returned]; omega
  · simp only [State.returned]; omega
  · have h1 : s.ctop + 1 ≤ i := h1
    exact hframes i (by omega) h2
  · have h1 : s.ctop + 1 < i := h1
    exact hlocals i (by omega) h2
  · have hne : s.ctop ≠ cstackSize - 1 := by
      intro heq
      simp only at hip
      rw [State.frame, heq, hmain] at hip
      cases hip
    have hlt' : s.ctop + 1 < cstackSize := by omega
    exact ⟨hlt', Or.inl (hlocals (s.ctop + 1) (by omega) hlt')⟩

/-- `cstack_end` makes no access outside the stack. -/
theorem errorsIn_cstackEnd (ht : TopInside im s) (hf : FrameBounds im s.frame) :
    ErrorsIn NotStray (cstackEnd im s) := by
  have hb := im.bottom_lt
  obtain ⟨hlo, hhi⟩ := hf
  have hslot := ptrAdd_eq (p := s.frame.base) (n := s.frame.argsCount + s.frame.isClosure.toNat)
    (by omega) (by omega)
  have hend : Ends NotStray (fun _ => True) (cstackEnd im s) := by
    refine (ends_vstackPop (within_self ht)).bind fun r hr => ?_
    have hframe := hr.frame
    refine errorsIn_check.bind fun _ => errorsIn_check.bind fun _ => ?_
    have hinside : TopInside im { r.2 with
        top := ptrAdd r.2.frame.base (r.2.frame.argsCount + r.2.frame.isClosure.toNat) } := by
      rw [hframe]
      exact ⟨by simp only; omega, by simp only; omega⟩
    exact (ends_vstackPush (within_self hinside)).bind fun _ _ => ends_ok.mpr trivial
  exact hend.1

section
variable {inst : Inst} {next : ℤ} (h : StackInv im f s) (hi : s.Executes f inst next)
include h hi

/-- The invariant after an instruction, at the address it goes on. -/
abbrev NextInv (im : Image) (f : Bytefile) (next : ℤ) (q : State × Option (Option ℤ)) : Prop :=
  StackInv im f { q.1 with ip := q.2.getD (some next) }

theorem ends_prologue {argc locc : ℤ} (hfit : StepFits im f s)
    (hinst : inst = .begin argc locc ∨ inst = .cbegin argc locc) :
    Ends NotStray (NextInv im f next) (exec im e f s inst) := by
  have hexec : exec im e f s inst = cstackAlloc im s (toSize locc) >>= fun s' => .ok (s', none) := by
    rcases hinst with rfl | rfl <;> rfl
  rw [hexec]
  refine ⟨errorsIn_bind.mpr ⟨errorsIn_bind.mpr ⟨errorsIn_check, fun _ _ => errorsIn_ok⟩,
    fun _ _ => errorsIn_ok⟩, fun q hq => ?_⟩
  obtain ⟨s₁, h₁, hq⟩ := bind_eq_ok.mp hq
  obtain ⟨hroom, rfl⟩ := cstackAlloc_ok h₁
  obtain ⟨hn, hbase⟩ := hfit.prologue inst next argc locc hi hinst hroom
  cases hq
  exact h.reserved hi hn hbase hroom next

theorem ends_cstackCall (hp : inst.isPrologue = false) {returnIp target : ℤ} {n : ℕ} {c : Bool}
    (hfit : 0 < s.ctop → ptrAdd s.top n < im.bottom →
      s.top + n + c.toNat < im.bottom ∧ Enters im f s target) :
    Ends NotStray (NextInv im f next)
      (cstackCall im s returnIp n c >>= fun s' => .ok (s', some (some target))) := by
  refine ⟨errorsIn_bind.mpr ⟨errorsIn_bind.mpr ⟨errorsIn_check, fun _ _ => errorsIn_bind.mpr
    ⟨errorsIn_check, fun _ _ => errorsIn_ok⟩⟩, fun _ _ => errorsIn_ok⟩, fun q hq => ?_⟩
  obtain ⟨s₁, h₁, hq⟩ := bind_eq_ok.mp hq
  obtain ⟨hpos, hlt, rfl⟩ := cstackCall_ok h₁
  obtain ⟨hroom, henters⟩ := hfit hpos hlt
  cases hq
  exact h.called hi hp hpos hroom henters

theorem ends_return (hinst : inst = .end_ ∨ inst = .ret) :
    Ends NotStray (NextInv im f next) (exec im e f s inst) := by
  obtain ⟨hlt, hframe⟩ := h.frame hi
  have hexec : exec im e f s inst = cstackEnd im s >>= fun q => .ok (q.1, some q.2) := by
    rcases hinst with rfl | rfl <;> rfl
  rw [hexec]
  refine ⟨errorsIn_bind.mpr ⟨errorsIn_cstackEnd h.top hframe, fun _ _ => errorsIn_ok⟩, fun q hq => ?_⟩
  obtain ⟨q', hq', hq⟩ := bind_eq_ok.mp hq
  have htop : s.top < 2 ^ 30 := Nat.lt_trans h.top.2 im.bottom_lt
  obtain ⟨-, -, hlo, hhi, rfl⟩ := cstackEnd_ok htop hq'
  cases hq
  exact h.returned hlt hlo hhi

/-- An instruction with operands that fit. -/
theorem ends_exec (hfit : StepFits im f s) :
    Ends NotStray (NextInv im f next) (exec im e f s inst) := by
  obtain ⟨hlt, hframe⟩ := h.frame hi
  have hb := im.bottom_lt
  have htop := h.top.2
  cases inst
  case begin argc locc => exact ends_prologue h hi hfit (Or.inl rfl)
  case cbegin argc locc => exact ends_prologue h hi hfit (Or.inr rfl)
  case end_ => exact ends_return h hi (Or.inl rfl)
  case ret => exact ends_return h hi (Or.inr rfl)
  case call returnIp offset argc =>
    refine ends_cstackCall h hi rfl fun hpos hlt => ?_
    obtain ⟨hn, henters⟩ := hfit.call returnIp offset argc next hi hpos hlt
    have heq := ptrAdd_eq (p := s.top) (n := toSize argc) (by omega) (by omega)
    exact ⟨by rw [Bool.toNat_false]; omega, henters⟩
  case callc returnIp argc =>
    have hfits := hfit.callc returnIp argc next hi
    have hkth : Ends NotStray (fun closure => vstackKthFromEnd im s (toSize argc) = .ok closure)
        (vstackKthFromEnd im s (toSize argc)) :=
      ⟨errorsIn_vstackKthFromEnd h.top fun hlt => (hfits hlt).1, fun _ h => h⟩
    refine hkth.bind fun closure hclosure => ?_
    have hderef : Ends NotStray (fun p => derefPtr closure = .ok p) (derefPtr closure) :=
      ⟨errorsIn_derefPtr, fun _ h => h⟩
    refine hderef.bind fun p hp => ?_
    have hload : Ends NotStray (fun entry => loadWord im s p = .ok entry) (loadWord im s p) :=
      ⟨errorsIn_loadWord, fun _ h => h⟩
    refine hload.bind fun entry hentry => ?_
    obtain ⟨u, hc, -⟩ := bind_eq_ok.mp hclosure
    rw [ensure_eq_ok] at hc
    obtain ⟨hn, henters⟩ := hfits hc
    have heq := ptrAdd_eq (p := s.top) (n := 1 + toSize argc) (by omega) (by omega)
    refine ends_cstackCall h hi rfl fun hpos _ => ⟨?_, henters hpos closure p entry hclosure hp hentry⟩
    rw [Bool.toNat_true]
    omega
  all_goals exact (ends_exec_plain rfl hframe h.top).mono fun q hq => h.of_within hi rfl hq _

end

/-- One step from a state that satisfies the invariant, with operands that fit. -/
theorem ends_step (h : StackInv im f s) (hfit : StepFits im f s) :
    Ends NotStray (StackInv im f) (step im f e s) := by
  unfold step
  cases hip : s.ip with
  | none => exact ends_error.mpr (by simp [NotStray])
  | some ip =>
    have hread : Ends NotStray (fun r => readInst f ip = .ok r) (readInst f ip) :=
      ⟨errorsIn_readInst f ip, fun _ hr => hr⟩
    refine hread.bind fun r hr => ?_
    exact (ends_exec h ⟨ip, hip, hr⟩ hfit).bind fun q hq => ends_ok.mpr hq

/-! ### A whole run -/

theorem stackInv_init {heapBegin : ℕ} {ip : ℤ} (h : interpreteInit im f heapBegin ip = .ok s) :
    StackInv im f s := by
  obtain ⟨u, hc, h⟩ := bind_eq_ok.mp h
  rw [ensure_eq_ok] at hc
  cases h
  have hb := im.bottom_lt
  have hpos := im.vstack_pos
  have hbot : im.bottom = im.vstack + vstackSize := rfl
  have htop := ptrAdd_eq (p := im.bottom - 1) (n := -toSize f.globalAreaSize)
    (by unfold vstackSize at *; omega) (by unfold vstackSize at *; omega)
  have hsize : vstackSize = 65536 := rfl
  have hc' : cstackSize = 65536 := rfl
  refine ⟨⟨?_, ?_⟩, ?_, hc, fun i h1 h2 => ?_, fun i h1 h2 => ?_, fun _ _ => ⟨?_, Or.inl ?_⟩, ?_⟩
  · simp only; omega
  · simp only; omega
  · simp only; omega
  · have h1 : cstackSize - 1 ≤ i := h1
    have hi : i = cstackSize - 1 := by omega
    simp only [hi, if_pos]
    exact ⟨by simp only; omega, by simp only [Bool.toNat_false]; omega⟩
  · have h1 : cstackSize - 1 < i := h1
    omega
  · simp only; omega
  · simp only [State.frame, if_pos, LocalsBound]; omega
  · simp only [if_pos]

theorem stackInv_reach {s₀ : State} (h₀ : StackInv im f s₀)
    (h : Reach (Turn im f) (StepFits im f) s₀ s) : StackInv im f s :=
  h.invariant h₀ fun _ _ ha hfit ⟨_, hstep⟩ => (ends_step ha hfit).2 _ hstep

/-- In a run whose operands fit, every access to the stack is inside it, and so are both stack
    pointers after every step. -/
theorem stack_contained {heapBegin : ℕ} {ip : ℤ} {s₀ : State}
    (h₀ : interpreteInit im f heapBegin ip = .ok s₀)
    (h : Reach (Turn im f) (StepFits im f) s₀ s) (hfit : StepFits im f s) (e : Env) :
    StackContained im f e s := by
  have hinv := stackInv_reach (stackInv_init h₀) h
  have hstep := ends_step (e := e) hinv hfit
  refine ⟨hstep.1, fun inst next hi l hl hkind a ha => ?_, fun s' hs' => ?_⟩
  · have hp : inst.isPrologue = false := by cases inst <;> first | rfl | cases hl
    obtain ⟨v, -, hr⟩ := id hi
    exact loc_inStack (hinv.frame hi).2 (hinv.localsBound hi hp) hinv.globals
      (readInst_intLocations hr l hl) hkind ha
  · exact ⟨(hstep.2 s' hs').top, (hstep.2 s' hs').ctop⟩

/-- `PrologueAt`, computed. -/
def prologueAt (f : Bytefile) (ip : ℤ) : Bool := (readInst f ip).toOption.all fun r => r.1.isPrologue

/-- `StepFits`, computed, for calls that enter bodies with a prologue. -/
def stepFits (im : Image) (f : Bytefile) (s : State) : Bool :=
  match s.fetch f with
  | some (.begin _ locc, _) | some (.cbegin _ locc, _) =>
    decide (toSize locc ≤ s.top ∧ im.vstack + toSize locc ≤ s.frame.base + 1)
  | some (.call _ offset argc, _) => decide (s.top + toSize argc < 2 ^ 30) && prologueAt f offset
  | some (.callc _ argc, _) => decide (s.top + 1 + toSize argc < 2 ^ 30) &&
      (do loadWord im s (← derefPtr (← vstackKthFromEnd im s (toSize argc)))).toOption.all
        fun entry : Word => prologueAt f entry.toInt
  | _ => true

theorem prologueAt_of {ip : ℤ} (h : prologueAt f ip = true) : PrologueAt f ip := by
  intro inst next hi
  rwa [prologueAt, hi] at h

theorem stepFits_of (h : stepFits im f s = true) : StepFits im f s := by
  refine ⟨fun inst next argc locc hi hinst _ => ?_, fun returnIp offset argc next hi _ _ => ?_,
    fun returnIp argc next hi _ => ?_⟩ <;> rw [stepFits, State.executes_iff.mp hi] at h
  · rcases hinst with rfl | rfl <;> exact of_decide_eq_true h
  · obtain ⟨hn, hp⟩ := (Bool.and_eq_true _ _).mp h
    exact ⟨of_decide_eq_true hn, Or.inl (prologueAt_of hp)⟩
  · obtain ⟨hn, hp⟩ := (Bool.and_eq_true _ _).mp h
    refine ⟨of_decide_eq_true hn, fun _ closure p entry hclosure hderef hload => Or.inl (prologueAt_of ?_)⟩
    have hentry : (do loadWord im s (← derefPtr (← vstackKthFromEnd im s (toSize argc)))) = .ok entry :=
      bind_eq_ok.mpr ⟨closure, hclosure, bind_eq_ok.mpr ⟨p, hderef, hload⟩⟩
    rwa [hentry] at hp

/-- A turn from a state where the operands fit. -/
def fittingTurn (im : Image) (f : Bytefile) (s : State) (e : Env) : Except Stop State := do
  ensure (stepFits im f s = true) .exit
  step im f e s

theorem turn_of_fittingTurn {a b : State} (h : fittingTurn im f a e = .ok b) :
    StepFits im f a ∧ Turn im f a b := by
  obtain ⟨u, hfit, h⟩ := bind_eq_ok.mp h
  exact ⟨stepFits_of (ensure_eq_ok.mp hfit), e, h⟩

/-- `BEGIN 0 0; CLOSURE 29; CONST 7; CALLC 1; END; CBEGIN 1 2; LD A(0); ST L(1); END`. -/
def closureLocal : List UInt8 :=
  82 :: intBytes 0 ++ intBytes 0 ++ 84 :: intBytes 29 ++ intBytes 0 ++ 16 :: intBytes 7 ++
    85 :: intBytes 1 ++ 22 :: 83 :: intBytes 1 ++ intBytes 2 ++ 34 :: intBytes 0 ++ 65 :: intBytes 1 ++ [22]

/-- After six steps a closure stores its argument in a local. -/
theorem stack_contained_closureLocal :
    ∃ s₀ s, interpreteInit sampleImage (program 0 closureLocal) sampleHeap 0 = .ok s₀ ∧
      Reach (Turn sampleImage (program 0 closureLocal)) (StepFits sampleImage (program 0 closureLocal)) s₀ s ∧
      s.Executes (program 0 closureLocal) (.st ⟨1, 1⟩) 48 ∧
      StackContained sampleImage (program 0 closureLocal) sampleEnv s := by
  have hrun : (interpreteInit sampleImage (program 0 closureLocal) sampleHeap 0 >>= fun s₀ =>
      (List.replicate 6 sampleEnv).foldlM (fittingTurn sampleImage (program 0 closureLocal)) s₀).map
        (fun s => (s.ip, stepFits sampleImage (program 0 closureLocal) s)) = .ok (some 43, true) := by
    decide +kernel
  have hread : readInst (program 0 closureLocal) 43 = .ok (.st ⟨1, 1⟩, 48) := by decide +kernel
  obtain ⟨s, hs, hobs⟩ := exists_of_map_eq_ok hrun
  obtain ⟨s₀, h₀, hs⟩ := bind_eq_ok.mp hs
  rw [Prod.mk.injEq] at hobs
  have hreach := reach_of_foldlM (fun _ _ _ ht => turn_of_fittingTurn ht) hs
  exact ⟨s₀, s, h₀, hreach, ⟨43, hobs.1, hread⟩, stack_contained h₀ hreach (stepFits_of hobs.2) sampleEnv⟩

/-- `BEGIN 0 -1`. -/
def negativeLocals : List UInt8 := 82 :: intBytes 0 ++ [255, 255, 255, 255]

/-- A prologue with `-1` locals moves the top one up, to the bottom of the stack. -/
theorem negativeLocals_escape :
    ∃ s₀, interpreteInit sampleImage (program 0 negativeLocals) sampleHeap 0 = .ok s₀ ∧
      ¬ StackContained sampleImage (program 0 negativeLocals) sampleEnv s₀ := by
  have hrun : (interpreteInit sampleImage (program 0 negativeLocals) sampleHeap 0).map
      (fun s => (step sampleImage (program 0 negativeLocals) sampleEnv s).map (·.top)) =
        .ok (.ok sampleImage.bottom) := by decide +kernel
  obtain ⟨s₀, h₀, hs⟩ := exists_of_map_eq_ok hrun
  obtain ⟨s', hs', htop⟩ := exists_of_map_eq_ok hs
  refine ⟨s₀, h₀, fun h => ?_⟩
  have := (h.after s' hs').1.2
  omega

end Lama

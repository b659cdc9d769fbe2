import PlvmHomeworks.Lib.Runs
import PlvmHomeworks.Tools.Accepted
import PlvmHomeworks.Tools.Machine

/-! Runs of the interpreter, with the history that the properties of the verifier speak of, and the
    rule that lifts an invariant of one frame to all frames of a run. -/

namespace Lama
open Outcome Runs

/-- A frame that has not returned: where it was entered, whether it has executed nothing yet, the
    argument count of the call that entered it, and how many values the closure it runs captured
    (0 when it was entered by `CALL`). -/
structure Activation where
  entry : ℤ
  fresh : Bool
  argc : ℤ
  captured : ℕ
  deriving DecidableEq, Repr

def Activation.started (a : Activation) : Activation := { a with fresh := false }

/-- A state with the activations of its frames, innermost first, and the entry and the number of
    captured values of every `CLOSURE` executed so far. -/
structure Tracked where
  state : State
  frames : List Activation
  closures : List (ℤ × ℕ)

/-- The innermost frame has executed an instruction. -/
def started : List Activation → List Activation
  | [] => []
  | a :: as => a.started :: as

/-- The frame that a call leading to state `s` entered. -/
def entered (s : State) (argc : ℤ) (captured : ℕ) : Activation := ⟨s.ip.getD 0, true, argc, captured⟩

/-- The history after `inst` led from `t` to the state `s'`. -/
def Tracked.after (im : Image) (t : Tracked) (inst : Inst) (s' : State) : Tracked :=
  match inst with
  | .call _ _ argc => ⟨s', entered s' argc 0 :: started t.frames, t.closures⟩
  | .callc _ argc =>
    let captured := match runningClosure im t.state argc with
      | .ok c => c.2
      | .error _ => 0
    ⟨s', entered s' argc captured :: started t.frames, t.closures⟩
  | .end_ | .ret => ⟨s', t.frames.tail, t.closures⟩
  | .closure entry captured => ⟨s', started t.frames, (entry, captured.length) :: t.closures⟩
  | _ => ⟨s', started t.frames, t.closures⟩

/-- The instruction `t` is about to execute, and the address after it. -/
def Tracked.Executes (f : Bytefile) (t : Tracked) (inst : Inst) (next : ℤ) : Prop :=
  ∃ ip, t.state.ip = some ip ∧ readInst f ip = .ok (inst, next)

/-- One turn of the loop of `interprete`, with its history. -/
def Tracked.Step (im : Image) (f : Bytefile) (t t' : Tracked) : Prop :=
  ∃ e inst next, t.Executes f inst next ∧ step im f e t.state = .ok t'.state ∧
    t' = t.after im inst t'.state

/-- A state before the first turn: the main frame is entered at `ip`. -/
def Tracked.Starts (im : Image) (f : Bytefile) (ip : ℤ) (t : Tracked) : Prop :=
  ∃ heapBegin, interpreteInit im f heapBegin ip = .ok t.state ∧ t.frames = [⟨ip, true, 0, 0⟩] ∧
    t.closures = []

/-- A `CALLC` finds a closure that a `CLOSURE` instruction executed before built. -/
def ClosureBuilt (im : Image) (f : Bytefile) (t : Tracked) : Prop :=
  ∀ returnIp argc next, t.Executes f (.callc returnIp argc) next →
    ∃ c ∈ t.closures, runningClosure im t.state argc = .ok c

/-! ### Frame by frame -/

/-- An invariant of one frame: its activation, its record, the address it executes (or comes back to)
    and the top of the stack there. And what it knows of every closure built. -/
structure FrameInv where
  frame : Activation → Frame → ℤ → ℕ → Prop
  closure : ℤ × ℕ → Prop

/-- The frames below `callee`, the innermost of which has index `c`: each goes on where the frame
    above it returns to, with the result on the stack. -/
def FrameInv.Resumes (I : FrameInv) (cstack : ℕ → Frame) (callee : Frame) : ℕ → List Activation → Prop
  | c, [] => c = cstackSize ∧ callee.returnIp = none
  | c, a :: as =>
    (∃ ip, callee.returnIp = some ip ∧
      (0 < callee.resultSlot → I.frame a (cstack c) ip (callee.resultSlot - 1))) ∧
      a.fresh = false ∧ I.Resumes cstack (cstack c) (c + 1) as

/-- The frames of a state satisfy the invariant. -/
inductive FrameInv.Frames (I : FrameInv) (s : State) : List Activation → Prop
  | ended : s.ip = none → Frames I s []
  | running {a : Activation} {as : List Activation} {ip : ℤ} : s.ip = some ip →
      (a.fresh = true → ip = a.entry ∧ s.top = s.frame.base) →
      I.frame a s.frame ip s.top → I.Resumes s.cstack s.frame (s.ctop + 1) as → Frames I s (a :: as)

structure FrameInv.Holds (I : FrameInv) (t : Tracked) : Prop where
  top_lt : t.state.top < 2 ^ 30
  closures : ∀ c ∈ t.closures, I.closure c
  frames : I.Frames t.state t.frames

/-- The innermost frame of `t` executes `inst` at `ip`. -/
structure At (f : Bytefile) (t : Tracked) (a : Activation) (ip : ℤ) (inst : Inst) (next : ℤ) :
    Prop where
  frames : ∃ as, t.frames = a :: as
  address : t.state.ip = some ip
  decoded : readInst f ip = .ok (inst, next)
  fresh : a.fresh = true → ip = a.entry ∧ t.state.top = t.state.frame.base

/-- What each kind of instruction must do to the invariant of its frame. -/
structure FrameInv.Rules (I : FrameInv) (im : Image) (f : Bytefile) (ok : Tracked → Prop) : Prop where
  plain : ∀ {t a ip inst next ip' top'}, At f t a ip inst next → ok t →
    I.frame a t.state.frame ip t.state.top → inst.isPlain = true →
    top' + inst.pushes = t.state.top + inst.pops →
    (0 < inst.pops → t.state.top + inst.pops < im.bottom) → ip' ∈ inst.frameSuccessors next →
    I.frame a.started t.state.frame ip' top'
  prologue : ∀ {t a ip inst next argc locc}, At f t a ip inst next → ok t →
    I.frame a t.state.frame ip t.state.top → inst = .begin argc locc ∨ inst = .cbegin argc locc →
    im.vstack < ptrAdd t.state.top (-toSize locc) →
    I.frame a.started { t.state.frame with localsCount := toSize locc } next
      (ptrAdd t.state.top (-toSize locc))
  call : ∀ {t a ip next offset argc}, At f t a ip (.call next offset argc) next → ok t →
    I.frame a t.state.frame ip t.state.top → ptrAdd t.state.top (toSize argc) < im.bottom →
    let callee := t.state.callee next (toSize argc) false
    I.frame ⟨offset, true, argc, 0⟩ callee offset callee.base ∧
      (0 < callee.resultSlot → I.frame a.started t.state.frame next (callee.resultSlot - 1))
  callc : ∀ {t a ip next argc c}, At f t a ip (.callc next argc) next → ok t →
    I.frame a t.state.frame ip t.state.top → ptrAdd t.state.top (toSize argc) < im.bottom →
    runningClosure im t.state argc = .ok c → I.closure c →
    let callee := t.state.callee next (toSize argc) true
    I.frame ⟨c.1, true, argc, c.2⟩ callee c.1 callee.base ∧
      (0 < callee.resultSlot → I.frame a.started t.state.frame next (callee.resultSlot - 1))
  closure : ∀ {t a ip next entry captured}, At f t a ip (.closure entry captured) next → ok t →
    I.frame a t.state.frame ip t.state.top → I.closure (entry, captured.length)

/-- What a state with an address to execute says about its innermost frame. -/
theorem FrameInv.Holds.current {I : FrameInv} {t : Tracked} (h : I.Holds t) {ip : ℤ}
    (hip : t.state.ip = some ip) : ∃ a as, t.frames = a :: as ∧
      (a.fresh = true → ip = a.entry ∧ t.state.top = t.state.frame.base) ∧
      I.frame a t.state.frame ip t.state.top := by
  have hframes := h.frames
  generalize t.frames = frames at hframes
  cases hframes with
  | ended hnone => rw [hnone] at hip; cases hip
  | @running a as ip' hip' hfresh hframe _ =>
    rw [hip, Option.some.injEq] at hip'
    subst hip'
    exact ⟨a, as, rfl, hfresh, hframe⟩

/-- The same for the frame an instruction is executed in. -/
theorem FrameInv.Holds.at {I : FrameInv} {f : Bytefile} {t : Tracked} {a : Activation} {ip next : ℤ}
    {inst : Inst} (h : I.Holds t) (hat : At f t a ip inst next) :
    I.frame a t.state.frame ip t.state.top := by
  obtain ⟨a', as', has', -, hframe⟩ := h.current hat.address
  obtain ⟨as, has⟩ := hat.frames
  rw [has, List.cons.injEq] at has'
  rw [has'.1]; exact hframe

/-- Records at other indices do not matter to the frames from index `c` on. -/
theorem FrameInv.Resumes.congr {I : FrameInv} {cstack cstack' : ℕ → Frame} :
    ∀ {callee : Frame} {c : ℕ} {as : List Activation}, (∀ i, c ≤ i → cstack' i = cstack i) →
      I.Resumes cstack callee c as → I.Resumes cstack' callee c as
  | _, _, [], _, h => h
  | callee, c, a :: as, hc, ⟨h, hf, hr⟩ => by
    refine ⟨?_, hf, ?_⟩
    · rw [hc c (Nat.le_refl c)]; exact h
    · rw [hc c (Nat.le_refl c)]
      exact hr.congr fun i hi => hc i (by omega)

/-- The result slot of a frame depends on no locals. -/
theorem FrameInv.Resumes.callee_congr {I : FrameInv} {cstack : ℕ → Frame} {callee : Frame} {n c : ℕ}
    {as : List Activation} (h : I.Resumes cstack callee c as) :
    I.Resumes cstack { callee with localsCount := n } c as := by
  cases as with
  | nil => exact h
  | cons a as => exact h

theorem Effect.top_lt {im : Image} {e : Env} {f : Bytefile} {s s' : State} {next : ℤ} {inst : Inst}
    (ht : s.top < 2 ^ 30) (h : Effect im e f s next inst s') : s'.top < 2 ^ 30 := by
  have hb := im.bottom_lt
  cases h with
  | plain _ heff =>
    have htop := heff.top
    have hroom := heff.room
    omega
  | prologue => exact ptrAdd_lt _ _
  | call => exact ht
  | callc => exact ht
  | ret _ _ _ _ hr =>
    have : s.frame.resultSlot - 1 < 2 ^ 30 := by omega
    exact this

/-- The history after a plain instruction. -/
theorem Tracked.after_plain {im : Image} {t : Tracked} {inst : Inst} {s' : State}
    (h : inst.isPlain = true) :
    (t.after im inst s').state = s' ∧ (t.after im inst s').frames = started t.frames ∧
      ∀ c ∈ (t.after im inst s').closures, c ∈ t.closures ∨
        ∃ entry captured, inst = .closure entry captured ∧ c = (entry, captured.length) := by
  cases inst
  case closure entry captured =>
    refine ⟨rfl, rfl, fun c hc => ?_⟩
    rcases List.mem_cons.mp hc with rfl | hc
    · exact Or.inr ⟨entry, captured, rfl, rfl⟩
    · exact Or.inl hc
  all_goals first | exact ⟨rfl, rfl, fun c hc => Or.inl hc⟩ | exact Bool.noConfusion h

theorem runningClosure_entry {im : Image} {s : State} {argc : ℤ} {c : ℤ × ℕ} {closure entry : Word}
    {p : ℕ} (h : runningClosure im s argc = .ok c)
    (hk : vstackKthFromEnd im s (toSize argc) = .ok closure) (hp : derefPtr closure = .ok p)
    (he : loadWord im s p = .ok entry) : c.1 = entry.toInt := by
  obtain ⟨closure', hk', h⟩ := bind_eq_ok.mp h
  obtain ⟨p', hp', h⟩ := bind_eq_ok.mp h
  obtain ⟨entry', he', h⟩ := bind_eq_ok.mp h
  obtain ⟨header, -, h⟩ := bind_eq_ok.mp h
  cases h
  rw [hk, Except.ok.injEq] at hk'
  rw [← hk', hp, Except.ok.injEq] at hp'
  rw [← hp', he, Except.ok.injEq] at he'
  rw [he']

/-- A call suspends its frame and enters a new one. -/
theorem FrameInv.frames_called {I : FrameInv} {s : State} {a : Activation} {as : List Activation}
    {target next argc : ℤ} {n captured : ℕ} {c : Bool} (hpos : 0 < s.ctop)
    (hcallee : I.frame ⟨target, true, argc, captured⟩ (s.callee next n c) target s.top)
    (hcaller : 0 < (s.callee next n c).resultSlot →
      I.frame a.started s.frame next ((s.callee next n c).resultSlot - 1))
    (hresume : I.Resumes s.cstack s.frame (s.ctop + 1) as) :
    I.Frames { s.called next n c with ip := some target }
      (⟨target, true, argc, captured⟩ :: a.started :: as) := by
  have hsame : ∀ i, s.ctop ≤ i → (s.called next n c).cstack i = s.cstack i := fun i hi => by
    simp only [State.called]; rw [if_neg (by omega)]
  have hframe : ({ s.called next n c with ip := some target } : State).frame = s.callee next n c := by
    simp [State.frame, State.called]
  refine .running rfl (fun _ => ⟨rfl, by rw [hframe]; rfl⟩) (by rw [hframe]; exact hcallee) ?_
  rw [hframe]
  have hctop : ({ s.called next n c with ip := some target } : State).ctop + 1 = s.ctop := by
    show s.ctop - 1 + 1 = s.ctop
    omega
  rw [hctop]
  refine ⟨⟨next, rfl, ?_⟩, rfl, ?_⟩
  · have := hsame s.ctop (Nat.le_refl _)
    dsimp only
    rw [this]; exact hcaller
  · have := hsame s.ctop (Nat.le_refl _)
    dsimp only
    rw [this]; exact hresume.congr fun i hi => hsame i (by omega)

theorem Effect.globalsCount {im : Image} {e : Env} {f : Bytefile} {s s' : State} {next : ℤ}
    {inst : Inst} (h : Effect im e f s next inst s') : s'.globalsCount = s.globalsCount := by
  cases h with
  | plain _ heff => exact heff.control.globalsCount
  | prologue => rfl
  | call => rfl
  | callc => rfl
  | ret => rfl

/-- The step lemma: a guarded step keeps the invariant of every frame. -/
theorem FrameInv.Rules.step {I : FrameInv} {im : Image} {f : Bytefile} {ok : Tracked → Prop}
    (hI : I.Rules im f ok) (hclosure : ∀ t, ok t → ClosureBuilt im f t) {t t' : Tracked}
    (h : I.Holds t) (hok : ok t) (hstep : t.Step im f t') : I.Holds t' := by
  obtain ⟨e, inst, next, hexec, hs, ht'⟩ := hstep
  obtain ⟨ip, hip, hi⟩ := hexec
  obtain ⟨ip', inst', next', hip', hi', heff⟩ := step_cases h.top_lt hs
  rw [hip, Option.some.injEq] at hip'
  rw [← hip', hi, Except.ok.injEq, Prod.mk.injEq] at hi'
  rw [← hi'.1, ← hi'.2] at heff
  have htop := heff.top_lt h.top_lt
  have hframes := h.frames
  generalize hfs : t.frames = frames at hframes
  cases hframes with
  | ended hnone => rw [hnone] at hip; cases hip
  | @running a as ip₀ hip₀ hfresh hframe hresume =>
    rw [hip, Option.some.injEq] at hip₀
    subst hip₀
    have hat : At f t a ip inst next := ⟨⟨as, hfs⟩, hip, hi, hfresh⟩
    have notFresh : ∀ {P : Prop}, a.started.fresh = true → P := fun h => Bool.noConfusion h
    generalize hs' : t'.state = s' at heff htop ht'
    rw [ht']
    cases heff with
    | @plain _ _ ip' hplain heff hip' hsucc =>
      obtain ⟨hstate, hfr, hcl⟩ := @Tracked.after_plain im t inst s' hplain
      have hc := heff.control
      refine ⟨by rw [hstate]; exact htop, fun c hmem => ?_, ?_⟩
      · rcases hcl c hmem with hmem | ⟨entry, captured, rfl, rfl⟩
        · exact h.closures c hmem
        · exact hI.closure hat hok hframe
      · rw [hstate, hfr, hfs]
        have hfr' : s'.frame = t.state.frame := by rw [State.frame, State.frame, hc.cstack, hc.ctop]
        refine .running hip' notFresh ?_ ?_
        · rw [hfr']; exact hI.plain hat hok hframe hplain heff.top heff.room hsucc
        · rw [hfr', hc.cstack, hc.ctop]; exact hresume
    | @prologue _ argc locc hinst hlo =>
      have hafter : ∀ s', t.after im inst s' = ⟨s', started t.frames, t.closures⟩ := by
        rcases hinst with rfl | rfl <;> exact fun _ => rfl
      rw [hafter, hfs]
      refine ⟨htop, h.closures, .running rfl notFresh ?_ ?_⟩
      · have := hI.prologue hat hok hframe hinst hlo
        simpa [State.frame, State.reserved] using this
      · have hcongr : I.Resumes (t.state.reserved (toSize locc)).cstack t.state.frame
            (t.state.ctop + 1) as :=
          hresume.congr fun i hi => by
            simp only [State.reserved]; rw [if_neg (by omega)]
        have := hcongr.callee_congr (n := toSize locc)
        simpa [State.frame, State.reserved] using this
    | @call returnIp offset argc hpos hroom =>
      obtain rfl := readInst_call hi
      obtain ⟨hcallee, hcaller⟩ := hI.call hat hok hframe hroom
      refine ⟨htop, h.closures, ?_⟩
      have := FrameInv.frames_called hpos hcallee hcaller hresume
      simpa [Tracked.after, entered, hfs, Lama.started] using this
    | @callc returnIp argc closure entry p hpos hroom hk hp he =>
      obtain rfl := readInst_callc hi
      obtain ⟨c, hmem, hrun⟩ := hclosure t hok returnIp argc returnIp ⟨ip, hip, hi⟩
      have hentry := runningClosure_entry hrun hk hp he
      obtain ⟨hcallee, hcaller⟩ := hI.callc hat hok hframe hroom hrun (h.closures c hmem)
      refine ⟨htop, h.closures, ?_⟩
      have := FrameInv.frames_called hpos hcallee hcaller hresume
      rw [hentry] at this
      simpa [Tracked.after, entered, hfs, Lama.started, hrun] using this
    | ret hinst hroom hne hlo hhi =>
      have hafter : ∀ s', t.after im inst s' = ⟨s', t.frames.tail, t.closures⟩ := by
        rcases hinst with rfl | rfl <;> exact fun _ => rfl
      rw [hafter, hfs]
      refine ⟨htop, h.closures, ?_⟩
      cases as with
      | nil => exact .ended hresume.2
      | cons b bs =>
        obtain ⟨⟨ip', hret, hb⟩, hbf, hrest⟩ := hresume
        exact .running hret (fun h => by rw [hbf] at h; cases h) (hb (by omega)) hrest

/-- The run lemma: every state reached by guarded steps satisfies the invariant. -/
theorem FrameInv.Rules.reach {I : FrameInv} {im : Image} {f : Bytefile} {ok : Tracked → Prop}
    (hI : I.Rules im f ok) (hclosure : ∀ t, ok t → ClosureBuilt im f t) {t t' : Tracked}
    (h : I.Holds t) (hreach : Reach (Tracked.Step im f) ok t t') : I.Holds t' :=
  hreach.invariant h fun _ _ ha hok hab => hI.step hclosure ha hok hab

/-- The invariant may be assumed in the guard of a further one. -/
theorem FrameInv.Rules.strengthen {I : FrameInv} {im : Image} {f : Bytefile} {ok : Tracked → Prop}
    (hI : I.Rules im f ok) (hclosure : ∀ t, ok t → ClosureBuilt im f t) {t t' : Tracked}
    (h : I.Holds t) (hreach : Reach (Tracked.Step im f) ok t t') :
    Reach (Tracked.Step im f) (fun t => ok t ∧ I.Holds t) t t' :=
  hreach.strengthen h fun _ _ ha hok hab => hI.step hclosure ha hok hab

/-- The main frame of `interprete`. -/
theorem interpreteInit_ok {im : Image} {f : Bytefile} {heapBegin : ℕ} {ip : ℤ} {s : State}
    (h : interpreteInit im f heapBegin ip = .ok s) :
    s.ip = some ip ∧ s.globalsCount = toSize f.globalAreaSize ∧ s.globalsCount ≤ vstackSize ∧
      s.top + s.globalsCount + 1 = im.bottom ∧ s.ctop = cstackSize - 1 ∧
      s.frame = ⟨none, false, s.top, 0, 0⟩ := by
  obtain ⟨u, hc, h⟩ := bind_eq_ok.mp h
  rw [ensure_eq_ok] at hc
  cases h
  refine ⟨rfl, rfl, hc, ?_, rfl, by simp [State.frame]⟩
  have hpos := im.vstack_pos
  have hb := im.bottom_lt
  have hbot : im.bottom = im.vstack + vstackSize := rfl
  have := ptrAdd_eq (p := im.bottom - 1) (n := -(toSize f.globalAreaSize : ℤ)) (by omega) (by omega)
  show ptrAdd (im.bottom - 1) (-(toSize f.globalAreaSize : ℤ)) + toSize f.globalAreaSize + 1 = im.bottom
  omega

/-- The number of globals never changes. -/
theorem FrameInv.Rules.globalsCount {I : FrameInv} {im : Image} {f : Bytefile} {ok : Tracked → Prop}
    (hI : I.Rules im f ok) (hclosure : ∀ t, ok t → ClosureBuilt im f t) {ip : ℤ} {t t' : Tracked}
    (ht : t.Starts im f ip) (h : I.Holds t) (hreach : Reach (Tracked.Step im f) ok t t') :
    t'.state.globalsCount = toSize f.globalAreaSize := by
  have hstart : t.state.globalsCount = toSize f.globalAreaSize := by
    obtain ⟨heapBegin, hinit, -, -⟩ := ht
    exact (interpreteInit_ok hinit).2.1
  refine (hI.strengthen hclosure h hreach).invariant
    (I := fun t => t.state.globalsCount = toSize f.globalAreaSize) hstart fun a b ha hok hab => ?_
  obtain ⟨e, inst, next, -, hs, -⟩ := hab
  obtain ⟨ip', inst', next', -, -, heff⟩ := step_cases hok.2.top_lt hs
  exact heff.globalsCount.trans ha

theorem FrameInv.holds_of_starts {I : FrameInv} {im : Image} {f : Bytefile} {ip : ℤ} {t : Tracked}
    (h : t.Starts im f ip)
    (hI : I.frame ⟨ip, true, 0, 0⟩ ⟨none, false, t.state.top, 0, 0⟩ ip t.state.top) : I.Holds t := by
  obtain ⟨heapBegin, hinit, hfs, hcl⟩ := h
  obtain ⟨hip, -, -, htop, hctop, hframe⟩ := interpreteInit_ok hinit
  have hb := im.bottom_lt
  have hnone : ∀ c ∈ t.closures, I.closure c := by simp [hcl]
  refine ⟨by omega, hnone, ?_⟩
  rw [hfs]
  refine .running hip (fun _ => ⟨rfl, by rw [hframe]⟩) (by rw [hframe]; exact hI) ?_
  rw [hctop, hframe]
  exact ⟨rfl, rfl⟩

/-! ### Runs that can be computed -/

/-- The instruction `t` is about to execute, if it decodes. -/
def Tracked.fetch (f : Bytefile) (t : Tracked) : Option (Inst × ℤ) :=
  match t.state.ip with
  | none => none
  | some ip =>
    match readInst f ip with
    | .ok r => some r
    | .error _ => none

theorem Tracked.executes_iff {f : Bytefile} {t : Tracked} {inst : Inst} {next : ℤ} :
    t.Executes f inst next ↔ t.fetch f = some (inst, next) := by
  unfold Tracked.Executes Tracked.fetch
  cases t.state.ip with
  | none => simp
  | some ip =>
    cases h : readInst f ip with
    | error e => simp [h]
    | ok r => simp [h]

/-- The instruction a state is about to execute, and the address after it. -/
def State.Executes (f : Bytefile) (s : State) (inst : Inst) (next : ℤ) : Prop :=
  ∃ ip, s.ip = some ip ∧ readInst f ip = .ok (inst, next)

/-- The instruction a state is about to execute, if it decodes. -/
def State.fetch (f : Bytefile) (s : State) : Option (Inst × ℤ) :=
  Tracked.fetch f ⟨s, [], []⟩

theorem State.executes_iff {f : Bytefile} {s : State} {inst : Inst} {next : ℤ} :
    s.Executes f inst next ↔ s.fetch f = some (inst, next) :=
  Tracked.executes_iff (t := ⟨s, [], []⟩)

/-- One turn of the loop, computed. -/
def Tracked.turn (im : Image) (f : Bytefile) (e : Env) (t : Tracked) : Except Stop Tracked := do
  let r ← orStop (t.fetch f) .exit
  let s ← Lama.step im f e t.state
  return t.after im r.1 s

/-- As many turns as there are inputs; it stops where `ok` fails. -/
def Tracked.run (im : Image) (f : Bytefile) (ok : Tracked → Bool) :
    List Env → Tracked → Except Stop Tracked
  | [], t => .ok t
  | e :: es, t => do
    ensure (ok t = true) .exit
    let t ← t.turn im f e
    Tracked.run im f ok es t

/-- A run from the start. -/
def Tracked.runFrom (im : Image) (f : Bytefile) (ok : Tracked → Bool) (heapBegin : ℕ) (ip : ℤ)
    (es : List Env) : Except Stop Tracked := do
  let s ← interpreteInit im f heapBegin ip
  Tracked.run im f ok es ⟨s, [⟨ip, true, 0, 0⟩], []⟩

theorem Tracked.step_of_turn {im : Image} {f : Bytefile} {e : Env} {t t' : Tracked}
    (h : t.turn im f e = .ok t') : t.Step im f t' := by
  obtain ⟨⟨inst, next⟩, hr, h⟩ := bind_eq_ok.mp h
  obtain ⟨s, hs, h⟩ := bind_eq_ok.mp h
  rw [orStop_eq_ok] at hr
  cases h
  have hstate : (t.after im inst s).state = s := by cases inst <;> rfl
  exact ⟨e, inst, next, Tracked.executes_iff.mpr hr, by rw [hstate]; exact hs, by rw [hstate]⟩

theorem Tracked.reach_of_run {im : Image} {f : Bytefile} {okb : Tracked → Bool} {ok : Tracked → Prop}
    (hok : ∀ t, okb t = true → ok t) : ∀ {es : List Env} {t t' : Tracked},
      Tracked.run im f okb es t = .ok t' → Reach (Tracked.Step im f) ok t t'
  | [], t, t', h => by cases h; exact Reach.refl t
  | e :: es, t, t', h => by
    obtain ⟨u, hc, h⟩ := bind_eq_ok.mp h
    obtain ⟨t₁, ht, h⟩ := bind_eq_ok.mp h
    rw [ensure_eq_ok] at hc
    exact Relation.ReflTransGen.head ⟨hok t hc, Tracked.step_of_turn ht⟩ (Tracked.reach_of_run hok h)

/-- What a computed run shows. -/
theorem Tracked.exists_reach {α : Type} {im : Image} {f : Bytefile} {okb : Tracked → Bool}
    {ok : Tracked → Prop} (hok : ∀ t, okb t = true → ok t) {heapBegin : ℕ} {ip : ℤ} {es : List Env}
    {obs : Tracked → α} {x : α} (h : (Tracked.runFrom im f okb heapBegin ip es).map obs = .ok x) :
    ∃ t t', t.Starts im f ip ∧ Reach (Tracked.Step im f) ok t t' ∧ obs t' = x := by
  obtain ⟨t', hrun, hx⟩ := exists_of_map_eq_ok h
  obtain ⟨s, hs, hrun⟩ := bind_eq_ok.mp hrun
  exact ⟨_, t', ⟨heapBegin, hs, rfl, rfl⟩, Tracked.reach_of_run hok hrun, hx⟩

/-- `ClosureBuilt`, computed. -/
def closureBuilt (im : Image) (f : Bytefile) (t : Tracked) : Bool :=
  match t.fetch f with
  | some (.callc _ argc, _) =>
    match runningClosure im t.state argc with
    | .ok c => t.closures.contains c
    | .error _ => false
  | _ => true

theorem closureBuilt_iff {im : Image} {f : Bytefile} {t : Tracked}
    (h : closureBuilt im f t = true) : ClosureBuilt im f t := by
  intro returnIp argc next hexec
  rw [Tracked.executes_iff] at hexec
  simp only [closureBuilt, hexec] at h
  cases hrun : runningClosure im t.state argc with
  | error e => rw [hrun] at h; cases h
  | ok c => rw [hrun] at h; exact ⟨c, by simpa using h, rfl⟩

theorem error_of_map_eq_error {ε α β : Type} {x : Except ε α} {g : α → β} {e : ε}
    (h : x.map g = .error e) : x = .error e := by
  cases x with
  | error e' =>
    cases h
    rfl
  | ok a => cases h

/-- The bytes of an `int`. -/
def intBytes (n : ℕ) : List UInt8 :=
  [UInt8.ofNat n, UInt8.ofNat (n / 2 ^ 8), UInt8.ofNat (n / 2 ^ 16), UInt8.ofNat (n / 2 ^ 24)]

/-- A file whose only public symbol is `main`, at the start of the code. -/
def programBytes (globals : ℕ) (code : List UInt8) : List UInt8 :=
  intBytes 5 ++ intBytes globals ++ intBytes 1 ++ intBytes 0 ++ intBytes 0 ++ mainName ++ [0] ++ code

/-- The file `read_file` makes of it. -/
def program (globals : ℕ) (code : List UInt8) : Bytefile :=
  { bytes := programBytes globals code
    size := toInt32 (headerOffset + (programBytes globals code).length)
    stringPtr := 8, codePtr := 13, stringtabSize := 5, globalAreaSize := globals
    publicSymbolsNumber := 1 }

/-- One way the process can be laid out. -/
def sampleImage : Image where
  vstack := 1000
  bstringRoot := 10
  lstringRoot := 12
  startCustomData := 20
  stopCustomData := 21
  buffer := 4000
  vstack_pos := by decide
  vstack_fits := by decide
  roots_differ := by decide
  bstringRoot_apart := by decide
  lstringRoot_apart := by decide
  customData_apart := by decide
  bstringRoot_custom := by decide
  lstringRoot_custom := by decide

def sampleHeap : ℕ := 100000

/-- A step without input, in which `mremap` moves the heap away. -/
def sampleEnv : Env where
  input := 0
  mremap := some 200000
  closureSize := 0
  printed := []
  stringBuf := 0

end Lama

import PlvmHomeworks.Tools.Frames
import PlvmHomeworks.Tools.StackBounds
import PlvmHomeworks.Tools.Values

/-! What `loc` answers: the slot of the variable it is asked for, or a failure.

    The variables of a frame are counted by what happened to it: the arguments of the call that entered
    it, the locals that its prologue reserved, the values that its closure captured. `loc` compares an
    index with the record of the frame, whose `locals_count` is left over from an earlier call until
    the prologue runs, and, for captured values, with a variable that is never set. -/

namespace Lama
open Outcome Runs

/-- What a frame was given so far: its arguments, whether it runs a closure, and the locals that its
    prologue reserved. -/
structure Shape where
  args : ℕ
  closure : Bool
  locals : ℕ
  deriving DecidableEq, Repr

/-- A state with the shapes of its frames, innermost first. -/
structure Shaped where
  state : State
  shapes : List Shape

/-- The shapes after an instruction. -/
def shapesAfter (inst : Inst) (shapes : List Shape) : List Shape :=
  match inst, shapes with
  | .call _ _ argc, shapes => ⟨toSize argc, false, 0⟩ :: shapes
  | .callc _ argc, shapes => ⟨toSize argc, true, 0⟩ :: shapes
  | .begin _ locc, a :: as | .cbegin _ locc, a :: as => { a with locals := toSize locc } :: as
  | .end_, shapes | .ret, shapes => shapes.tail
  | _, shapes => shapes

/-- One turn of the loop of `interprete`, with the shapes. -/
def Shaped.turn (im : Image) (f : Bytefile) (e : Env) (t : Shaped) : Except Stop Shaped := do
  let ip ← orStop t.state.ip .exit
  let (inst, _) ← readInst f ip
  let s ← step im f e t.state
  return ⟨s, shapesAfter inst t.shapes⟩

def Shaped.Step (im : Image) (f : Bytefile) (t t' : Shaped) : Prop := ∃ e, t.turn im f e = .ok t'

/-- A state before the first turn: the main frame, which nobody passed arguments to. -/
def Shaped.Starts (im : Image) (f : Bytefile) (ip : ℤ) (t : Shaped) : Prop :=
  ∃ heapBegin, interpreteInit im f heapBegin ip = .ok t.state ∧ t.shapes = [⟨0, false, 0⟩]

/-- A run from the start, one `Env` for each turn. -/
def Shaped.runFrom (im : Image) (f : Bytefile) (heapBegin : ℕ) (ip : ℤ) (es : List Env) :
    Except Stop Shaped := do
  let s ← interpreteInit im f heapBegin ip
  es.foldlM (fun t e => t.turn im f e) ⟨s, [⟨0, false, 0⟩]⟩

theorem Shaped.reach_of_runFrom {im : Image} {f : Bytefile} {heapBegin : ℕ} {ip : ℤ} {es : List Env}
    {t : Shaped} (h : Shaped.runFrom im f heapBegin ip es = .ok t) :
    ∃ t₀ : Shaped, t₀.Starts im f ip ∧ Reach (Shaped.Step im f) (fun _ => True) t₀ t := by
  obtain ⟨s, hs, h⟩ := bind_eq_ok.mp h
  exact ⟨_, ⟨heapBegin, hs, rfl⟩, reach_of_foldlM (fun _ e _ ht => ⟨trivial, e, ht⟩) h⟩

/-! ### The variables of a frame -/

/-- The offset of the closure whose contents `w` points to. -/
def closureAt (h : MemoryChunk) (w : Word) : Option ℕ :=
  match aligned w with
  | none => none
  | some a =>
    let p := a - headerSize - h.begin
    if h.begin + headerSize ≤ a ∧ typeAt h p = some .closure ∧
        h.begin + p + objectWords (h.words p) ≤ h.end_ then some p
    else none

/-- The closure that runs in the frame is the word above its arguments. -/
def State.runningAt (s : State) (a : Shape) : Option ℕ :=
  closureAt s.mem.heap (s.mem.ram (s.frame.base + a.args + 1))

/-- How many values it captured: none when there is no closure. -/
def State.capturedCount (s : State) (a : Shape) : ℕ :=
  match s.runningAt a with
  | some p => lenOf (s.mem.heap.words p) - 1
  | none => 0

/-- The variable `i` of a kind exists, and this is its slot. Globals, locals and arguments go down from
    the first; captured values go up from the entry of the closure. -/
inductive VarSlot (im : Image) (f : Bytefile) (s : State) (a : Shape) : Location → ℕ → ℕ → Prop
  | global {i : ℕ} : i < toSize f.globalAreaSize → VarSlot im f s a .global i (im.bottom - 1 - i)
  | local_ {i : ℕ} : i < a.locals → VarSlot im f s a .local_ i (s.frame.base - i)
  | arg {i : ℕ} : i < a.args → VarSlot im f s a .arg i (s.frame.base + a.args - i)
  | captured {i p : ℕ} : a.closure = true → s.runningAt a = some p → i < s.capturedCount a →
      VarSlot im f s a .captured i (s.mem.heap.begin + p + headerSize + 1 + i)

/-- `loc` answers with the slot of the variable, or reports a failure; if there is no such variable, it
    reports. -/
def LocExact (im : Image) (e : Env) (f : Bytefile) (s : State) (a : Shape) (l : LocationEntry) : Prop :=
  (∃ kind i slot, l.location = some kind ∧ l.index = (i : ℕ) ∧ VarSlot im f s a kind i slot ∧
    loc im e s l = .ok slot) ∨ Reported (loc im e s l)

/-- Different variables have different slots. -/
def AliasFree (im : Image) (f : Bytefile) (s : State) (a : Shape) : Prop :=
  ∀ kind kind' i i' slot, VarSlot im f s a kind i slot → VarSlot im f s a kind' i' slot →
    kind = kind' ∧ i = i'

/-- The frame does not overlap what is around it: its locals end above the start of the stack, and its
    arguments and its closure below the globals. -/
structure FrameApart (im : Image) (f : Bytefile) (s : State) (a : Shape) : Prop where
  locals : im.vstack + a.locals ≤ s.frame.base + 1
  args : s.frame.base + a.args + a.closure.toNat + toSize f.globalAreaSize < im.bottom

/-- The innermost frame runs the closure `x`. -/
structure RunsClosure (im : Image) (s : State) (x : Word) : Prop where
  isClosure : s.frame.isClosure = true
  inStack : im.inStack (s.frame.base + s.frame.argsCount + 1)
  word : s.mem.ram (s.frame.base + s.frame.argsCount + 1) = x

/-- The word of the closure is read, whatever the index. -/
theorem RunsClosure.loc {im : Image} {e : Env} {s : State} {x : Word} (h : RunsClosure im s x)
    {l : LocationEntry} (hkind : l.location = some .captured) :
    loc im e s l = ensure (toSize l.index < e.closureSize.toNat)
        (.fail "Memory access failed: C(%d) is out of captured (%d captured)"
          [l.index, e.closureSize.toNat]) >>= fun _ => do
      return ptrAdd (← derefPtr x) (1 + l.index) := by
  obtain ⟨hclosure, hin, rfl⟩ := h
  have hb := im.bottom_lt
  have hhi : s.frame.base + s.frame.argsCount + 1 < im.bottom := hin.2
  have hslot : ptrAdd s.frame.base (s.frame.argsCount + 1) = s.frame.base + s.frame.argsCount + 1 := by
    have := ptrAdd_eq (p := s.frame.base) (n := s.frame.argsCount + 1) (by omega) (by omega)
    omega
  unfold Lama.loc
  rw [hkind]
  simp only
  rw [ensure_of hclosure, ok_bind, hslot, readSlot_of hin, ok_bind]

/-! ### Records and shapes -/

/-- The record of a frame says what its shape says, up to locals not yet reserved. -/
def Shape.Fits (a : Shape) (fr : Frame) : Prop :=
  a.args = fr.argsCount ∧ a.closure = fr.isClosure ∧ (a.locals = 0 ∨ a.locals = fr.localsCount)

/-- The records from index `c` on have these shapes. -/
def ShapesFit (cstack : ℕ → Frame) : ℕ → List Shape → Prop
  | c, [] => c = cstackSize
  | c, a :: as => a.Fits (cstack c) ∧ ShapesFit cstack (c + 1) as

structure Shaped.Inv (f : Bytefile) (t : Shaped) : Prop where
  top_lt : t.state.top < 2 ^ 30
  globals : t.state.globalsCount = toSize f.globalAreaSize
  shapes : ShapesFit t.state.cstack t.state.ctop t.shapes

theorem ShapesFit.congr {cstack cstack' : ℕ → Frame} : ∀ {c : ℕ} {as : List Shape},
    ShapesFit cstack c as → (∀ i, c ≤ i → cstack' i = cstack i) → ShapesFit cstack' c as
  | _, [], h, _ => h
  | c, a :: as, ⟨hfit, h⟩, heq => by
    refine ⟨?_, h.congr fun i hi => heq i (by omega)⟩
    rw [heq c (Nat.le_refl _)]
    exact hfit

theorem shapesAfter_plain {inst : Inst} {shapes : List Shape} (h : inst.isPlain = true) :
    shapesAfter inst shapes = shapes := by
  cases inst <;> first | rfl | cases h

/-- A prologue writes the `locals_count` of the innermost record. -/
theorem ShapesFit.reserved {s : State} {n : ℕ} {argc locc : ℤ} {inst : Inst} {shapes : List Shape}
    (h : ShapesFit s.cstack s.ctop shapes) (hinst : inst = .begin argc locc ∨ inst = .cbegin argc locc)
    (hn : n = toSize locc) :
    ShapesFit (s.reserved n).cstack (s.reserved n).ctop (shapesAfter inst shapes) := by
  cases shapes with
  | nil => rcases hinst with rfl | rfl <;> exact h
  | cons a as =>
    obtain ⟨⟨hargs, hclosure, -⟩, hrest⟩ := h
    have hfit : ({ a with locals := n } : Shape).Fits ((s.reserved n).cstack s.ctop) := by
      simp only [State.reserved, if_true]
      exact ⟨hargs, hclosure, Or.inr rfl⟩
    have hsame : ShapesFit (s.reserved n).cstack (s.ctop + 1) as :=
      hrest.congr fun i hi => if_neg (by omega)
    subst hn
    rcases hinst with rfl | rfl <;> exact ⟨hfit, hsame⟩

/-- A call pushes a record, which keeps the `locals_count` that was there. -/
theorem ShapesFit.called {s : State} {shapes : List Shape} {returnIp : ℤ} {n : ℕ} {closure : Bool}
    (h : ShapesFit s.cstack s.ctop shapes) (hctop : 0 < s.ctop) :
    ShapesFit (s.called returnIp n closure).cstack (s.called returnIp n closure).ctop
      (⟨n, closure, 0⟩ :: shapes) := by
  refine ⟨?_, ?_⟩
  · simp only [State.called, if_true]
    exact ⟨rfl, rfl, Or.inl rfl⟩
  · have heq : (s.called returnIp n closure).ctop + 1 = s.ctop := by
      simp only [State.called]
      omega
    rw [heq]
    exact h.congr fun i hi => if_neg (by omega)

theorem ShapesFit.returned {s : State} {shapes : List Shape} (h : ShapesFit s.cstack s.ctop shapes)
    (hne : s.ctop ≠ cstackSize) : ShapesFit s.cstack (s.ctop + 1) shapes.tail := by
  cases shapes with
  | nil => exact absurd h hne
  | cons a as => exact h.2

/-- A turn keeps the records and the shapes together. -/
theorem Shaped.Inv.step {im : Image} {f : Bytefile} {t t' : Shaped} (h : t.Inv f) (hstep : t.Step im f t') :
    t'.Inv f := by
  obtain ⟨e, hturn⟩ := hstep
  obtain ⟨ip, hip, hturn⟩ := bind_eq_ok.mp hturn
  obtain ⟨⟨inst, next⟩, hi, hturn⟩ := bind_eq_ok.mp hturn
  obtain ⟨s', hs, hturn⟩ := bind_eq_ok.mp hturn
  cases hturn
  rw [orStop_eq_ok] at hip
  obtain ⟨ip', inst', next', hip', hi', heff⟩ := step_cases h.top_lt hs
  rw [hip, Option.some.injEq] at hip'
  rw [← hip', hi, Except.ok.injEq, Prod.mk.injEq] at hi'
  obtain ⟨rfl, rfl⟩ := hi'
  refine ⟨heff.top_lt h.top_lt, heff.globalsCount.trans h.globals, ?_⟩
  obtain ⟨-, -, hshapes⟩ := h
  cases heff with
  | plain hp heff =>
    rw [shapesAfter_plain hp]
    show ShapesFit s'.cstack s'.ctop t.shapes
    rw [heff.control.cstack, heff.control.ctop]
    exact hshapes
  | prologue hinst => exact hshapes.reserved hinst rfl
  | call hctop => exact hshapes.called hctop
  | callc hctop => exact hshapes.called hctop
  | ret hinst _ hne =>
    rcases hinst with rfl | rfl <;> exact hshapes.returned hne

/-- The run lemma. -/
theorem Shaped.Inv.reach {im : Image} {f : Bytefile} {ip : ℤ} {t t' : Shaped} (ht : t.Starts im f ip)
    (hreach : Reach (Shaped.Step im f) (fun _ => True) t t') : t'.Inv f := by
  refine hreach.invariant (I := Shaped.Inv f) ?_ fun a b ha _ hab => ha.step hab
  obtain ⟨heapBegin, hinit, hshapes⟩ := ht
  obtain ⟨-, hglobals, hle, htop, hctop, hframe⟩ := interpreteInit_ok hinit
  have hb := im.bottom_lt
  refine ⟨by omega, hglobals, ?_⟩
  rw [hshapes, hctop]
  have hmain : t.state.cstack (cstackSize - 1) = ⟨none, false, t.state.top, 0, 0⟩ := by
    rw [← hframe, State.frame, hctop]
  exact ⟨by rw [hmain]; exact ⟨rfl, rfl, Or.inl rfl⟩, rfl⟩

/-! ### Slots -/

theorem closureAt_eq_some {h : MemoryChunk} {w : Word} {p : ℕ} (hp : closureAt h w = some p) :
    aligned w = some (h.begin + p + headerSize) ∧ typeAt h p = some .closure ∧
      h.begin + p + objectWords (h.words p) ≤ h.end_ := by
  unfold closureAt at hp
  split at hp
  · cases hp
  · next a ha =>
    dsimp only at hp
    split at hp
    · next hc =>
      cases hp
      refine ⟨?_, hc.2⟩
      rw [ha, Option.some.injEq]
      omega
    · cases hp

/-- The words of a closure: its header, its entry and what it captured. -/
theorem closure_words {h : MemoryChunk} {p : ℕ} (ht : typeAt h p = some .closure) :
    objectWords (h.words p) = headerSize + lenOf (h.words p) := by
  have hlen := lenOf_lt (h.words p)
  rw [typeAt] at ht
  rw [objectWords, ht]
  simp only [objBytes, headerSize]
  rw [bytesToWords_eq (by omega) (by omega)]
  omega

variable {im : Image} {e : Env} {f : Bytefile} {s : State} {a : Shape}

/-- The slot of a captured value is a word of the heap. -/
theorem capturedSlot_bounds {i p : ℕ} (hp : s.runningAt a = some p) (hi : i < s.capturedCount a) :
    s.mem.heap.begin + p + headerSize + 1 + i < s.mem.heap.end_ := by
  obtain ⟨-, ht, hend⟩ := closureAt_eq_some hp
  rw [closure_words ht] at hend
  rw [State.capturedCount, hp] at hi
  simp only at hi
  omega

/-- Where the slots of a kind are. -/
theorem VarSlot.inStack {kind : Location} {i slot : ℕ} (hframe : FrameApart im f s a)
    (h : VarSlot im f s a kind i slot) (hkind : kind ≠ .captured) : im.inStack slot := by
  obtain ⟨hlocals, hargs⟩ := hframe
  have hbot : im.bottom = im.vstack + vstackSize := rfl
  refine inStack_iff.mpr ?_
  cases h with
  | captured => exact absurd rfl hkind
  | _ => omega

theorem VarSlot.aliasFree (hframe : FrameApart im f s a) (hheap : HeapPlaced im s.mem.heap) :
    AliasFree im f s a := by
  obtain ⟨hlocals, hargs⟩ := id hframe
  -- a captured value is not in the stack
  have hcap : ∀ {kind i i' slot}, VarSlot im f s a kind i slot → VarSlot im f s a .captured i' slot →
      kind = .captured := by
    intro kind i i' slot h h'
    by_contra hne
    have hin := h.inStack hframe hne
    cases h' with
    | captured hc hp hi =>
      exact hheap.apart _ (by omega) (capturedSlot_bounds hp hi) hin
  intro kind kind' i i' slot h h'
  by_cases hk : kind = .captured
  · subst hk
    obtain rfl := hcap h' h
    refine ⟨rfl, ?_⟩
    cases h with
    | captured _ hp _ =>
      generalize hslot : s.mem.heap.begin + _ + headerSize + 1 + i = slot at h'
      cases h' with
      | captured _ hp' _ =>
        rw [hp, Option.some.injEq] at hp'
        omega
  · have hk' : kind' ≠ .captured := by
      rintro rfl
      exact hk (hcap h h')
    cases h with
    | captured => exact absurd rfl hk
    | global hi =>
      generalize hslot : im.bottom - 1 - i = slot at h'
      cases h' with
      | captured => exact absurd rfl hk'
      | global => exact ⟨rfl, by omega⟩
      | local_ => omega
      | arg => omega
    | local_ hi =>
      generalize hslot : s.frame.base - i = slot at h'
      cases h' with
      | captured => exact absurd rfl hk'
      | global => omega
      | local_ => exact ⟨rfl, by omega⟩
      | arg => omega
    | arg hi =>
      generalize hslot : s.frame.base + a.args - i = slot at h'
      cases h' with
      | captured => exact absurd rfl hk'
      | global => omega
      | local_ => omega
      | arg => exact ⟨rfl, by omega⟩

theorem reported_of_not {α : Type} {c : Prop} [Decidable c] {text : String} {args : List ℤ}
    {x : Unit → Except Stop α} (h : ¬ c) : Reported (ensure c (.fail text args) >>= x) :=
  ⟨text, args, by rw [ensure, if_neg h]; rfl⟩

/-- An index that is checked against the number of variables of its kind. -/
theorem locExact_of_check {kind : Location} {l : LocationEntry} {n addr : ℕ} {text : String}
    {args : List ℤ} (hkind : l.location = some kind) (hl : IsInt l.index) (hn : n ≤ 2 ^ 31)
    (hslot : ∀ i : ℕ, i < n → l.index = i → VarSlot im f s a kind i addr)
    (hloc : loc im e s l = ensure (toSize l.index < n) (.fail text args) >>= fun _ => .ok addr) :
    LocExact im e f s a l := by
  unfold LocExact
  rw [hloc]
  by_cases hc : toSize l.index < n
  · obtain ⟨h0, h1⟩ := toSize_bound hl hc hn
    obtain ⟨i, hi⟩ := Int.eq_ofNat_of_zero_le h0
    exact Or.inl ⟨kind, i, addr, hkind, hi, hslot i (by omega) hi, by rw [ensure_of hc, ok_bind]⟩
  · exact Or.inr (reported_of_not hc)

section Exact
variable (hfits : a.Fits s.frame) (hframe : FrameApart im f s a)
include hfits hframe

/-- What `loc` reads before it looks at the index of a captured value. -/
theorem loc_captured {l : LocationEntry} (hkind : l.location = some .captured) (hcl : a.closure = true) :
    loc im e s l = ensure (toSize l.index < e.closureSize.toNat)
        (.fail "Memory access failed: C(%d) is out of captured (%d captured)"
          [l.index, e.closureSize.toNat]) >>= fun _ => do
      return ptrAdd (← derefPtr (s.mem.ram (s.frame.base + a.args + 1))) (1 + l.index) := by
  obtain ⟨hargs, hisClosure, -⟩ := hfits
  obtain ⟨hlo, hhi⟩ := hframe
  rw [hcl, Bool.toNat_true] at hhi
  rw [hargs] at hhi ⊢
  exact RunsClosure.loc ⟨hisClosure.symm.trans hcl, inStack_iff.mpr (by omega), rfl⟩ hkind

/-- A captured value that `closure_size` counts and the closure does not have. -/
theorem captured_le_of_exact (h : ∀ l : LocationEntry, IsInt l.index → LocExact im e f s a l)
    (hcl : a.closure = true) : e.closureSize.toNat ≤ s.capturedCount a := by
  by_contra hlt
  have hcount : s.capturedCount a < 2 ^ 29 := by
    unfold State.capturedCount
    split
    · next p _ =>
      have := lenOf_lt (s.mem.heap.words p)
      omega
    · decide
  have hint : IsInt (s.capturedCount a : ℤ) := ⟨by omega, by omega⟩
  have hc : toSize (s.capturedCount a : ℤ) < e.closureSize.toNat := by
    unfold toSize
    omega
  have hloc := loc_captured (e := e) (l := ⟨3, s.capturedCount a⟩) hfits hframe rfl hcl
  rw [ensure_of hc, ok_bind] at hloc
  rcases h ⟨3, s.capturedCount a⟩ hint with ⟨kind, i, slot, hkind, hidx, hslot, -⟩ | ⟨text, args, hfail⟩
  · cases hkind
    cases hslot with
    | captured _ _ hi =>
      simp only at hidx
      omega
  · rw [hloc] at hfail
    rcases bind_eq_error.mp hfail with hfail | ⟨p, -, hfail⟩
    · cases (orStop_eq_error.mp hfail).2
    · cases hfail

variable (hglobals : s.globalsCount = toSize f.globalAreaSize)
include hglobals

/-- With a record of its own and an honest `closure_size`, `loc` is exact. -/
theorem locExact_of (hheap : HeapPlaced im s.mem.heap) (hlocals : s.frame.localsCount ≤ a.locals)
    (hclosure : a.closure = true → e.closureSize.toNat ≤ s.capturedCount a) {l : LocationEntry}
    (hl : IsInt l.index) : LocExact im e f s a l := by
  obtain ⟨hargs, hisClosure, hrecord⟩ := id hfits
  obtain ⟨hlo, hhi⟩ := id hframe
  have hb := im.bottom_lt
  have hbot : im.bottom = im.vstack + vstackSize := rfl
  have hsize : vstackSize = 65536 := rfl
  cases hkind : l.location with
  | none => exact Or.inr ⟨_, _, by unfold loc; rw [hkind]⟩
  | some kind =>
    cases kind with
    | global =>
      refine locExact_of_check hkind hl (n := s.globalsCount) (by omega) (fun i hi hidx => ?_)
        (by unfold loc; rw [hkind]; rfl)
      have := ptrAdd_eq (p := im.bottom) (n := -1 - l.index) (by omega) (by omega)
      rw [show ptrAdd im.bottom (-1 - l.index) = im.bottom - 1 - i by omega]
      exact .global (by omega)
    | local_ =>
      refine locExact_of_check hkind hl (n := s.frame.localsCount) (by omega) (fun i hi hidx => ?_)
        (by unfold loc; rw [hkind]; rfl)
      have := ptrAdd_eq (p := s.frame.base) (n := -l.index) (by omega) (by omega)
      rw [show ptrAdd s.frame.base (-l.index) = s.frame.base - i by omega]
      exact .local_ (by omega)
    | arg =>
      refine locExact_of_check hkind hl (n := s.frame.argsCount) (by omega) (fun i hi hidx => ?_)
        (by unfold loc; rw [hkind]; rfl)
      have := ptrAdd_eq (p := s.frame.base) (n := s.frame.argsCount - l.index) (by omega) (by omega)
      rw [show ptrAdd s.frame.base (s.frame.argsCount - l.index) = s.frame.base + a.args - i by omega]
      exact .arg (by omega)
    | captured =>
      by_cases hcl : a.closure = true
      · have hcount := hclosure hcl
        have hloc := loc_captured (e := e) hfits hframe hkind hcl
        cases hp : s.runningAt a with
        | none =>
          -- nothing was captured, so that every index is refused
          rw [State.capturedCount, hp] at hcount
          refine Or.inr ?_
          rw [hloc]
          exact reported_of_not (by simp only at hcount; omega)
        | some p =>
          have hend := hheap.fits
          have hbound := fun i => capturedSlot_bounds (i := i) hp
          obtain ⟨hal, -, -⟩ := closureAt_eq_some hp
          have hderef : derefPtr (s.mem.ram (s.frame.base + a.args + 1)) =
              .ok (s.mem.heap.begin + p + headerSize) := by
            rw [derefPtr, hal]
            rfl
          have hlen : s.capturedCount a < 2 ^ 29 := by
            have := lenOf_lt (s.mem.heap.words p)
            rw [State.capturedCount, hp]
            simp only
            omega
          rw [hderef] at hloc
          refine locExact_of_check hkind hl (by omega) (fun i hi hidx => ?_) hloc
          have hlt := hbound i (by omega)
          have := ptrAdd_eq (p := s.mem.heap.begin + p + headerSize) (n := 1 + l.index) (by omega)
            (by omega)
          rw [show ptrAdd (s.mem.heap.begin + p + headerSize) (1 + l.index) =
            s.mem.heap.begin + p + headerSize + 1 + i by omega]
          exact .captured hcl hp (by omega)
      · refine Or.inr ?_
        unfold loc
        rw [hkind]
        exact reported_of_not (by rw [← hisClosure]; exact hcl)

end Exact

/-- A local that the record still counts has no slot of its own, and `loc` answers. -/
theorem locals_le_of_exact (hframe : FrameApart im f s a)
    (h : ∀ l : LocationEntry, IsInt l.index → LocExact im e f s a l) :
    s.frame.localsCount ≤ a.locals := by
  by_contra hlt
  obtain ⟨hlo, hhi⟩ := hframe
  have hb := im.bottom_lt
  have hint : IsInt (a.locals : ℤ) := ⟨by omega, by omega⟩
  have hloc : loc im e s ⟨1, a.locals⟩ = .ok (ptrAdd s.frame.base (-(a.locals : ℤ))) := by
    have hc : toSize (a.locals : ℤ) < s.frame.localsCount := by
      unfold toSize
      omega
    show ensure _ _ >>= _ = _
    rw [ensure_of hc]
    rfl
  rcases h ⟨1, a.locals⟩ hint with ⟨kind, i, slot, hkind, hidx, hslot, -⟩ | ⟨text, args, hfail⟩
  · cases hkind
    cases hslot with
    | local_ hi =>
      simp only at hidx
      omega
  · rw [hloc] at hfail
    cases hfail

/-- In every state that a run reaches: `loc` is exact for every location exactly when the record of the
    frame counts no locals from an earlier call and, in a closure, the value that the uninitialised
    `closure_size` happens to have is not above the number of captured values. -/
theorem variables_exact_iff {ip : ℤ} {t₀ t : Shaped} {as : List Shape} (hstart : t₀.Starts im f ip)
    (hreach : Reach (Shaped.Step im f) (fun _ => True) t₀ t) (hshapes : t.shapes = a :: as)
    (hframe : FrameApart im f t.state a) (hheap : HeapPlaced im t.state.mem.heap) (e : Env) :
    (∀ l : LocationEntry, IsInt l.index → LocExact im e f t.state a l) ∧ AliasFree im f t.state a ↔
      t.state.frame.localsCount ≤ a.locals ∧
        (a.closure = true → e.closureSize.toNat ≤ t.state.capturedCount a) := by
  obtain ⟨-, hglobals, hinv⟩ := Shaped.Inv.reach hstart hreach
  rw [hshapes] at hinv
  have hfits : a.Fits t.state.frame := hinv.1
  constructor
  · exact fun h => ⟨locals_le_of_exact hframe h.1, captured_le_of_exact hfits hframe h.1⟩
  · exact fun h => ⟨fun l hl => locExact_of hfits hframe hglobals hheap h.1 h.2 hl,
      VarSlot.aliasFree hframe hheap⟩

/-- `BEGIN 0 0; CLOSURE 24 []; CALLC 0; END; CBEGIN 0 1; END`. -/
def emptyClosure : List UInt8 :=
  82 :: intBytes 0 ++ intBytes 0 ++ 84 :: intBytes 24 ++ intBytes 0 ++ 85 :: intBytes 0 ++ 22 ::
    83 :: intBytes 0 ++ intBytes 1 ++ [22]

/-- In the body of the closure, which captured nothing. -/
theorem emptyClosure_reached : ∃ t₀ t : Shaped, t₀.Starts sampleImage (program 0 emptyClosure) 0 ∧
    Reach (Shaped.Step sampleImage (program 0 emptyClosure)) (fun _ => True) t₀ t ∧
    t.shapes = [⟨0, true, 1⟩, ⟨0, false, 0⟩] ∧
    FrameApart sampleImage (program 0 emptyClosure) t.state ⟨0, true, 1⟩ ∧
    HeapPlaced sampleImage t.state.mem.heap ∧ t.state.capturedCount ⟨0, true, 1⟩ = 0 := by
  have hrun : (Shaped.runFrom sampleImage (program 0 emptyClosure) sampleHeap 0
      [sampleEnv, sampleEnv, sampleEnv, sampleEnv]).map (fun t => (t.shapes, t.state.frame.base,
        t.state.mem.heap.begin, t.state.mem.heap.end_, t.state.capturedCount ⟨0, true, 1⟩)) =
      .ok ([⟨0, true, 1⟩, ⟨0, false, 0⟩], 66534, 100000, 100004, 0) := by
    decide +kernel
  obtain ⟨t, ht, hobs⟩ := exists_of_map_eq_ok hrun
  obtain ⟨t₀, hstart, hreach⟩ := Shaped.reach_of_runFrom ht
  simp only [Prod.mk.injEq] at hobs
  obtain ⟨hshapes, hbase, hbegin, hend, hcount⟩ := hobs
  refine ⟨t₀, t, hstart, hreach, hshapes, ⟨?_, ?_⟩, ⟨Image.apart_of ?_, ?_⟩, hcount⟩
  · rw [hbase]
    decide
  · rw [hbase]
    decide
  · rw [hbegin]
    decide
  · omega

theorem variables_exact_iff_emptyClosure :
    ∃ t₀ t : Shaped, t₀.Starts sampleImage (program 0 emptyClosure) 0 ∧
      Reach (Shaped.Step sampleImage (program 0 emptyClosure)) (fun _ => True) t₀ t ∧
      ((∀ l : LocationEntry, IsInt l.index →
          LocExact sampleImage sampleEnv (program 0 emptyClosure) t.state ⟨0, true, 1⟩ l) ∧
        AliasFree sampleImage (program 0 emptyClosure) t.state ⟨0, true, 1⟩ ↔
        t.state.frame.localsCount ≤ 1 ∧ (true = true →
          sampleEnv.closureSize.toNat ≤ t.state.capturedCount ⟨0, true, 1⟩)) := by
  obtain ⟨t₀, t, hstart, hreach, hshapes, hframe, hheap, -⟩ := emptyClosure_reached
  exact ⟨t₀, t, hstart, hreach, variables_exact_iff hstart hreach hshapes hframe hheap sampleEnv⟩

/-- When `closure_size` happens to be 1, `C(0)` names the word after the closure. -/
theorem emptyClosure_inexact :
    ∃ t₀ t : Shaped, t₀.Starts sampleImage (program 0 emptyClosure) 0 ∧
      Reach (Shaped.Step sampleImage (program 0 emptyClosure)) (fun _ => True) t₀ t ∧
      t.shapes = [⟨0, true, 1⟩, ⟨0, false, 0⟩] ∧
      FrameApart sampleImage (program 0 emptyClosure) t.state ⟨0, true, 1⟩ ∧
      HeapPlaced sampleImage t.state.mem.heap ∧
      ¬ ∀ l : LocationEntry, IsInt l.index → LocExact sampleImage { sampleEnv with closureSize := 1 }
        (program 0 emptyClosure) t.state ⟨0, true, 1⟩ l := by
  obtain ⟨t₀, t, hstart, hreach, hshapes, hframe, hheap, hcount⟩ := emptyClosure_reached
  refine ⟨t₀, t, hstart, hreach, hshapes, hframe, hheap, fun h => ?_⟩
  have hinv := (Shaped.Inv.reach hstart hreach).shapes
  rw [hshapes] at hinv
  have hle := captured_le_of_exact hinv.1 hframe h rfl
  rw [hcount] at hle
  exact absurd hle (by decide)

end Lama

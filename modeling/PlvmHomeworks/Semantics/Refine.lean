import PlvmHomeworks.Semantics.Objects
import PlvmHomeworks.Tools.CallReturn

/-! The interpreter refines the abstract machine: it goes wherever the machine goes, and prints what the
    machine prints. -/

namespace Lama
open Outcome Cells

variable {im : Image} {e : Env} {es : List Env} {f : Bytefile} {s s' : State} {os : List HeapObject}
  {place : Place} {vm vm' : Vm} {r : Routine} {rest : List Routine} {l : LocationEntry} {v : Val}
  {inst : Inst} {ip next : ℤ} {n : ℕ}

/-- The state stands for the machine, and is where the machine is. -/
def Refines (im : Image) (vm : Vm) (s : State) : Prop :=
  s.ip = vm.ip ∧ ∃ os place, Simulates im os place vm s

/-! ### One instruction -/

/-- The slots below the top that an instruction takes. -/
def Inst.room : Inst → ℕ
  | .begin _ locc | .cbegin _ locc => locc.toNat + 1
  | .closure _ ls => max ls.length 1
  | inst => inst.pushes - inst.pops

/-- What the abstract machine does not know of and the instruction relies on: slots and records that are
    free, captured values that `closure_size` counts, values where a prologue puts the locals, words for a
    new object. -/
structure Supplied (im : Image) (e : Env) (s : State) (inst : Inst) : Prop where
  slots : im.vstack + inst.room ≤ s.top
  records : inst.callOf ≠ none → 0 < s.ctop
  captured : ∀ l ∈ inst.locations, l.Counted e
  locals : inst.isPrologue = true →
    ∀ a, s.top < a + inst.room - 1 → a ≤ s.top → IsWalked s.mem.heap (s.mem.ram a)
  words : inst.allocates = true → Granted im s.mem.heap e.mremap inst.words

/-- The operands of `CLOSURE` are `int`s. -/
theorem readInst_closure_isInt {entry : ℤ} {ls : List LocationEntry}
    (h : readInst f ip = .ok (.closure entry ls, next)) : IsInt entry := by
  obtain ⟨⟨x, ip₁⟩, -, h⟩ := bind_eq_ok.mp h
  change opcodeInst f ip₁ x = _ at h
  unfold opcodeInst at h
  split at h
  case h_17 =>
    obtain ⟨⟨a, ip₂⟩, ha, h⟩ := bind_eq_ok.mp h
    obtain ⟨⟨n, ip₃⟩, -, h⟩ := bind_eq_ok.mp h
    obtain ⟨⟨ls, ip₄⟩, -, h⟩ := bind_eq_ok.mp h
    cases h
    exact readInt_isInt ha
  case h_24 =>
    unfold composedInst at h
    split at h
    case h_6 =>
      split at h
      case h_5 =>
        obtain ⟨-, a, ha⟩ := readInst1_ok h
        cases ha
      all_goals cases h
    case h_1 | h_5 =>
      obtain ⟨-, ha | ⟨a, ha⟩⟩ := tableInst_ok (f := f) h <;> cases ha
    case h_2 | h_3 | h_4 =>
      obtain ⟨-, ha | ⟨a, ha⟩⟩ := locationInst_ok h <;> cases ha
    all_goals cases h
  case h_2 | h_18 =>
    obtain ⟨q, -, h⟩ := bind_eq_ok.mp h
    cases h
  case h_19 =>
    obtain ⟨q, -, h⟩ := bind_eq_ok.mp h
    obtain ⟨q', -, h⟩ := bind_eq_ok.mp h
    cases h
  all_goals first
    | cases h
    | exact (readInst1_ok h).2.elim fun a ha => nomatch ha
    | exact (readInst2_ok h).2.elim fun a hb => hb.elim fun b ha => nomatch ha
    | exact (readInstS_ok h).2.elim fun a hb => hb.elim fun b ha => nomatch ha

theorem Vm.assign_ip (h : vm.assign next r rest l v = some vm') : vm'.ip = some next := by
  obtain ⟨i, -, h⟩ := Option.bind_eq_some_iff.mp h
  obtain ⟨kind, -, h⟩ := Option.bind_eq_some_iff.mp h
  cases kind with
  | local_ =>
    obtain ⟨ls, -, h⟩ := Option.bind_eq_some_iff.mp h
    obtain ⟨u, -, h⟩ := Option.bind_eq_some_iff.mp h
    cases h
    rfl
  | captured =>
    obtain ⟨⟨id, o⟩, -, h⟩ := Option.bind_eq_some_iff.mp h
    obtain ⟨u, -, h⟩ := Option.bind_eq_some_iff.mp h
    cases h
    rfl
  | _ =>
    obtain ⟨u, -, h⟩ := Option.bind_eq_some_iff.mp h
    cases h
    rfl

theorem Vm.compute_room {input : ℤ} {vs vs' : List Val} (h : vm.compute f input r inst vs = some vs') :
    inst.room = inst.pushes - inst.pops := by
  unfold Vm.compute at h
  split at h <;> first | rfl | cases h

/-- Whatever the abstract machine does, the interpreter does. -/
theorem Simulates.exec (hsim : Simulates im os place vm s) (hrun : vm.routines = r :: rest)
    (hread : readInst f ip = .ok (inst, next)) (hsup : Supplied im e s inst)
    (hexec : vm.exec f e.input.toInt next r rest inst = some vm') : Follows im e f s next inst vm' := by
  obtain ⟨hslots, hrecords, hcaptured, hlocals, hwords⟩ := hsup
  unfold Vm.exec at hexec
  split at hexec
  · -- ST
    obtain ⟨v, hv, hassign⟩ := Option.bind_eq_some_iff.mp hexec
    exact hsim.st hrun (hcaptured _ (List.mem_singleton_self _)) hv hassign (Vm.assign_ip hassign)
  · -- STA
    obtain ⟨vs, htop, hexec⟩ := Option.bind_eq_some_iff.mp hexec
    split at hexec
    · obtain ⟨⟨id, o⟩, ho, hexec⟩ := Option.bind_eq_some_iff.mp hexec
      obtain ⟨u, hguard, hexec⟩ := Option.bind_eq_some_iff.mp hexec
      rw [Option.guard_eq_some'] at hguard
      cases hexec
      exact hsim.sta hrun htop ho hguard
    · cases hexec
  · -- JMP
    cases hexec
    exact hsim.jmp hrun
  · -- CJMPZ
    obtain ⟨v, hv, hexec⟩ := Option.bind_eq_some_iff.mp hexec
    cases hexec
    exact hsim.cjmpz hrun hv
  · -- CJMPNZ
    obtain ⟨v, hv, hexec⟩ := Option.bind_eq_some_iff.mp hexec
    cases hexec
    exact hsim.cjmpnz hrun hv
  · -- BEGIN
    obtain ⟨u, hguard, hexec⟩ := Option.bind_eq_some_iff.mp hexec
    rw [Option.guard_eq_some'] at hguard
    cases hexec
    exact hsim.prologue hrun (Or.inl rfl) hguard hslots (hlocals rfl)
  · -- CBEGIN
    obtain ⟨u, hguard, hexec⟩ := Option.bind_eq_some_iff.mp hexec
    rw [Option.guard_eq_some'] at hguard
    cases hexec
    exact hsim.prologue hrun (Or.inr rfl) hguard hslots (hlocals rfl)
  · -- CALL
    obtain ⟨u, hguard, hexec⟩ := Option.bind_eq_some_iff.mp hexec
    obtain ⟨vs, hargs, hexec⟩ := Option.bind_eq_some_iff.mp hexec
    rw [Option.guard_eq_some'] at hguard
    cases hexec
    exact hsim.call hrun hguard hargs (hrecords nofun)
  · -- CALLC
    obtain ⟨u, hguard, hexec⟩ := Option.bind_eq_some_iff.mp hexec
    obtain ⟨c, hc, hexec⟩ := Option.bind_eq_some_iff.mp hexec
    obtain ⟨⟨id, o⟩, ho, hexec⟩ := Option.bind_eq_some_iff.mp hexec
    rw [Option.guard_eq_some'] at hguard
    split at hexec
    · next heq =>
      obtain ⟨vs, hargs, hexec⟩ := Option.bind_eq_some_iff.mp hexec
      cases heq
      cases hexec
      obtain ⟨rfl, hstore⟩ := object_eq_some.mp ho
      exact hsim.callc hrun hguard hargs hc hstore (hrecords nofun)
    · cases hexec
  · -- END
    obtain ⟨v, hv, hexec⟩ := Option.bind_eq_some_iff.mp hexec
    cases hexec
    exact hsim.leave hrun (Or.inl rfl) hv
  · -- RET
    obtain ⟨v, hv, hexec⟩ := Option.bind_eq_some_iff.mp hexec
    cases hexec
    exact hsim.leave hrun (Or.inr rfl) hv
  · -- SEXP
    obtain ⟨u, hguard, hexec⟩ := Option.bind_eq_some_iff.mp hexec
    obtain ⟨chars, hchars, hexec⟩ := Option.bind_eq_some_iff.mp hexec
    obtain ⟨hash, hhash, hexec⟩ := Option.bind_eq_some_iff.mp hexec
    obtain ⟨vs, hargs, hexec⟩ := Option.bind_eq_some_iff.mp hexec
    rw [Option.guard_eq_some'] at hguard
    rw [toOption_eq_some] at hhash
    cases hexec
    have hlow := (hsim.stackHolds hrun).low
    refine hsim.sexp hrun hguard hchars hhash hargs ?_ (hwords rfl)
    simp only [Inst.room, Inst.pushes, Inst.pops] at hslots
    omega
  · -- BARRAY
    obtain ⟨u, hguard, hexec⟩ := Option.bind_eq_some_iff.mp hexec
    obtain ⟨vs, hargs, hexec⟩ := Option.bind_eq_some_iff.mp hexec
    rw [Option.guard_eq_some'] at hguard
    cases hexec
    have hlow := (hsim.stackHolds hrun).low
    refine hsim.barray hrun hguard hargs ?_ (hwords rfl)
    simp only [Inst.room, Inst.pushes, Inst.pops] at hslots
    omega
  · -- CLOSURE
    obtain ⟨vs, hload, hexec⟩ := Option.bind_eq_some_iff.mp hexec
    cases hexec
    exact hsim.closure hrun (readInst_closure_isInt hread) hcaptured hload hslots (hwords rfl)
  · -- LWRITE
    obtain ⟨v, hv, hexec⟩ := Option.bind_eq_some_iff.mp hexec
    obtain ⟨k, hk, hexec⟩ := Option.bind_eq_some_iff.mp hexec
    cases hexec
    cases v with
    | int m =>
      cases hk
      exact hsim.lwrite hrun hv
    | _ => cases hk
  · -- the instructions that only replace operands
    obtain ⟨vs, htop, hexec⟩ := Option.bind_eq_some_iff.mp hexec
    obtain ⟨vs', hcompute, hexec⟩ := Option.bind_eq_some_iff.mp hexec
    cases hexec
    have hlow := (hsim.stackHolds hrun).low
    have hn := (Routine.top_eq_some.mp htop).1
    rw [Vm.compute_room hcompute] at hslots
    obtain ⟨⟨ws, hws, hdone⟩, hcount⟩ := hsim.replaces hrun htop hcompute hslots hcaptured
    exact ⟨_, none, os, place, hdone, rfl, hsim.results hrun hn hws (by omega) rfl rfl rfl rfl⟩

/-! ### Turns and runs -/

/-- Where the interpreter looks next does not matter to the rest of its state. -/
theorem Simulates.withIp (hsim : Simulates im os place vm s) (ip : Option ℤ) :
    Simulates im os place vm { s with ip } :=
  ⟨hsim.globalsCount, hsim.out, hsim.heap, hsim.placed,
    fun hne => ⟨(hsim.stack hne).records, (hsim.stack hne).low, (hsim.stack hne).high,
      (hsim.stack hne).words⟩, hsim.customData, hsim.bottom⟩

/-- The turn has what it relies on. -/
def TurnSupplied (im : Image) (f : Bytefile) (e : Env) (s : State) : Prop :=
  ∀ inst next, s.Executes f inst next → Supplied im e s inst

theorem Refines.step (h : Refines im vm s) (hsup : TurnSupplied im f e s)
    (hstep : vm.step f e.input.toInt = some vm') :
    ∃ s', step im f e s = .ok s' ∧ Refines im vm' s' := by
  obtain ⟨hip, os, place, hsim⟩ := h
  obtain ⟨ip, hvm, hstep⟩ := Option.bind_eq_some_iff.mp hstep
  obtain ⟨⟨inst, next⟩, hread, hstep⟩ := Option.bind_eq_some_iff.mp hstep
  rw [toOption_eq_some] at hread
  rw [hvm] at hip
  dsimp only at hstep
  split at hstep
  · cases hstep
  · next r rest hrun =>
    obtain ⟨t, jump, os', place', hexec, hjump, hafter⟩ :=
      hsim.exec hrun hread (hsup inst next ⟨ip, hip, hread⟩) hstep
    refine ⟨{ t with ip := jump.getD (some next) }, ?_, hjump, os', place', hafter.withIp _⟩
    rw [Lama.step, hip]
    exact bind_eq_ok.mpr ⟨_, hread, bind_eq_ok.mpr ⟨_, hexec, rfl⟩⟩

/-- The turns that take this from outside. -/
def turns (im : Image) (f : Bytefile) : List Env → State → Except Stop State
  | [], s => .ok s
  | e :: es, s => do turns im f es (← step im f e s)

/-- Every turn of the run has what it relies on. -/
def RunSupplied (im : Image) (f : Bytefile) : List Env → State → Prop
  | [], _ => True
  | e :: es, s => TurnSupplied im f e s ∧ ∀ s', step im f e s = .ok s' → RunSupplied im f es s'

theorem Refines.run (h : Refines im vm s) (hsup : RunSupplied im f es s)
    (hrun : vm.run f (es.map fun e => e.input.toInt) = some vm') :
    ∃ s', turns im f es s = .ok s' ∧ Refines im vm' s' := by
  induction es generalizing vm s with
  | nil =>
    cases hrun
    exact ⟨s, rfl, h⟩
  | cons e es ih =>
    obtain ⟨vm₁, hstep, hrun⟩ := Option.bind_eq_some_iff.mp hrun
    obtain ⟨s₁, hs₁, h₁⟩ := h.step hsup.1 hstep
    obtain ⟨s', hs', h'⟩ := ih h₁ (hsup.2 s₁ hs₁) hrun
    exact ⟨s', bind_eq_ok.mpr ⟨s₁, hs₁, hs'⟩, h'⟩

/-! ### The start -/

/-- The globals fit on the virtual stack, and the first heap lies beside it. -/
structure Boots (im : Image) (f : Bytefile) (heapBegin : ℕ) : Prop where
  globals : toSize f.globalAreaSize < vstackSize
  pos : 0 < heapBegin
  fits : heapBegin + minimumHeapCapacity < 2 ^ 30
  apart : ∀ a, heapBegin ≤ a → a < heapBegin + minimumHeapCapacity → ¬ im.inStack a

theorem heapHolds_init {heapBegin : ℕ} (hpos : 0 < heapBegin)
    (hfits : heapBegin + minimumHeapCapacity < 2 ^ 30) :
    HeapHolds (initHeap heapBegin) [] (fun _ => none) [] := by
  refine ⟨⟨0, ?_⟩, by simp, by simp, by simp⟩
  exact ⟨rfl, by simp, by simp, by simp, fun k _ hk => rfl, hpos, rfl, Nat.le_add_right _ _, rfl, hfits⟩

/-- The interpreter in front of its loop. -/
theorem refines_init {heapBegin : ℕ} (hboots : Boots im f heapBegin) :
    ∃ s, interpreteInit im f heapBegin ip = .ok s ∧ Refines im (Vm.init (toSize f.globalAreaSize) ip) s := by
  obtain ⟨hglobals, hpos, hfits, hapart⟩ := hboots
  generalize hcount : toSize f.globalAreaSize = count at hglobals
  have hb := im.bottom_lt
  have hbottom : im.bottom = im.vstack + vstackSize := rfl
  have htop : ptrAdd (im.bottom - 1) (-(count : ℤ)) = im.bottom - 1 - count := by
    have := ptrAdd_eq (p := im.bottom - 1) (n := -(count : ℤ)) (by omega) (by omega)
    omega
  refine ⟨_, bind_eq_ok.mpr ⟨(), ensure_of (by rw [hcount]; exact Nat.le_of_lt hglobals), rfl⟩, rfl, [],
    fun _ => none, ?_⟩
  simp only [hcount, htop]
  have hslots : (Vm.init count ip).slots = List.replicate count (some .null) := by
    simp [Vm.slots, Vm.outer, Vm.init, Routine.slots, Routine.reserved]
  refine ⟨List.length_replicate.symm, rfl, heapHolds_init hpos hfits, ⟨hapart, hfits⟩, fun _ => ?_,
    fun _ _ => rfl, rfl⟩
  refine ⟨⟨?_, rfl⟩, ?_, ?_, ?_⟩
  · exact ⟨rfl, rfl, rfl, rfl, fun _ h => absurd h (Option.some_ne_none _).symm⟩
  · show im.vstack ≤ im.bottom - 1 - count
    omega
  · rw [hslots, List.length_replicate]
    show im.bottom - 1 - count + 1 + count = im.bottom
    omega
  · rw [hslots]
    exact laid_replicate fun _ _ => rfl

/-- `interprete`, as far as these turns. -/
def interpreteTurns (im : Image) (f : Bytefile) (heapBegin : ℕ) (ip : ℤ) (es : List Env) :
    Except Stop State := do
  turns im f es (← interpreteInit im f heapBegin ip)

/-- The interpreter starts, and every turn has what it relies on. -/
structure Served (im : Image) (f : Bytefile) (heapBegin : ℕ) (ip : ℤ) (es : List Env) : Prop where
  boots : Boots im f heapBegin
  supplied : ∀ s, interpreteInit im f heapBegin ip = .ok s → RunSupplied im f es s

theorem Served.refines {heapBegin : ℕ} (hserved : Served im f heapBegin ip es)
    (hrun : (Vm.init (toSize f.globalAreaSize) ip).run f (es.map fun e => e.input.toInt) = some vm) :
    ∃ s, interpreteTurns im f heapBegin ip es = .ok s ∧ Refines im vm s := by
  obtain ⟨s₀, hinit, h₀⟩ : ∃ s, interpreteInit im f heapBegin ip = .ok s ∧
      Refines im (Vm.init (toSize f.globalAreaSize) ip) s := refines_init hserved.boots
  obtain ⟨s, hturns, h⟩ := h₀.run (hserved.supplied s₀ hinit) hrun
  exact ⟨s, bind_eq_ok.mpr ⟨s₀, hinit, hturns⟩, h⟩

theorem Refines.out (h : Refines im vm s) : s.out = vm.out := by
  obtain ⟨-, os, place, hsim⟩ := h
  exact hsim.out

/-! ### Runs that have what they rely on -/

/-- The request fits, or the heap grows to a place on one side of the virtual stack. -/
def grantedBy (im : Image) (e : Env) (h : MemoryChunk) (size : ℕ) : Bool :=
  decide (h.current + size < 2 ^ 30) && (decide (h.current + size ≤ h.end_) ||
    e.mremap.any fun begin => decide (0 < begin ∧ begin + h.grown size < 2 ^ 30 ∧
      (begin + h.grown size ≤ im.vstack ∨ im.bottom ≤ begin)))

/-- A turn that has what it relies on, with no pointers in the slots that a prologue reserves. -/
def suppliedBy (im : Image) (f : Bytefile) (e : Env) (s : State) : Bool :=
  match s.ip with
  | none => true
  | some ip =>
    match readInst f ip with
    | .error _ => true
    | .ok (inst, _) => decide (im.vstack + inst.room ≤ s.top) &&
        (inst.callOf.isNone || decide (0 < s.ctop)) &&
        inst.locations.all (fun l => l.location != some .captured ||
          decide (toSize l.index < e.closureSize.toNat)) &&
        (!inst.isPrologue || (List.range (inst.room - 1)).all fun k =>
          unboxed (s.mem.ram (s.top - k)) || s.mem.ram (s.top - k) == 0) &&
        (!inst.allocates || grantedBy im e s.mem.heap inst.words)

def runSuppliedBy (im : Image) (f : Bytefile) : List Env → State → Bool
  | [], _ => true
  | e :: es, s => suppliedBy im f e s && (step im f e s).toOption.all (runSuppliedBy im f es)

theorem granted_of_grantedBy {h : MemoryChunk} {size : ℕ} (hg : grantedBy im e h size = true) :
    Granted im h e.mremap size := by
  rw [grantedBy, Bool.and_eq_true, decide_eq_true_eq, Bool.or_eq_true, decide_eq_true_eq] at hg
  obtain ⟨haddress, hfits | hgrows⟩ := hg
  · exact ⟨haddress, fun hne => absurd hfits hne⟩
  · refine ⟨haddress, fun _ => ?_⟩
    obtain ⟨begin, hbegin, hplace⟩ := (Option.any_eq_true _ _).mp hgrows
    obtain ⟨hpos, hend, hbeside⟩ := decide_eq_true_eq.mp hplace
    refine ⟨begin, hbegin, hpos, hend, fun a ha ha' hin => ?_⟩
    have hlow : im.vstack ≤ a := hin.1
    have hhigh : a < im.bottom := hin.2
    omega

theorem turnSupplied_of_suppliedBy (h : suppliedBy im f e s = true) : TurnSupplied im f e s := by
  rintro inst next ⟨ip, hip, hread⟩
  rw [suppliedBy, hip] at h
  simp only [hread, Bool.and_eq_true, decide_eq_true_eq] at h
  obtain ⟨⟨⟨⟨hslots, hrecords⟩, hcaptured⟩, hlocals⟩, hwords⟩ := h
  refine ⟨hslots, fun hcall => ?_, fun l hl hc => ?_, fun hp a hlo hhi => ?_, fun ha => ?_⟩
  · simpa [hcall] using hrecords
  · have hone := List.all_eq_true.mp hcaptured l hl
    simpa [hc] using hone
  · simp only [hp, Bool.not_true, Bool.false_or, List.all_eq_true, List.mem_range] at hlocals
    have hone := hlocals (s.top - a) (by omega)
    rw [Nat.sub_sub_self hhi, Bool.or_eq_true, beq_iff_eq] at hone
    rcases hone with hu | hz
    · exact Or.inl hu
    · exact Or.inr (Or.inl hz)
  · rw [ha] at hwords
    exact granted_of_grantedBy hwords

theorem runSupplied_of_runSuppliedBy (h : runSuppliedBy im f es s = true) : RunSupplied im f es s := by
  induction es generalizing s with
  | nil => trivial
  | cons e es ih =>
    rw [runSuppliedBy, Bool.and_eq_true] at h
    refine ⟨turnSupplied_of_suppliedBy h.1, fun s' hs' => ih ?_⟩
    have hall := h.2
    rwa [hs'] at hall

theorem served_of_runSuppliedBy {heapBegin : ℕ} (hboots : Boots im f heapBegin)
    (h : (interpreteInit im f heapBegin ip).toOption.all (runSuppliedBy im f es) = true) :
    Served im f heapBegin ip es := by
  refine ⟨hboots, fun s hs => ?_⟩
  rw [hs] at h
  exact runSupplied_of_runSuppliedBy h

/-! ### The whole program -/

/-- The interpreter runs a program as the abstract machine does: as long as every turn has what it relies
    on, it goes on, comes to where the machine comes, and has printed what the machine has printed. -/
theorem interprete_refines {heapBegin : ℕ} (hserved : Served im f heapBegin ip es)
    (hrun : (Vm.init (toSize f.globalAreaSize) ip).run f (es.map fun e => e.input.toInt) = some vm) :
    ∃ s, interpreteTurns im f heapBegin ip es = .ok s ∧ Refines im vm s ∧ s.out = vm.out := by
  obtain ⟨s, hturns, h⟩ := hserved.refines hrun
  exact ⟨s, hturns, h, h.out⟩

/-- The main body captures its local and calls the closure, whose array of one element does not fit on
    the heap beside it. -/
def addCaptured : List UInt8 :=
  82 :: intBytes 0 ++ intBytes 1 ++ 16 :: intBytes 4 ++ 65 :: intBytes 0 ++ 24 ::
    84 :: intBytes 46 ++ intBytes 1 ++ 1 :: intBytes 0 ++ 16 :: intBytes 3 ++ 85 :: intBytes 1 ++ [113, 22] ++
    83 :: intBytes 1 ++ intBytes 0 ++ 34 :: intBytes 0 ++ 35 :: intBytes 0 ++ 1 ::
    116 :: intBytes 1 ++ 114 :: 35 :: intBytes 0 ++ [1, 22]

/-- Turns in which `closure_size` counts one captured value. -/
def oneCaptured : List Env := List.replicate 18 { sampleEnv with closureSize := 1 }

theorem boots_addCaptured {heapBegin : ℕ} (hpos : 0 < heapBegin)
    (hfits : heapBegin + minimumHeapCapacity < 2 ^ 30)
    (hbeside : heapBegin + minimumHeapCapacity ≤ im.vstack ∨ im.bottom ≤ heapBegin) :
    Boots im (program 0 addCaptured) heapBegin := by
  refine ⟨by decide, hpos, hfits, fun a ha ha' hin => ?_⟩
  have hlow : im.vstack ≤ a := hin.1
  have hhigh : a < im.bottom := hin.2
  omega

/-- Where the abstract machine ends: the closure and the array are in the store. -/
def addCapturedEnd : Vm := ⟨none, [], [], [⟨.closure 46, [.int 4]⟩, ⟨.array, [.int 7]⟩], [5]⟩

theorem run_addCaptured : (Vm.init (toSize (program 0 addCaptured).globalAreaSize) 0).run
    (program 0 addCaptured) (oneCaptured.map fun e => e.input.toInt) = some addCapturedEnd := by
  decide +kernel

theorem interprete_refines_addCaptured : ∃ s,
    interpreteTurns sampleImage (program 0 addCaptured) sampleHeap 0 oneCaptured = .ok s ∧
    Refines sampleImage addCapturedEnd s ∧ s.out = [5] :=
  interprete_refines
    (served_of_runSuppliedBy (boots_addCaptured (by decide) (by decide) (by decide)) (by decide +kernel))
    run_addCaptured

/-- What a program prints depends on its input alone: not on where the stack is, on where the heap is and
    goes to, or on when the collector runs. -/
theorem output_independent {im' : Image} {es' : List Env} {heapBegin heapBegin' : ℕ}
    (hserved : Served im f heapBegin ip es) (hserved' : Served im' f heapBegin' ip es')
    (hinput : es'.map Env.input = es.map Env.input)
    (hrun : (Vm.init (toSize f.globalAreaSize) ip).run f (es.map fun e => e.input.toInt) = some vm) :
    ∃ s s', interpreteTurns im f heapBegin ip es = .ok s ∧ interpreteTurns im' f heapBegin' ip es' = .ok s' ∧
      s'.ip = s.ip ∧ s'.out = s.out := by
  have hinput' : (es'.map fun e => e.input.toInt) = es.map fun e => e.input.toInt := by
    have hmap := congrArg (List.map BitVec.toInt) hinput
    rwa [List.map_map, List.map_map] at hmap
  obtain ⟨s, hturns, h⟩ := hserved.refines hrun
  obtain ⟨s', hturns', h'⟩ := hserved'.refines (hinput' ▸ hrun)
  exact ⟨s, s', hturns, hturns', h'.1.trans h.1.symm, h'.out.trans h.out.symm⟩

/-- Another layout of the process. -/
def distantImage : Image where
  vstack := 500000
  bstringRoot := 700000
  lstringRoot := 700004
  startCustomData := 20
  stopCustomData := 21
  buffer := 4000
  vstack_pos := by decide
  vstack_fits := by decide
  roots_differ := by decide
  bstringRoot_apart := by decide
  lstringRoot_apart := by decide
  customData_apart := by decide
  bstringRoot_custom := by decide
  lstringRoot_custom := by decide

theorem output_independent_addCaptured : ∃ s s',
    interpreteTurns sampleImage (program 0 addCaptured) sampleHeap 0 oneCaptured = .ok s ∧
    interpreteTurns distantImage (program 0 addCaptured) 2000 0
      (List.replicate 18 { sampleEnv with mremap := some 3000, closureSize := 9 }) = .ok s' ∧
    s'.ip = s.ip ∧ s'.out = s.out :=
  output_independent
    (served_of_runSuppliedBy (boots_addCaptured (by decide) (by decide) (by decide)) (by decide +kernel))
    (served_of_runSuppliedBy (boots_addCaptured (by decide) (by decide) (by decide)) (by decide +kernel))
    rfl run_addCaptured

end Lama

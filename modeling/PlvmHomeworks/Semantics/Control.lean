import PlvmHomeworks.Semantics.Operations

/-! Jumps, calls and returns: the interpreter goes where the abstract machine goes, with the records and
    the slots of the routines. -/

namespace Lama
open Outcome Cells

variable {im : Image} {e : Env} {f : Bytefile} {s t : State} {os : List HeapObject}
  {place place' : Place} {vm vm' : Vm} {r caller : Routine} {rest : List Routine} {v : Val} {w : Word}
  {n : ℕ} {next : ℤ} {vs : List Val} {inst : Inst} {h : MemoryChunk}

/-- The interpreter does the instruction, to a state that stands for `vm'`, and goes where `vm'` is. -/
def Follows (im : Image) (e : Env) (f : Bytefile) (s : State) (next : ℤ) (inst : Inst) (vm' : Vm) : Prop :=
  ∃ t jump os place, exec im e f s inst = .ok (t, jump) ∧ jump.getD (some next) = vm'.ip ∧
    Simulates im os place vm' t

/-! ### Jumps -/

theorem Routine.top_one (h : r.operands.head? = some v) : r.top 1 = some [v] := by
  obtain ⟨vs, hops⟩ := List.head?_eq_some_iff.mp h
  rw [Routine.top, hops, if_pos (by rw [List.length_cons]; omega)]
  rfl

theorem Routine.slots_pos (h : r.operands.head? = some v) : 0 < r.slots.length := by
  have hn := (Routine.top_eq_some.mp (Routine.top_one h)).1
  rw [r.length_slots]
  omega

/-- An operand alone on top. -/
theorem Simulates.operand (hsim : Simulates im os place vm s) (hrun : vm.routines = r :: rest)
    (hv : r.operands.head? = some v) :
    ∃ w, OnTop im s [w] ∧ Denotes s.mem.heap place v w := by
  obtain ⟨ws, hon, hws, hlen⟩ := (hsim.stackHolds hrun).operands hrun (Routine.top_one hv)
  rcases hws with _ | ⟨hd, ⟨⟩⟩
  exact ⟨_, hon, hd⟩

theorem unbox_contentWord_ne {p : ℕ} (hpos : 0 < h.begin) (hlt : h.begin + p + headerSize < 2 ^ 30) :
    unbox (contentWord h p) ≠ 0 := by
  intro heq
  have hword : (contentWord h p).toNat = 4 * (h.begin + p + headerSize) := by
    rw [contentWord, ptr_toNat]
    omega
  have hshift := congrArg BitVec.toInt heq
  rw [unbox, BitVec.toInt_sshiftRight, BitVec.toInt_eq_toNat_bmod, hword, Int.shiftRight_eq_div_pow,
    show (0 : Word).toInt = 0 from rfl] at hshift
  simp only [Int.bmod_def] at hshift
  omega

/-- What the conditional jumps compare with 0. -/
theorem Simulates.unbox_eq_zero (hsim : Simulates im os place vm s) (hd : Denotes s.mem.heap place v w) :
    unbox w = 0 ↔ v.isZero = true := by
  cases v with
  | int n =>
    obtain ⟨hu, rfl⟩ := denotes_int.mp hd
    simp only [Val.isZero, beq_iff_eq]
    exact ⟨fun h => by rw [h]; rfl, fun h => BitVec.eq_of_toInt_eq h⟩
  | null =>
    rw [show w = 0 from hd]
    decide
  | ref id =>
    obtain ⟨p, hp, rfl⟩ := hd
    obtain ⟨⟨free, hr⟩, hs⟩ := hsim.heap
    obtain ⟨-, o, -, ws, -, hrep⟩ := hs.placed id p hp
    have hinside := hrep.object.inside
    have htwo := hrep.object.two_le
    have hfits := hsim.placed.fits
    have hne := unbox_contentWord_ne (p := p) hr.pos (by unfold headerSize; omega)
    simp only [hne, Val.isZero, Bool.false_eq_true]

section Running
variable (hsim : Simulates im os place vm s) (hrun : vm.routines = r :: rest)
include hsim hrun

theorem Simulates.jmp {target : ℤ} : Follows im e f s next (.jmp target) (vm.go target r rest) := by
  have hlow := (hsim.stackHolds hrun).low
  refine ⟨s, _, os, place, rfl, rfl, ?_⟩
  exact hsim.results (n := 0) hrun (Nat.zero_le _) .nil (by simpa using hlow) rfl rfl rfl rfl

/-- A conditional jump, either way. -/
theorem Simulates.popped {ip : ℤ} (hv : r.operands.head? = some v) :
    ∃ w, Denotes s.mem.heap place v w ∧ vstackPop im s = .ok (w, s.drop 1) ∧
      Simulates im os place (vm.go ip (r.replace 1 []) rest) (s.drop 1) := by
  obtain ⟨w, hon, hd⟩ := hsim.operand hrun hv
  have hlow := hon.low
  have hn := (Routine.top_eq_some.mp (Routine.top_one hv)).1
  exact ⟨w, hd, (hon.pop []).1, hsim.results hrun hn .nil (by simp; omega) rfl rfl rfl rfl⟩

theorem Simulates.cjmpz {target : ℤ} (hv : r.operands.head? = some v) :
    Follows im e f s next (.cjmpz target)
      (vm.go (if v.isZero then target else next) (r.replace 1 []) rest) := by
  obtain ⟨w, hd, hpop, hafter⟩ := hsim.popped hrun hv
  refine ⟨_, _, os, place, bind_eq_ok.mpr ⟨_, hpop, rfl⟩, ?_, hafter⟩
  simp only [hsim.unbox_eq_zero hd]
  split <;> rfl

theorem Simulates.cjmpnz {target : ℤ} (hv : r.operands.head? = some v) :
    Follows im e f s next (.cjmpnz target)
      (vm.go (if v.isZero then next else target) (r.replace 1 []) rest) := by
  obtain ⟨w, hd, hpop, hafter⟩ := hsim.popped hrun hv
  refine ⟨_, _, os, place, bind_eq_ok.mpr ⟨_, hpop, rfl⟩, ?_, hafter⟩
  simp only [ne_eq, hsim.unbox_eq_zero hd, ite_not]
  split <;> rfl

end Running

/-! ### Prologues -/

/-- A word that is a value: not a pointer, or the address of an object that a walk over the heap finds. -/
def IsWalked (h : MemoryChunk) (w : Word) : Prop :=
  unboxed w = true ∨ w = 0 ∨
    ∃ visited last, walk h h.fuel h.begin = some (visited, last) ∧ ∃ p ∈ visited, w = ptr (p + headerSize)

theorem HeapHolds.value {store : List Obj} (hh : HeapHolds h os place store) (hw : IsWalked h w) :
    ∃ v, Denotes h place v w := by
  obtain ⟨⟨free, hr⟩, hs⟩ := hh
  rcases hw with hu | rfl | ⟨visited, last, hwalk, p, hp, rfl⟩
  · exact ⟨.int (unbox w).toInt, denotes_int.mpr ⟨hu, rfl⟩⟩
  · exact ⟨.null, rfl⟩
  · rw [hr.layout.walk] at hwalk
    cases hwalk
    obtain ⟨q, hq, rfl⟩ := List.mem_map.mp hp
    obtain ⟨id, hid⟩ := hs.onto q hq
    exact ⟨.ref id, q, hid, rfl⟩

theorem Routine.locals_slots (hlocals : r.locals = none) (hops : r.operands = []) :
    ({ r with locals := some (List.replicate n none) } : Routine).slots =
      List.replicate n none ++ r.slots := by
  simp only [Routine.slots, Routine.reserved, hlocals, hops, List.map_nil, List.nil_append,
    Option.getD_some, Option.getD_none, List.reverse_replicate, List.reverse_nil]

section Running
variable (hsim : Simulates im os place vm s) (hrun : vm.routines = r :: rest)
include hsim hrun

/-- The new locals hold what was there, values if the collector is to look at them. -/
theorem Simulates.prologue {argc locc : ℤ} (hinst : inst = .begin argc locc ∨ inst = .cbegin argc locc)
    (hguard : 0 ≤ locc ∧ r.locals = none ∧ r.operands = []) (hroom : im.vstack + locc.toNat < s.top)
    (hstale : ∀ a, s.top < a + locc.toNat → a ≤ s.top → IsWalked s.mem.heap (s.mem.ram a)) :
    Follows im e f s next inst
      (vm.go next { r with locals := some (List.replicate locc.toNat none) } rest) := by
  obtain ⟨hpos, hlocals, hops⟩ := hguard
  obtain ⟨n, rfl⟩ := Int.eq_ofNat_of_zero_le hpos
  rw [Int.toNat_natCast] at hroom hstale
  rw [Int.toNat_natCast]
  have hst := hsim.stackHolds hrun
  have hlen := hst.length_le hrun
  have hb := im.bottom_lt
  have hsize : toSize (n : ℤ) = n := by
    unfold toSize
    omega
  have haddr : ptrAdd s.top (-(n : ℤ)) = s.top - n := by
    have := ptrAdd_eq (p := s.top) (n := -(n : ℤ)) (by omega) (by omega)
    omega
  have hexec : exec im e f s inst = .ok (s.reserved n, none) := by
    have halloc : cstackAlloc im s n = .ok (s.reserved n) := by
      rw [cstackAlloc, haddr, ensure_of (by omega), ok_bind, State.reserved, haddr]
      rfl
    rcases hinst with rfl | rfl <;>
      exact bind_eq_ok.mpr ⟨none, rfl, bind_eq_ok.mpr ⟨_, by rw [execPlain, hsize, halloc], rfl⟩⟩
  have htop : (s.reserved n).top = s.top - n := haddr
  refine ⟨_, _, os, place, hexec, rfl, ?_⟩
  refine hsim.of_stack rfl rfl hsim.out rfl rfl (fun _ _ => rfl) fun _ => ?_
  have hslots : (vm.go next { r with locals := some (List.replicate n none) } rest).slots =
      List.replicate n none ++ vm.slots := by
    rw [Vm.slots_of rfl, Routine.locals_slots hlocals hops, Vm.slots_of hrun, List.append_assoc]
    rfl
  have hrecords := hst.records
  rw [hrun] at hrecords
  obtain ⟨⟨hret, hclosure, hcount, hbase, -⟩, hrest⟩ := hrecords
  refine ⟨⟨?_, ?_⟩, ?_, ?_, ?_⟩
  · refine ⟨by simpa [State.reserved] using hret, by simpa [State.reserved] using hclosure,
      by simpa [State.reserved] using hcount, ?_, fun ls hls => ?_⟩
    · simp only [State.reserved, if_true, hbase, haddr, hops, Routine.reserved, hlocals,
        Option.getD_some, Option.getD_none, List.length_nil, List.length_replicate]
      omega
    · cases hls
      simp [State.reserved]
  · rw [Routine.locals_slots hlocals hops, List.length_append, List.length_replicate, htop,
      show s.top - n + (n + r.slots.length) = s.top + r.slots.length by omega]
    exact hrest.congr fun i hi => if_neg (by have : s.ctop + 1 ≤ i := hi; omega)
  · rw [htop]
    omega
  · rw [hslots, List.length_append, List.length_replicate, htop, ← hst.high]
    omega
  · rw [hslots, laid_append, List.length_replicate, htop,
      show s.top - n + 1 + n = s.top + 1 by omega]
    exact ⟨laid_replicate fun i hi => hsim.heap.value (hstale _ (by omega) (by omega)), hst.words⟩

/-! ### Calls -/

/-- The operands that a call takes become the arguments and the closure of the routine that starts. -/
theorem Simulates.enter {k : ℕ} {target returnIp : ℤ} (closure : Option Val) (hargs : r.top k = some vs)
    (hn : k + closure.isSome.toNat ≤ r.operands.length)
    (hops : r.operands = vs.reverse ++ (closure.toList ++ r.operands.drop (k + closure.isSome.toNat)))
    (hctop : 0 < s.ctop) :
    Simulates im os place (vm.enter target returnIp closure vs r (k + closure.isSome.toNat) rest)
      (s.called returnIp k closure.isSome) := by
  have hst := hsim.stackHolds hrun
  have hlen : vs.length = k := by
    obtain ⟨hk, rfl⟩ := Routine.top_eq_some.mp hargs
    rw [List.length_reverse, List.length_take_of_le hk]
  generalize hm : k + closure.isSome.toNat = m at hn hops
  let callee : Routine := ⟨some returnIp, closure, vs, none, []⟩
  have hcallee : callee.slots = (vs.map some).reverse ++ closure.toList.map some := rfl
  have hlength : callee.slots.length = m := by
    rw [Routine.length_slots, ← hm, ← hlen]
    simp only [callee, Routine.reserved, Option.getD_none, List.length_nil]
    omega
  have hsplit : callee.slots ++ (r.replace m []).slots = r.slots := by
    rw [Routine.replace_slots hn, hcallee, List.reverse_nil, List.map_nil, List.nil_append, Routine.slots,
      List.drop_append_of_le_length (by rwa [List.length_map]), ← List.map_drop]
    conv_rhs => rw [hops]
    simp only [List.map_append, List.map_reverse, List.append_assoc]
  have hslots : (vm.enter target returnIp closure vs r m rest).slots = vm.slots := by
    have hsplit' : (vm.enter target returnIp closure vs r m rest).slots =
        callee.slots ++ (vm.enter target returnIp closure vs r m rest).outer (r.replace m [] :: rest) :=
      Vm.slots_of rfl
    rw [Vm.slots_of hrun, hsplit', ← hsplit, List.append_assoc]
    simp only [Vm.outer, List.flatMap_cons, List.append_assoc]
    rfl
  have hrecords := hst.records
  rw [hrun] at hrecords
  have hbelow : ∀ i, s.ctop ≤ i → (s.called returnIp k closure.isSome).cstack i = s.cstack i :=
    fun i hi => if_neg (by omega)
  refine hsim.of_stack rfl rfl hsim.out rfl rfl (fun _ _ => rfl) fun _ => ⟨⟨?_, ?_⟩, hst.low, ?_, ?_⟩
  · rw [show (s.called returnIp k closure.isSome).cstack (s.called returnIp k closure.isSome).ctop =
      s.callee returnIp k closure.isSome from if_pos rfl]
    exact ⟨rfl, rfl, hlen.symm, rfl, fun _ h => absurd h (Option.some_ne_none _).symm⟩
  · rw [show (s.called returnIp k closure.isSome).ctop + 1 = s.ctop from Nat.sub_add_cancel hctop]
    refine ⟨?_, ?_⟩
    · rw [hbelow _ (Nat.le_refl _)]
      exact hrecords.1.replace hn (by rw [hlength]; rfl)
    · have hend : (s.called returnIp k closure.isSome).top + callee.slots.length +
          (r.replace m []).slots.length = s.top + r.slots.length := by
        rw [← hsplit, List.length_append, Nat.add_assoc]
        rfl
      rw [hend]
      exact hrecords.2.congr fun i hi => hbelow i (by omega)
  · rw [hslots]
    exact hst.high
  · rw [hslots]
    exact hst.words

theorem Simulates.call {returnIp target argc : ℤ} (hpos : 0 ≤ argc) (hargs : r.top argc.toNat = some vs)
    (hctop : 0 < s.ctop) :
    Follows im e f s next (.call returnIp target argc)
      (vm.enter target returnIp none vs r argc.toNat rest) := by
  obtain ⟨k, rfl⟩ := Int.eq_ofNat_of_zero_le hpos
  rw [Int.toNat_natCast] at hargs
  rw [Int.toNat_natCast]
  obtain ⟨hk, hvs⟩ := Routine.top_eq_some.mp hargs
  have hlen := (hsim.stackHolds hrun).length_le hrun
  have hb := im.bottom_lt
  rw [r.length_slots] at hlen
  have hsize : toSize (k : ℤ) = k := by
    unfold toSize
    omega
  have hcall : cstackCall im s returnIp k false = .ok (s.called returnIp k false) := by
    have := ptrAdd_eq (p := s.top) (n := (k : ℤ)) (by omega) (by omega)
    rw [cstackCall, ensure_of hctop, ok_bind, ensure_of (by omega)]
    rfl
  refine ⟨_, _, os, place, bind_eq_ok.mpr ⟨_, by rw [hsize, hcall], rfl⟩, rfl, ?_⟩
  refine hsim.enter hrun none hargs hk ?_ hctop
  rw [← hvs, List.reverse_reverse]
  exact (List.take_append_drop k _).symm

theorem Simulates.callc {returnIp argc entry : ℤ} {id : ℕ} {fields : List Val} (hpos : 0 ≤ argc)
    (hargs : r.top argc.toNat = some vs) (hclosure : r.operands[argc.toNat]? = some (.ref id))
    (hstore : vm.store[id]? = some ⟨.closure entry, fields⟩) (hctop : 0 < s.ctop) :
    Follows im e f s next (.callc returnIp argc)
      (vm.enter entry returnIp (some (.ref id)) vs r (argc.toNat + 1) rest) := by
  obtain ⟨k, rfl⟩ := Int.eq_ofNat_of_zero_le hpos
  rw [Int.toNat_natCast] at hargs hclosure
  rw [Int.toNat_natCast]
  obtain ⟨hk, hvs⟩ := Routine.top_eq_some.mp hargs
  obtain ⟨hlt, hget⟩ := List.getElem?_eq_some_iff.mp hclosure
  have htop : r.top (k + 1) = some (.ref id :: vs) := by
    rw [Routine.top, if_pos (show k + 1 ≤ r.operands.length from hlt),
      List.take_succ_eq_append_getElem hlt, List.reverse_append, hget, hvs]
    rfl
  obtain ⟨ws, hon, hws, hlen⟩ := (hsim.stackHolds hrun).operands hrun htop
  obtain ⟨x, xs, hx, -, rfl⟩ := List.forall₂_cons_left_iff.mp hws
  obtain ⟨p, fs, rfl, -, -, hr⟩ := hsim.heap.object hx hstore
  have hlen' : xs.length = k := by
    rw [List.length_cons] at hlen
    omega
  have hcall : exec im e f s (.callc returnIp xs.length) =
      .ok (s.called returnIp xs.length true, some (some entry)) := (hr.callc hsim.placed rfl hon hctop).1
  rw [hlen'] at hcall
  refine ⟨_, _, os, place, hcall, rfl, ?_⟩
  refine hsim.enter hrun (some (.ref id)) hargs hlt ?_ hctop
  rw [← hvs, List.reverse_reverse]
  refine (List.take_append_drop k _).symm.trans (congrArg _ ?_)
  rw [List.drop_eq_getElem_cons hlt, hget]
  rfl

/-! ### Returns -/

/-- The slot of the result is the last one of the routine. -/
theorem Simulates.resultSlot : s.frame.resultSlot = s.top + r.slots.length := by
  have hst := hsim.stackHolds hrun
  have hlen := hst.length_le hrun
  have hb := im.bottom_lt
  have hrecord := hst.record hrun
  have hbase := hrecord.base
  have hcount := hrecord.argsCount
  have hclosure := congrArg Bool.toNat hrecord.isClosure
  rw [r.length_slots] at hlen
  have := ptrAdd_eq (p := s.frame.base) (n := (s.frame.argsCount + s.frame.isClosure.toNat : ℤ))
    (by omega) (by omega)
  rw [Frame.resultSlot, r.length_slots]
  omega

theorem Simulates.cstackEnd (hv : r.operands.head? = some v) :
    Lama.cstackEnd im s = .ok (s.returned, s.frame.returnIp) := by
  obtain ⟨w, hon, -⟩ := hsim.operand hrun hv
  have hst := hsim.stackHolds hrun
  have hlen := hst.length_le hrun
  have hlow := hon.low
  have hhigh := hon.high
  rw [List.length_singleton] at hhigh
  have hrecords := hst.records.length
  rw [hrun, List.length_cons] at hrecords
  have hb := im.bottom_lt
  have hslot := hsim.resultSlot hrun
  have hrecord := hst.record hrun
  have hbase := hrecord.base
  have hcount := hrecord.argsCount
  have hpos := Routine.slots_pos hv
  have hargs : ptrAdd s.frame.base s.frame.argsCount ≤ im.bottom := by
    rw [r.length_slots] at hlen
    have := ptrAdd_eq (p := s.frame.base) (n := (s.frame.argsCount : ℤ)) (by omega) (by omega)
    omega
  refine bind_eq_ok.mpr ⟨_, vstackPop_of (by omega) (by omega), ?_⟩
  refine bind_eq_ok.mpr ⟨(), ensure_of (show s.ctop ≠ cstackSize by omega), ?_⟩
  refine bind_eq_ok.mpr ⟨(), ensure_of hargs, ?_⟩
  refine bind_eq_ok.mpr ⟨_, vstackPush_of (show im.vstack < s.frame.resultSlot by omega)
    (show s.frame.resultSlot < im.bottom by omega), rfl⟩

/-- The result takes the place of the arguments and the closure. -/
theorem Simulates.leave (hinst : inst = .end_ ∨ inst = .ret) (hv : r.operands.head? = some v) :
    Follows im e f s next inst (vm.leave r v rest) := by
  obtain ⟨w, hon, hd⟩ := hsim.operand hrun hv
  have hst := hsim.stackHolds hrun
  have hlen := hst.length_le hrun
  have hlow := hon.low
  have hslot := hsim.resultSlot hrun
  have hw : s.mem.ram (s.top + 1) = w := List.head_eq_of_cons_eq hon.words
  have hpos := Routine.slots_pos hv
  have hexec : exec im e f s inst = .ok (s.returned, some s.frame.returnIp) := by
    rcases hinst with rfl | rfl <;> exact bind_eq_ok.mpr ⟨_, hsim.cstackEnd hrun hv, rfl⟩
  have htop : s.returned.top = s.top + r.slots.length - 1 := by rw [← hslot]; rfl
  have hresult : s.returned.mem.ram (s.top + r.slots.length) = w := by
    rw [← hslot, ← hw]
    exact if_pos rfl
  have hother : ∀ a, a ≠ s.top + r.slots.length → s.returned.mem.ram a = s.mem.ram a := fun a ha =>
    if_neg (by rwa [hslot])
  have hreturn : s.frame.returnIp = r.returnIp := (hst.record hrun).returnIp
  have hwords := hst.words
  have hhigh := hst.high
  have hrecords := hst.records
  rw [Vm.slots_of hrun, List.length_append] at hhigh
  rw [Vm.slots_of hrun, laid_append] at hwords
  rw [hrun] at hrecords
  have houtside : ∀ a, ¬ im.inStack a → s.returned.mem.ram a = s.mem.ram a := fun a ha =>
    hother a (by rintro rfl; exact ha (inStack_iff.mpr ⟨by omega, by omega⟩))
  cases rest with
  | nil =>
    exact ⟨_, _, os, place, hexec, by rw [hreturn]; rfl,
      hsim.of_stack rfl rfl hsim.out rfl rfl houtside fun h => absurd rfl h⟩
  | cons caller rest =>
    refine ⟨_, _, os, place, hexec, by rw [hreturn]; rfl,
      hsim.of_stack rfl rfl hsim.out rfl rfl houtside fun _ => ?_⟩
    have hcaller : (caller.replace 0 [v]).slots = some v :: caller.slots :=
      Routine.replace_slots (Nat.zero_le _)
    have hslots : (vm.leave r v (caller :: rest)).slots = some v :: vm.outer (caller :: rest) := by
      rw [Vm.slots_of rfl, hcaller, List.cons_append, Vm.outer, Vm.outer, List.flatMap_cons,
        List.append_assoc]
      rfl
    refine ⟨⟨?_, ?_⟩, ?_, ?_, ?_⟩
    · exact hrecords.2.1.replace (Nat.zero_le _) (by rw [htop, List.length_singleton]; omega)
    · rw [hcaller, List.length_cons, htop, show s.top + r.slots.length - 1 + (caller.slots.length + 1) =
        s.top + r.slots.length + caller.slots.length by omega]
      exact hrecords.2.2
    · rw [htop]
      omega
    · rw [hslots, List.length_cons, htop]
      omega
    · rw [hslots, htop, show s.top + r.slots.length - 1 + 1 = s.top + r.slots.length by omega]
      refine ⟨?_, ?_⟩
      · rw [hresult]
        exact hd
      · rw [show s.top + r.slots.length + 1 = s.top + 1 + r.slots.length by omega]
        exact hwords.2.congr fun a ha _ => hother a (by omega)

end Running

end Lama

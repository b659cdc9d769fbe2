import PlvmHomeworks.Semantics.Stack
import PlvmHomeworks.Tools.Tuples

/-! The state of the interpreter that stands for a state of the abstract machine, and the variables of
    the routine that runs. -/

namespace Lama
open Outcome Cells

/-- The state stands for the machine, wherever the instruction pointers are. -/
structure Simulates (im : Image) (os : List HeapObject) (place : Place) (vm : Vm) (s : State) : Prop where
  globalsCount : s.globalsCount = vm.globals.length
  out : s.out = vm.out
  heap : HeapHolds s.mem.heap os place vm.store
  placed : HeapPlaced im s.mem.heap
  stack : vm.routines ≠ [] → StackHolds im place vm s
  customData : ∀ a ∈ region im.startCustomData im.stopCustomData, s.mem.ram a = 0
  bottom : s.mem.ram im.bottom = 0

variable {im : Image} {e : Env} {f : Bytefile} {s t : State} {os : List HeapObject}
  {place place' : Place} {vm vm' : Vm} {r : Routine} {rest : List Routine} {l : LocationEntry} {v : Val}
  {w : Word} {id i : ℕ} {o : Obj} {ip : ℤ}

/-! ### The state -/

theorem Simulates.stackHolds (hsim : Simulates im os place vm s) (hrun : vm.routines = r :: rest) :
    StackHolds im place vm s := hsim.stack (by rw [hrun]; exact List.cons_ne_nil _ _)

/-- Only the virtual stack has changed. -/
theorem Simulates.of_stack (hsim : Simulates im os place vm s) (hcount : t.globalsCount = s.globalsCount)
    (hglobals : vm'.globals.length = vm.globals.length) (hout : t.out = vm'.out)
    (hheap : t.mem.heap = s.mem.heap) (hstore : vm'.store = vm.store)
    (houtside : ∀ a, ¬ im.inStack a → t.mem.ram a = s.mem.ram a)
    (hstack : vm'.routines ≠ [] → StackHolds im place vm' t) : Simulates im os place vm' t where
  globalsCount := by rw [hcount, hsim.globalsCount, hglobals]
  out := hout
  heap := by
    rw [hheap, hstore]
    exact hsim.heap
  placed := by
    rw [hheap]
    exact hsim.placed
  stack := hstack
  customData a ha := by
    rw [houtside a (customData_outside ha).1]
    exact hsim.customData a ha
  bottom := by
    rw [houtside _ bottom_outside]
    exact hsim.bottom

/-! ### Objects -/

theorem object_eq_some : vm.object v = some (id, o) ↔ v = .ref id ∧ vm.store[id]? = some o := by
  cases v with
  | ref id' =>
    simp only [Vm.object, Option.bind_eq_bind, Option.pure_def, Option.bind_eq_some_iff,
      Option.some.injEq, Prod.mk.injEq, Val.ref.injEq]
    constructor
    · rintro ⟨o', ho', rfl, rfl⟩
      exact ⟨rfl, ho'⟩
    · rintro ⟨rfl, ho⟩
      exact ⟨o, ho, rfl, rfl⟩
  | _ => simp [Vm.object]

theorem closureOf_eq_some : vm.closureOf r = some (id, o) ↔
    r.closure = some (.ref id) ∧ vm.store[id]? = some o ∧ o.type = .closure := by
  rw [Vm.closureOf, Option.bind_eq_bind, Option.bind_eq_some_iff]
  constructor
  · rintro ⟨v, hv, h⟩
    obtain ⟨⟨id', o'⟩, ho, h⟩ := Option.bind_eq_some_iff.mp h
    obtain ⟨u, hu, h⟩ := Option.bind_eq_some_iff.mp h
    rw [Option.guard_eq_some'] at hu
    cases h
    obtain ⟨rfl, hstore⟩ := object_eq_some.mp ho
    exact ⟨hv, hstore, hu⟩
  · rintro ⟨hv, ho, hu⟩
    refine ⟨_, hv, Option.bind_eq_some_iff.mpr ⟨_, object_eq_some.mpr ⟨rfl, ho⟩, ?_⟩⟩
    exact Option.bind_eq_some_iff.mpr ⟨(), (Option.guard_eq_some' ()).mpr hu, rfl⟩

/-- The object that a word stands for. -/
theorem HeapHolds.object {h : MemoryChunk} {store : List Obj} (hh : HeapHolds h os place store)
    (hd : Denotes h place (.ref id) w) (ho : store[id]? = some o) :
    ∃ p ws, w = contentWord h p ∧ place id = some p ∧ List.Forall₂ (Denotes h place) o.fields ws ∧
      Represents h p (o.aggregate ws) := by
  obtain ⟨p, hp, hw⟩ := hd
  obtain ⟨-, o', ho', ws, hws, hr⟩ := hh.objects.placed id p hp
  obtain rfl : o' = o := Option.some.inj (ho'.symm.trans ho)
  exact ⟨p, ws, hw, hp, hws, hr⟩

/-- A store into a field, through its address. -/
theorem storeWord_field {p : ℕ} {ws : List Word} (hplaced : HeapPlaced im s.mem.heap)
    (hr : Represents s.mem.heap p (o.aggregate ws)) (hi : i < ws.length) (w : Word) :
    storeWord im s (ptrAdd (s.mem.heap.begin + p + headerSize) (((o.aggregate ws).first + i : ℕ) : ℤ)) w =
      .ok (s.withHeap (s.mem.heap.setWord (p + headerSize + ((o.aggregate ws).first + i)) w)) := by
  have hi' : i < (o.aggregate ws).fields.length := by rwa [Obj.aggregate_fields]
  obtain ⟨-, hroom⟩ := hr.field (List.getElem?_eq_getElem hi')
  have hend := hr.object.inside
  rw [ptrAdd_content hplaced hr.object hroom, storeWord,
    if_neg (hplaced.apart _ (Nat.le_add_right _ _) (by omega)), store_add (by omega)]
  rfl

/-- A store into a field of the heap leaves the stack to the same machine. -/
theorem StackHolds.setWord {g : MemoryChunk} (hst : StackHolds im place vm s)
    (hb : g.begin = s.mem.heap.begin) (hroutines : vm'.routines = vm.routines)
    (hglobals : vm'.globals = vm.globals) : StackHolds im place vm' (s.withHeap g) where
  records := by
    rw [hroutines]
    exact hst.records
  low := hst.low
  high := by
    rw [Vm.slots, Vm.outer, hroutines, hglobals]
    exact hst.high
  words := by
    rw [Vm.slots, Vm.outer, hroutines, hglobals]
    exact hst.words.imp fun _ _ _ hslot => hslot.imp fun _ hd => hd.congr hb

theorem Simulates.setField {p : ℕ} {ws : List Word} (hsim : Simulates im os place vm s)
    (hid : place id = some p) (hws : List.Forall₂ (Denotes s.mem.heap place) o.fields ws)
    (hr : Represents s.mem.heap p (o.aggregate ws)) (hi : i < o.fields.length)
    (hd : Denotes s.mem.heap place v w) (hroutines : vm'.routines = vm.routines)
    (hglobals : vm'.globals = vm.globals) (hstore : vm'.store = (vm.setField id o i v).store)
    (hout : vm'.out = vm.out) :
    Simulates im os place vm'
      (s.withHeap (s.mem.heap.setWord (p + headerSize + ((o.aggregate ws).first + i)) w)) where
  globalsCount := by
    rw [hglobals]
    exact hsim.globalsCount
  out := by
    rw [hout]
    exact hsim.out
  heap := by
    rw [hstore]
    exact hsim.heap.setField hid hws hr hi hd
  placed := ⟨hsim.placed.apart, hsim.placed.fits⟩
  stack hne := (hsim.stack (hroutines ▸ hne)).setWord rfl hroutines hglobals
  customData := hsim.customData
  bottom := hsim.bottom

/-! ### Variables -/

/-- The captured values that `closure_size` counts. -/
def LocationEntry.Counted (e : Env) (l : LocationEntry) : Prop :=
  l.location = some .captured → toSize l.index < e.closureSize.toNat

theorem Obj.aggregate_first {ws : List Word} (ho : o.type = .closure) : (o.aggregate ws).first = 1 := by
  cases o with
  | mk kind fields => cases kind <;> first | rfl | cases ho

/-- `loc` finds the captured value in the closure. -/
theorem Simulates.loc_captured (hsim : Simulates im os place vm s) (hrun : vm.routines = r :: rest)
    (hcounted : l.Counted e) (hl : l.location = some .captured) (hi : l.slot = some i)
    (hc : vm.closureOf r = some (id, o)) :
    ∃ p ws, place id = some p ∧ List.Forall₂ (Denotes s.mem.heap place) o.fields ws ∧
      Represents s.mem.heap p (o.aggregate ws) ∧
      loc im e s l =
        .ok (ptrAdd (s.mem.heap.begin + p + headerSize) (((o.aggregate ws).first + i : ℕ) : ℤ)) := by
  obtain ⟨hclosure, ho, htype⟩ := closureOf_eq_some.mp hc
  obtain ⟨x, hx, hruns⟩ := (hsim.stackHolds hrun).closure hrun hclosure
  obtain ⟨p, ws, rfl, hp, hws, hr⟩ := hsim.heap.object hx ho
  refine ⟨p, ws, hp, hws, hr, ?_⟩
  rw [hruns.loc hl, ensure_of (hcounted hl), ok_bind, derefPtr_content hsim.placed hr.object,
    Obj.aggregate_first htype, slot_eq_some.mp hi, Nat.cast_add, Nat.cast_one]
  rfl

theorem OnStack.hasValue {A xs B : List (Option Val)} (hon : OnStack im e s vm l A xs B i)
    (hst : StackHolds im place vm s) (hi : xs[i]? = some (some v)) :
    ∃ w, HasValue im e s l w ∧ Denotes s.mem.heap place v w := by
  have hbounds := hon.bounds hst
  have hlow := hst.low
  refine ⟨_, ⟨_, hon.address, ?_, fun _ => hbounds.1⟩, hon.value hst hi⟩
  rw [loadWord, if_pos (inStack_iff.mpr ⟨by omega, hbounds.2⟩)]

/-- `LD` finds the value of the variable. -/
theorem Simulates.load (hsim : Simulates im os place vm s) (hrun : vm.routines = r :: rest)
    (hcounted : l.Counted e) (hload : vm.load r l = some v) :
    ∃ w, HasValue im e s l w ∧ Denotes s.mem.heap place v w := by
  have hst := hsim.stackHolds hrun
  obtain ⟨i, hi, hload⟩ := Option.bind_eq_some_iff.mp hload
  obtain ⟨kind, hkind, hload⟩ := Option.bind_eq_some_iff.mp hload
  have hsome : ∀ {vs : List Val}, vs[i]? = some v → (vs.map some)[i]? = some (some v) := fun h => by
    rw [List.getElem?_map, h]
    rfl
  cases kind with
  | global =>
    exact (onStack_global hst hsim.globalsCount hkind hi (List.getElem?_eq_some_iff.mp hload).1).hasValue
      hst (hsome hload)
  | local_ =>
    obtain ⟨ls, hls, hload⟩ := Option.bind_eq_some_iff.mp hload
    obtain ⟨slot, hslot, hload⟩ := Option.bind_eq_some_iff.mp hload
    subst hload
    exact (onStack_local hst hrun hkind hi hls (List.getElem?_eq_some_iff.mp hslot).1).hasValue hst hslot
  | arg =>
    exact (onStack_arg hst hrun hkind hi (List.getElem?_eq_some_iff.mp hload).1).hasValue
      hst (hsome hload)
  | captured =>
    obtain ⟨⟨id, o⟩, hc, hload⟩ := Option.bind_eq_some_iff.mp hload
    obtain ⟨p, ws, -, hws, hr, hloc⟩ := hsim.loc_captured hrun hcounted hkind hi hc
    obtain ⟨hlt, rfl⟩ := List.getElem?_eq_some_iff.mp hload
    have hlt' : i < ws.length := hws.length_eq ▸ hlt
    have hget : (o.aggregate ws).fields[i]? = some ws[i] := by
      rw [Obj.aggregate_fields]
      exact List.getElem?_eq_getElem hlt'
    have hinside := hr.object.inside
    have hroom := (hr.field hget).2
    refine ⟨ws[i], ⟨_, hloc, loadWord_aggregate hsim.placed hr hget, fun hin => absurd hin ?_⟩,
      hws.get hlt hlt'⟩
    rw [ptrAdd_content hsim.placed hr.object hroom]
    exact hsim.placed.apart _ (Nat.le_add_right _ _) (by omega)

/-- The variable gets another value on the stack. -/
theorem OnStack.assign {A xs B : List (Option Val)} (hon : OnStack im e s vm l A xs B i)
    (hsim : Simulates im os place vm s) (hst : StackHolds im place vm s)
    (hd : Denotes s.mem.heap place v w) (hrecords : Recorded s.cstack s.ctop s.top vm'.routines)
    (hslots : vm'.slots = A ++ ((xs.set i (some v)).reverse ++ B))
    (hglobals : vm'.globals.length = vm.globals.length) (hstore : vm'.store = vm.store)
    (hout : vm'.out = vm.out) :
    ∃ a t, loc im e s l = .ok a ∧ storeWord im s a w = .ok t ∧ Simulates im os place vm' t := by
  have hbounds := hon.bounds hst
  have hlow := hst.low
  have hin : im.inStack (s.top + A.length + xs.length - i) := inStack_iff.mpr ⟨by omega, hbounds.2⟩
  refine ⟨_, _, hon.address, by rw [storeWord, if_pos hin], ?_⟩
  refine hsim.of_stack rfl hglobals (by rw [hout]; exact hsim.out) rfl hstore (fun a ha => ?_) fun _ =>
    hon.store hst hd hrecords hslots
  refine if_neg ?_
  rintro rfl
  exact ha hin

/-- `ST` gives the variable another value. -/
theorem Simulates.assign (hsim : Simulates im os place vm s) (hrun : vm.routines = r :: rest)
    (hcounted : l.Counted e) (hd : Denotes s.mem.heap place v w)
    (hassign : vm.assign ip r rest l v = some vm') :
    ∃ a t, loc im e s l = .ok a ∧ storeWord im s a w = .ok t ∧ Simulates im os place vm' t := by
  have hst := hsim.stackHolds hrun
  have hrecords := hst.records
  rw [hrun] at hrecords
  obtain ⟨i, hi, hassign⟩ := Option.bind_eq_some_iff.mp hassign
  obtain ⟨kind, hkind, hassign⟩ := Option.bind_eq_some_iff.mp hassign
  cases kind with
  | global =>
    obtain ⟨u, hlt, hassign⟩ := Option.bind_eq_some_iff.mp hassign
    rw [Option.guard_eq_some'] at hlt
    cases hassign
    refine (onStack_global hst hsim.globalsCount hkind hi hlt).assign hsim hst hd hrecords ?_
      (List.length_set ..) rfl rfl
    simp only [Vm.slots, Vm.outer, Vm.go, hrun, List.map_set, List.append_nil]
  | local_ =>
    obtain ⟨ls, hls, hassign⟩ := Option.bind_eq_some_iff.mp hassign
    obtain ⟨u, hlt, hassign⟩ := Option.bind_eq_some_iff.mp hassign
    rw [Option.guard_eq_some'] at hlt
    cases hassign
    have hreserved : r.reserved = ls := by rw [Routine.reserved, hls, Option.getD_some]
    refine (onStack_local hst hrun hkind hi hls hlt).assign hsim hst hd ⟨?_, ?_⟩ ?_ rfl rfl rfl
    · obtain ⟨hret, hclosure, hcount, hbase, hlocals⟩ := hrecords.1
      refine ⟨hret, hclosure, hcount, ?_, fun ls' hls' => ?_⟩
      · rw [hbase, hreserved]
        simp only [Routine.reserved, Option.getD_some, List.length_set]
      · cases hls'
        rw [hlocals ls hls, List.length_set]
    · have hrest := hrecords.2
      rw [r.length_slots, hreserved] at hrest
      rw [Routine.length_slots]
      simpa only [Routine.reserved, Option.getD_some, List.length_set] using hrest
    · simp only [Vm.slots, Vm.outer, Vm.go, Routine.slots, Routine.reserved, Option.getD_some,
        List.flatMap_cons, List.append_assoc]
  | arg =>
    obtain ⟨u, hlt, hassign⟩ := Option.bind_eq_some_iff.mp hassign
    rw [Option.guard_eq_some'] at hlt
    cases hassign
    refine (onStack_arg hst hrun hkind hi hlt).assign hsim hst hd ⟨?_, ?_⟩ ?_ rfl rfl rfl
    · obtain ⟨hret, hclosure, hcount, hbase, hlocals⟩ := hrecords.1
      exact ⟨hret, hclosure, hcount.trans (List.length_set ..).symm, hbase, hlocals⟩
    · have hrest := hrecords.2
      rw [r.length_slots] at hrest
      rw [Routine.length_slots]
      simpa only [Routine.reserved, List.length_set] using hrest
    · simp only [Vm.slots, Vm.outer, Vm.go, Routine.slots, Routine.reserved, List.map_set,
        List.flatMap_cons, List.append_assoc]
  | captured =>
    obtain ⟨⟨id, o⟩, hc, hassign⟩ := Option.bind_eq_some_iff.mp hassign
    obtain ⟨u, hlt, hassign⟩ := Option.bind_eq_some_iff.mp hassign
    rw [Option.guard_eq_some'] at hlt
    cases hassign
    obtain ⟨p, ws, hp, hws, hr, hloc⟩ := hsim.loc_captured hrun hcounted hkind hi hc
    have hlt' : i < ws.length := hws.length_eq ▸ hlt
    refine ⟨_, _, hloc, storeWord_field hsim.placed hr hlt' w, ?_⟩
    exact hsim.setField hp hws hr hlt hd hrun.symm rfl rfl rfl

end Lama

import PlvmHomeworks.Lib.Cells
import PlvmHomeworks.Semantics.Store

/-! The routines of the abstract machine on the virtual stack and in the call stack.

    From the top of the virtual stack up to its bottom there are the operands, locals, arguments and the
    closure of one routine after another, and the globals. -/

namespace Lama
open Outcome Cells

/-! ### Slots -/

/-- The locals that the prologue has made. -/
def Routine.reserved (r : Routine) : List (Option Val) := r.locals.getD []

/-- The slots of a routine, from the last one of its operands on. -/
def Routine.slots (r : Routine) : List (Option Val) :=
  r.operands.map some ++ (r.reserved.reverse ++ ((r.args.map some).reverse ++ r.closure.toList.map some))

/-- The slots behind those of the innermost routine. -/
def Vm.outer (vm : Vm) (rest : List Routine) : List (Option Val) :=
  rest.flatMap Routine.slots ++ (vm.globals.map some).reverse

def Vm.slots (vm : Vm) : List (Option Val) := vm.outer vm.routines

/-- What the call stack says about a routine that has the virtual stack from `top` on. -/
structure Routine.IsRecord (r : Routine) (top : ℕ) (fr : Frame) : Prop where
  returnIp : fr.returnIp = r.returnIp
  isClosure : fr.isClosure = r.closure.isSome
  argsCount : fr.argsCount = r.args.length
  base : fr.base = top + r.operands.length + r.reserved.length
  localsCount : ∀ ls, r.locals = some ls → fr.localsCount = ls.length

/-- The records of the routines, the innermost one at index `k`. -/
def Recorded (cstack : ℕ → Frame) : ℕ → ℕ → List Routine → Prop
  | k, _, [] => k = cstackSize
  | k, top, r :: rest => r.IsRecord top (cstack k) ∧ Recorded cstack (k + 1) (top + r.slots.length) rest

/-- The stacks hold the routines and the globals. -/
structure StackHolds (im : Image) (place : Place) (vm : Vm) (s : State) : Prop where
  records : Recorded s.cstack s.ctop s.top vm.routines
  low : im.vstack ≤ s.top
  high : s.top + 1 + vm.slots.length = im.bottom
  words : Laid (SlotHolds s.mem.heap place) s.mem.ram (s.top + 1) vm.slots

variable {im : Image} {e : Env} {f : Bytefile} {s t : State} {place place' : Place} {vm vm' : Vm}
  {r : Routine} {rest : List Routine} {vs : List Val} {ws : List Word} {v : Val} {w : Word} {n k : ℕ}

theorem Vm.slots_of (hrun : vm.routines = r :: rest) : vm.slots = r.slots ++ vm.outer rest := by
  rw [Vm.slots, hrun, Vm.outer, Vm.outer, List.flatMap_cons, List.append_assoc]

theorem Routine.length_slots (r : Routine) : r.slots.length =
    r.operands.length + r.reserved.length + r.args.length + r.closure.isSome.toNat := by
  cases hc : r.closure <;>
    simp only [Routine.slots, hc, List.length_append, List.length_map, List.length_reverse,
      Option.toList_none, Option.toList_some, List.length_nil, List.length_singleton,
      Option.isSome_none, Option.isSome_some, Bool.toNat_false, Bool.toNat_true] <;> omega

@[simp] theorem Routine.replace_reserved : (r.replace n vs).reserved = r.reserved := rfl

theorem Routine.replace_operands : (r.replace n vs).operands = vs.reverse ++ r.operands.drop n := rfl

/-- Operands make way for others. -/
theorem Routine.replace_slots (hn : n ≤ r.operands.length) :
    (r.replace n vs).slots = vs.reverse.map some ++ r.slots.drop n := by
  have hlen : n ≤ (r.operands.map some).length := by rwa [List.length_map]
  rw [Routine.slots, Routine.slots, Routine.replace_operands, List.map_append, List.map_drop,
    List.drop_append_of_le_length hlen, List.append_assoc]
  rfl

theorem Recorded.congr {cstack cstack' : ℕ → Frame} : ∀ {rs : List Routine} {k top : ℕ},
    Recorded cstack k top rs → (∀ i, k ≤ i → cstack' i = cstack i) → Recorded cstack' k top rs
  | [], _, _, h, _ => h
  | r :: rs, k, top, h, heq => by
    refine ⟨?_, h.2.congr fun i hi => heq i (by omega)⟩
    rw [heq k (Nat.le_refl k)]
    exact h.1

/-- There are as many records as routines. -/
theorem Recorded.length {cstack : ℕ → Frame} : ∀ {rs : List Routine} {k top : ℕ},
    Recorded cstack k top rs → k + rs.length = cstackSize
  | [], _, _, h => h
  | _ :: rs, k, _, h => by
    have := h.2.length
    rw [List.length_cons]
    omega

theorem Routine.IsRecord.replace {top top' : ℕ} {fr : Frame} (h : r.IsRecord top fr)
    (hn : n ≤ r.operands.length) (htop : top' + vs.length = top + n) :
    (r.replace n vs).IsRecord top' fr where
  returnIp := h.returnIp
  isClosure := h.isClosure
  argsCount := h.argsCount
  base := by
    rw [h.base, Routine.replace_operands, Routine.replace_reserved, List.length_append,
      List.length_reverse, List.length_drop]
    omega
  localsCount := h.localsCount

/-! ### Operands -/

theorem Routine.top_eq_some : r.top n = some vs ↔
    n ≤ r.operands.length ∧ (r.operands.take n).reverse = vs := by
  rw [Routine.top]
  split <;> simp_all

theorem StackHolds.length_le (hst : StackHolds im place vm s) (hrun : vm.routines = r :: rest) :
    s.top + 1 + r.slots.length ≤ im.bottom := by
  have hhigh := hst.high
  rw [Vm.slots_of hrun, List.length_append] at hhigh
  omega

/-- The operands are on top. -/
theorem StackHolds.operands (hst : StackHolds im place vm s) (hrun : vm.routines = r :: rest)
    (htop : r.top n = some vs) :
    ∃ ws, OnTop im s ws ∧ List.Forall₂ (Denotes s.mem.heap place) vs ws ∧ ws.length = n := by
  obtain ⟨hn, rfl⟩ := Routine.top_eq_some.mp htop
  have hwords := hst.words
  rw [Vm.slots_of hrun, Routine.slots, List.append_assoc, laid_append] at hwords
  have hops := (laid_map.mp hwords.1).take n
  have hlen := hst.length_le hrun
  rw [r.length_slots] at hlen
  have hdown := hops.forall₂_reverse
  rw [List.length_take_of_le hn] at hdown
  have heq : ((List.range n).map fun i => s.mem.ram (s.top + 1 + n - 1 - i)) = s.operands n :=
    List.map_congr_left fun i _ => by rw [show s.top + 1 + n - 1 - i = s.top + n - i by omega]
  rw [heq] at hdown
  refine ⟨s.operands n, ⟨hst.low, ?_, by rw [State.operands_length]⟩, hdown, State.operands_length s n⟩
  rw [State.operands_length]
  omega

/-- Values that lie one above the other. -/
theorem laid_values {g : MemoryChunk} {ram : ℕ → Word} (h : List.Forall₂ (Denotes g place) vs ws)
    (hw : ∀ i w, ws.reverse[i]? = some w → ram (k + i) = w) :
    Laid (SlotHolds g place) ram k (vs.reverse.map some) := by
  have hrev := List.rel_reverse h
  generalize vs.reverse = us at hrev
  generalize ws.reverse = xs at hrev hw
  clear h
  induction hrev generalizing k with
  | nil => trivial
  | cons hd _ ih =>
    refine ⟨?_, ih fun i w hi => ?_⟩
    · rw [show ram k = _ from hw 0 _ rfl]
      exact hd
    · rw [Nat.add_right_comm, Nat.add_assoc]
      exact hw (i + 1) w (by rwa [List.getElem?_cons_succ])

/-- Operands make way for others, and what is behind them stays. -/
theorem StackHolds.replace (hst : StackHolds im place vm s) (hrun : vm.routines = r :: rest)
    (hn : n ≤ r.operands.length) (hvm : vm'.routines = r.replace n vs :: rest)
    (hglobals : vm'.globals = vm.globals) (hc : SameControl s t) (htop : t.top + vs.length = s.top + n)
    (hlow : im.vstack ≤ t.top)
    (hnew : Laid (SlotHolds t.mem.heap place') t.mem.ram (t.top + 1) (vs.reverse.map some))
    (hold : Laid (SlotHolds t.mem.heap place') t.mem.ram (s.top + 1 + n) (vm.slots.drop n)) :
    StackHolds im place' vm' t := by
  have hslots : vm'.slots = vs.reverse.map some ++ vm.slots.drop n := by
    have hle : n ≤ r.slots.length := by
      rw [r.length_slots]
      omega
    rw [Vm.slots_of hvm, Vm.slots_of hrun, Routine.replace_slots hn, Vm.outer, Vm.outer, hglobals,
      List.drop_append_of_le_length hle, List.append_assoc]
  have hlen : n ≤ vm.slots.length := by
    rw [Vm.slots_of hrun, List.length_append, r.length_slots]
    omega
  obtain ⟨hrecords, hslow, hhigh, hwords⟩ := hst
  refine ⟨?_, hlow, ?_, ?_⟩
  · rw [hvm, hc.cstack, hc.ctop]
    rw [hrun] at hrecords
    refine ⟨hrecords.1.replace hn htop, ?_⟩
    have hend : t.top + (r.replace n vs).slots.length = s.top + r.slots.length := by
      rw [Routine.replace_slots hn, List.length_append, List.length_map, List.length_reverse,
        List.length_drop, r.length_slots]
      omega
    rw [hend]
    exact hrecords.2
  · rw [hslots, List.length_append, List.length_map, List.length_reverse, List.length_drop]
    omega
  · rw [hslots, laid_append]
    refine ⟨hnew, ?_⟩
    rw [List.length_map, List.length_reverse, show t.top + 1 + vs.length = s.top + 1 + n by omega]
    exact hold

/-! ### Variables -/

/-- The variable is number `i` of `xs`, which lie, the last one first, behind the slots `A`. -/
structure OnStack (im : Image) (e : Env) (s : State) (vm : Vm) (l : LocationEntry)
    (A xs B : List (Option Val)) (i : ℕ) : Prop where
  slots : vm.slots = A ++ (xs.reverse ++ B)
  inside : i < xs.length
  address : loc im e s l = .ok (s.top + A.length + xs.length - i)

section Variables
variable {A xs B : List (Option Val)} {i : ℕ} {l : LocationEntry} {slot : Option Val}

theorem reverse_set {α : Type*} (xs : List α) (i : ℕ) (x : α) (hi : i < xs.length) :
    (xs.set i x).reverse = xs.reverse.set (xs.length - 1 - i) x := by
  refine List.ext_getElem (by simp) fun j hj hj' => ?_
  simp only [List.length_reverse, List.length_set] at hj
  simp only [List.getElem_reverse, List.getElem_set, List.length_set]
  by_cases hij : i = xs.length - 1 - j
  · rw [if_pos hij, if_pos (by omega)]
  · rw [if_neg hij, if_neg (by omega)]

theorem OnStack.bounds (hon : OnStack im e s vm l A xs B i) (hst : StackHolds im place vm s) :
    s.top < s.top + A.length + xs.length - i ∧ s.top + A.length + xs.length - i < im.bottom := by
  have hhigh := hst.high
  have hinside := hon.inside
  rw [hon.slots, List.length_append, List.length_append, List.length_reverse] at hhigh
  omega

/-- The word of the variable. -/
theorem OnStack.value (hon : OnStack im e s vm l A xs B i) (hst : StackHolds im place vm s)
    (hi : xs[i]? = some slot) :
    SlotHolds s.mem.heap place slot (s.mem.ram (s.top + A.length + xs.length - i)) := by
  have hinside := hon.inside
  have hwords := hst.words
  rw [hon.slots, laid_append, laid_append] at hwords
  have hget : xs.reverse[xs.length - 1 - i]? = some slot := by
    rw [List.getElem?_reverse (by omega), show xs.length - 1 - (xs.length - 1 - i) = i by omega, hi]
  have hslot := hwords.2.1.get hget
  rwa [show s.top + 1 + A.length + (xs.length - 1 - i) = s.top + A.length + xs.length - i by omega]
    at hslot

/-- A store into the variable. -/
theorem OnStack.store (hon : OnStack im e s vm l A xs B i) (hst : StackHolds im place vm s)
    (hd : Denotes s.mem.heap place v w) (hrecords : Recorded s.cstack s.ctop s.top vm'.routines)
    (hslots : vm'.slots = A ++ ((xs.set i (some v)).reverse ++ B)) :
    StackHolds im place vm'
      { s with mem := s.mem.setRam (s.top + A.length + xs.length - i) w } := by
  have hinside := hon.inside
  have hj : xs.length - 1 - i < (xs.reverse ++ B).length := by
    rw [List.length_append, List.length_reverse]
    omega
  have hset : vm'.slots = vm.slots.set (A.length + (xs.length - 1 - i)) (some v) := by
    rw [hslots, hon.slots, reverse_set xs i _ hinside, List.set_append_right _ _ (by omega),
      Nat.add_sub_cancel_left, List.set_append_left _ _ (by rw [List.length_reverse]; omega)]
  refine ⟨hrecords, hst.low, ?_, ?_⟩
  · rw [hset, List.length_set]
    exact hst.high
  · rw [hset]
    refine hst.words.set ?_ ?_ fun b _ _ hne => ?_
    · rw [hon.slots, List.length_append]
      omega
    · rw [show s.top + 1 + (A.length + (xs.length - 1 - i)) = s.top + A.length + xs.length - i by omega]
      simp only [Memory.setRam, if_true]
      exact hd
    · exact if_neg (by omega)

theorem slot_eq_some : l.slot = some i ↔ l.index = i := by
  unfold LocationEntry.slot
  split <;> simp only [Option.some.injEq, reduceCtorEq, false_iff] <;> omega

theorem onStack_global (hst : StackHolds im place vm s) (hcount : s.globalsCount = vm.globals.length)
    (hl : l.location = some .global) (hi : l.slot = some i) (hlt : i < vm.globals.length) :
    OnStack im e s vm l (vm.routines.flatMap Routine.slots) (vm.globals.map some) [] i where
  slots := by rw [Vm.slots, Vm.outer, List.append_nil]
  inside := by rwa [List.length_map]
  address := by
    have hb := im.bottom_lt
    have hhigh := hst.high
    rw [Vm.slots, Vm.outer, List.length_append, List.length_reverse, List.length_map] at hhigh
    rw [slot_eq_some] at hi
    have hsize : toSize l.index < s.globalsCount := by
      rw [hi, hcount]
      unfold toSize
      omega
    have haddr := ptrAdd_eq (p := im.bottom) (n := -1 - l.index) (by omega) (by omega)
    rw [loc, hl, List.length_map]
    simp only [ensure_of hsize, ok_bind]
    refine congrArg Except.ok ?_
    omega

variable (hst : StackHolds im place vm s) (hrun : vm.routines = r :: rest)
include hst hrun

theorem StackHolds.record : r.IsRecord s.top s.frame := by
  have hrecords := hst.records
  rw [hrun] at hrecords
  exact hrecords.1

theorem onStack_local {ls : List (Option Val)} (hl : l.location = some .local_) (hi : l.slot = some i)
    (hls : r.locals = some ls) (hlt : i < ls.length) :
    OnStack im e s vm l (r.operands.map some) ls
      (((r.args.map some).reverse ++ r.closure.toList.map some) ++ vm.outer rest) i where
  slots := by
    rw [Vm.slots_of hrun, Routine.slots, Routine.reserved, hls, Option.getD_some]
    simp only [List.append_assoc]
  inside := hlt
  address := by
    have hb := im.bottom_lt
    have hlen := hst.length_le hrun
    have hrecord := hst.record hrun
    have hbase := hrecord.base
    rw [r.length_slots] at hlen
    rw [Routine.reserved, hls, Option.getD_some] at hlen hbase
    rw [slot_eq_some] at hi
    have hsize : toSize l.index < s.frame.localsCount := by
      rw [hi, hrecord.localsCount ls hls]
      unfold toSize
      omega
    have haddr := ptrAdd_eq (p := s.frame.base) (n := -l.index) (by omega) (by omega)
    rw [loc, hl, List.length_map]
    simp only [ensure_of hsize, ok_bind]
    refine congrArg Except.ok ?_
    omega

theorem onStack_arg (hl : l.location = some .arg) (hi : l.slot = some i) (hlt : i < r.args.length) :
    OnStack im e s vm l (r.operands.map some ++ r.reserved.reverse) (r.args.map some)
      (r.closure.toList.map some ++ vm.outer rest) i where
  slots := by
    rw [Vm.slots_of hrun, Routine.slots]
    simp only [List.append_assoc]
  inside := by rwa [List.length_map]
  address := by
    have hb := im.bottom_lt
    have hlen := hst.length_le hrun
    have hrecord := hst.record hrun
    have hbase := hrecord.base
    have hcount := hrecord.argsCount
    rw [r.length_slots] at hlen
    rw [slot_eq_some] at hi
    have hsize : toSize l.index < s.frame.argsCount := by
      rw [hi, hcount]
      unfold toSize
      omega
    have haddr := ptrAdd_eq (p := s.frame.base) (n := s.frame.argsCount - l.index) (by omega) (by omega)
    rw [loc, hl, List.length_append, List.length_map, List.length_reverse, List.length_map]
    simp only [ensure_of hsize, ok_bind]
    refine congrArg Except.ok ?_
    omega

/-- The closure that the routine runs is behind its arguments. -/
theorem StackHolds.closure (hv : r.closure = some v) :
    ∃ x, Denotes s.mem.heap place v x ∧ RunsClosure im s x := by
  have hlen := hst.length_le hrun
  have hlow := hst.low
  have hrecord := hst.record hrun
  have hbase := hrecord.base
  have hcount := hrecord.argsCount
  have hwords := hst.words
  have hget : vm.slots[r.operands.length + r.reserved.length + r.args.length]? = some (some v) := by
    have hslots : vm.slots = (r.operands.map some ++ r.reserved.reverse ++ (r.args.map some).reverse) ++
        some v :: vm.outer rest := by
      rw [Vm.slots_of hrun, Routine.slots, hv]
      simp only [List.append_assoc]
      rfl
    have hlength : (r.operands.map some ++ r.reserved.reverse ++ (r.args.map some).reverse).length =
        r.operands.length + r.reserved.length + r.args.length := by
      simp only [List.length_append, List.length_map, List.length_reverse]
    rw [hslots, ← hlength, List.getElem?_append_right (Nat.le_refl _), Nat.sub_self]
    rfl
  have hslot := hwords.get hget
  rw [r.length_slots, hv, Option.isSome_some, Bool.toNat_true] at hlen
  have haddr : s.frame.base + s.frame.argsCount + 1 =
      s.top + 1 + (r.operands.length + r.reserved.length + r.args.length) := by omega
  refine ⟨_, hslot, ?_, ?_, ?_⟩
  · rw [hrecord.isClosure, hv]
    rfl
  · rw [haddr]
    exact inStack_iff.mpr ⟨by omega, by omega⟩
  · rw [haddr]

end Variables

end Lama

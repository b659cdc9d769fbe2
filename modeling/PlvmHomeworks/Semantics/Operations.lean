import PlvmHomeworks.Library.Compare
import PlvmHomeworks.Semantics.Variables

/-! The instructions that do nothing but replace operands: the interpreter pops and pushes words that
    stand for the values. -/

namespace Lama
open Outcome Cells

variable {im : Image} {e : Env} {f : Bytefile} {s t : State} {os : List HeapObject}
  {place place' : Place} {vm vm' : Vm} {r : Routine} {rest : List Routine} {l : LocationEntry} {v : Val}
  {w : Word} {id i n : ℕ} {o : Obj} {ip : ℤ} {vs vs' : List Val} {ws ws' : List Word} {inst : Inst}
  {h : MemoryChunk}

/-! ### Words -/

theorem denotes_int {n : ℤ} : Denotes h place (.int n) w ↔ unboxed w = true ∧ (unbox w).toInt = n := by
  constructor
  · rintro ⟨rfl, hlo, hhi⟩
    refine ⟨unboxed_box _, ?_⟩
    rw [unbox_box, BitVec.toInt_ofInt]
    simp only [Int.bmod_def]
    omega
  · rintro ⟨hu, rfl⟩
    have hrange := unbox_range w
    refine ⟨(unbox_inj hu (unboxed_box _)).mp (BitVec.eq_of_toInt_eq ?_), hrange⟩
    rw [unbox_box, BitVec.ofInt_toInt]
    simp only [Int.bmod_def]
    omega

/-- An integer that is boxed. -/
theorem denotes_box (n : ℤ) : Denotes h place (.int (wrap31 n)) (box (BitVec.ofInt 32 n)) := by
  refine denotes_int.mpr ⟨unboxed_box _, ?_⟩
  rw [unbox_box, BitVec.toInt_ofInt, wrap31, Int.bmod_bmod_of_dvd (by decide)]

theorem denotes_bool (b : Bool) : Denotes h place (.ofBool b) (box (boolWord b)) := by
  cases b <;> exact denotes_int.mpr (by decide)

/-- What is not an integer is boxed. -/
theorem Denotes.unboxed_eq (hd : Denotes h place v w) : unboxed w = v.toInt?.isSome := by
  cases v with
  | int n => exact (denotes_int.mp hd).1
  | null =>
    rw [show w = 0 from hd]
    rfl
  | ref id =>
    obtain ⟨p, -, rfl⟩ := hd
    exact unboxed_contentWord

/-! ### Pushes -/

/-- Several pushes, one after another. -/
def State.pushAll (s : State) (ws : List Word) : State := ws.foldl State.push s

@[simp] theorem State.pushAll_nil : s.pushAll [] = s := rfl
@[simp] theorem State.pushAll_cons : s.pushAll (w :: ws) = (s.push w).pushAll ws := rfl

theorem State.pushAll_top (s : State) (ws : List Word) : (s.pushAll ws).top = s.top - ws.length := by
  induction ws generalizing s with
  | nil => rfl
  | cons w ws ih =>
    rw [State.pushAll_cons, ih, State.push_top, List.length_cons]
    omega

theorem State.pushAll_same (s : State) (ws : List Word) : SameControl s (s.pushAll ws) ∧
    (s.pushAll ws).mem.heap = s.mem.heap ∧ (s.pushAll ws).out = s.out := by
  induction ws generalizing s with
  | nil => exact ⟨.refl s, rfl, rfl⟩
  | cons w ws ih =>
    obtain ⟨hc, hheap, hout⟩ := ih (s.push w)
    exact ⟨sameControl_push.trans hc, hheap, hout⟩

/-- The words that pushes do not write. -/
theorem State.pushAll_other {a : ℕ} (hlen : ws.length ≤ s.top)
    (ha : s.top < a ∨ a ≤ s.top - ws.length) : (s.pushAll ws).mem.ram a = s.mem.ram a := by
  induction ws generalizing s with
  | nil => rfl
  | cons w ws ih =>
    rw [List.length_cons] at hlen ha
    rw [State.pushAll_cons, ih (by rw [State.push_top]; omega) (by rw [State.push_top]; omega),
      State.push_ram, if_neg (by omega)]

theorem State.pushAll_get (hlen : ws.length ≤ s.top) (hi : ws[i]? = some w) :
    (s.pushAll ws).mem.ram (s.top - i) = w := by
  induction ws generalizing s i with
  | nil => cases hi
  | cons x ws ih =>
    rw [List.length_cons] at hlen
    cases i with
    | zero =>
      cases hi
      rw [State.pushAll_cons, Nat.sub_zero,
        State.pushAll_other (by rw [State.push_top]; omega) (by rw [State.push_top]; omega), State.push_ram,
        if_pos rfl]
    | succ i =>
      rw [List.getElem?_cons_succ] at hi
      have hget := ih (s := s.push x) (by rw [State.push_top]; omega) hi
      rwa [State.push_top, Nat.sub_sub, Nat.add_comm 1 i] at hget

/-- A state with other words for some operands stands for the machine with these values. -/
theorem Simulates.results (hsim : Simulates im os place vm s) (hrun : vm.routines = r :: rest)
    (hn : n ≤ r.operands.length) (hws : List.Forall₂ (Denotes s.mem.heap place) vs ws)
    (hroom : im.vstack + vs.length ≤ s.top + n) (hvm : vm'.routines = r.replace n vs :: rest)
    (hglobals : vm'.globals = vm.globals) (hstore : vm'.store = vm.store) (hout : vm'.out = vm.out) :
    Simulates im os place vm' ((s.drop n).pushAll ws) := by
  have hst := hsim.stackHolds hrun
  have hlen := hws.length_eq
  have hbelow : ws.length ≤ (s.drop n).top := by
    rw [State.drop_top]
    omega
  have htop := State.pushAll_top (s.drop n) ws
  rw [State.drop_top] at htop
  obtain ⟨hc, hheap, houts⟩ := State.pushAll_same (s.drop n) ws
  have hbottom := hst.length_le hrun
  rw [r.length_slots] at hbottom
  refine hsim.of_stack hc.globalsCount (by rw [hglobals]) (by rw [houts, hout]; exact hsim.out) hheap hstore
    (fun a ha => ?_) fun _ => ?_
  · refine State.pushAll_other hbelow ?_
    rw [inStack_iff] at ha
    rw [State.drop_top]
    omega
  · refine hst.replace hrun hn hvm hglobals (sameControl_drop.trans hc) (by omega) (by omega) ?_ ?_
    · rw [hheap, htop]
      refine laid_values hws ?_
      intro i w hi
      have hlt := (List.getElem?_eq_some_iff.mp hi).1
      rw [List.length_reverse] at hlt
      rw [List.getElem?_reverse hlt] at hi
      have hget := State.pushAll_get hbelow hi
      rwa [State.drop_top, show s.top + n - (ws.length - 1 - i) = s.top + n - ws.length + 1 + i by omega]
        at hget
    · rw [hheap]
      have hn' : n ≤ vm.slots.length := by
        rw [Vm.slots_of hrun, List.length_append, r.length_slots]
        omega
      refine (hst.words.drop hn').congr fun b hb _ => ?_
      exact State.pushAll_other hbelow (Or.inl (by rw [State.drop_top]; omega))

/-! ### Instructions -/

/-- What the runtime finds at a value that is asked about. -/
theorem Simulates.answer {accepts : Obj → Bool} {b : Bool} (hsim : Simulates im os place vm s)
    (hd : Denotes s.mem.heap place v w) (ha : vm.answer accepts v = some b) :
    (unboxed w = true ∧ b = false) ∨ ∃ p ws o, w = contentWord s.mem.heap p ∧
      o.fields.length = ws.length ∧ Represents s.mem.heap p (o.aggregate ws) ∧ accepts o = b := by
  cases v with
  | int n =>
    cases ha
    exact Or.inl ⟨(denotes_int.mp hd).1, rfl⟩
  | null => cases ha
  | ref id =>
    obtain ⟨⟨id', o⟩, ho, ha⟩ := Option.bind_eq_some_iff.mp ha
    obtain ⟨hid, hstore⟩ := object_eq_some.mp ho
    cases hid
    cases ha
    obtain ⟨p, ws, hw, -, hws, hr⟩ := hsim.heap.object hd hstore
    exact Or.inr ⟨p, ws, o, hw, hws.length_eq, hr, rfl⟩

theorem Obj.aggregate_isSexp (hash : Word) (m : ℕ) (hlen : o.fields.length = ws.length) :
    (o.aggregate ws).isSexp hash m = o.isSexp hash m := by
  cases o with
  | mk kind fields =>
    cases kind <;> simp only [Obj.aggregate, Aggregate.isSexp, Obj.isSexp]
    rw [← hlen]

theorem Obj.aggregate_isArray (m : ℕ) (hlen : o.fields.length = ws.length) :
    (o.aggregate ws).isArray m = o.isArray m := by
  cases o with
  | mk kind fields =>
    cases kind <;> simp only [Obj.aggregate, Aggregate.isArray, Obj.isArray]
    rw [← hlen]

/-- The interpreter replaces these operands by words for these values. -/
def Replaces (im : Image) (e : Env) (f : Bytefile) (s : State) (place : Place) (inst : Inst)
    (vs' : List Val) : Prop :=
  ∃ ws', List.Forall₂ (Denotes s.mem.heap place) vs' ws' ∧
    exec im e f s inst = .ok ((s.drop inst.needs).pushAll ws', none)

section Replaces
variable {pattern : Pattern} {accepts : Obj → Bool} {b : Bool} {x y : Word}

theorem replaces_push (htop : im.vstack < s.top) (hlt : s.top < im.bottom) (hi : inst.isPlain = true)
    (ha : inst.allocates = false) (hj : inst.jumpTargets = []) (hn : inst.needs = 0)
    (hd : Denotes s.mem.heap place v w)
    (h : execPlain im e f s inst = vstackPush im s w) : Replaces im e f s place inst [v] := by
  refine ⟨[w], .cons hd .nil, exec_plain_of hi ha hj ?_⟩
  rw [h, vstackPush_of htop hlt, hn]
  rfl

/-- One operand is popped, and the answer about it pushed. -/
theorem replaces_answer (hon : OnTop im s [x]) (hi : inst.isPlain = true) (ha : inst.allocates = false)
    (hj : inst.jumpTargets = []) (hn : inst.needs = 1) (hd : Denotes s.mem.heap place v w)
    (h : vstackPop im s = .ok (x, s.drop 1) → execPlain im e f s inst = vstackPush im (s.drop 1) w) :
    Replaces im e f s place inst [v] := by
  obtain ⟨hpop, -⟩ := hon.pop []
  refine ⟨[w], .cons hd .nil, exec_plain_of hi ha hj ?_⟩
  rw [h hpop, hon.push_of rfl (List.cons_ne_nil _ _), hn]
  rfl

theorem OnTop.vstackTop (hon : OnTop im s [x]) : Lama.vstackTop im s = .ok x := by
  have hlow := hon.low
  have hhigh := hon.high
  have hb := im.bottom_lt
  rw [List.length_singleton] at hhigh
  have hadd : ptrAdd s.top 1 = s.top + 1 := by
    have := ptrAdd_eq (p := s.top) (n := 1) (by omega) (by omega)
    omega
  have hx : s.mem.ram (s.top + 1) = x := List.head_eq_of_cons_eq hon.words
  rw [Lama.vstackTop, hadd, ensure_of hhigh, ok_bind,
    readSlot_of (inStack_iff.mpr ⟨by omega, hhigh⟩), hx]

theorem replaces_dup (hlow : im.vstack < s.top) (hon : OnTop im s [x])
    (hd : Denotes s.mem.heap place v x) : Replaces im e f s place .dup [v, v] := by
  have hhigh := hon.high
  rw [List.length_singleton] at hhigh
  have hx : s.mem.ram (s.top + 1) = x := List.head_eq_of_cons_eq hon.words
  -- the operand that is read is the first of the two
  have hsame : (s.drop 1).push x = s := by
    have hram : (fun a => if a = s.top + 1 then x else s.mem.ram a) = s.mem.ram := funext fun a => by
      split
      · next heq => rw [heq, hx]
      · rfl
    rw [State.push, State.drop]
    simp only [Memory.setRam, hram, Nat.add_sub_cancel]
  refine ⟨[x, x], .cons hd (.cons hd .nil), exec_plain_of rfl rfl rfl ?_⟩
  refine bind_eq_ok.mpr ⟨x, hon.vstackTop, ?_⟩
  rw [vstackPush_of hlow (by omega), show Inst.needs .dup = 1 from rfl, State.pushAll_cons,
    State.pushAll_cons, hsame]
  rfl

theorem replaces_swap (hon : OnTop im s [x, y]) {v' : Val} (hx : Denotes s.mem.heap place v x)
    (hy : Denotes s.mem.heap place v' y) : Replaces im e f s place .swap [v', v] := by
  obtain ⟨hpop, hon'⟩ := hon.pop [x]
  obtain ⟨hpop', -⟩ := hon'.pop []
  have hlow := hon.low
  have hhigh := hon.high
  have hpos := im.vstack_pos
  simp only [List.length_cons, List.length_nil] at hhigh
  refine ⟨[y, x], .cons hy (.cons hx .nil), exec_plain_of rfl rfl rfl ?_⟩
  have hpush : vstackPush im ((s.drop 1).drop 1) y = .ok (((s.drop 1).drop 1).push y) :=
    vstackPush_of (by simp only [State.drop_top]; omega) (by simp only [State.drop_top]; omega)
  refine bind_eq_ok.mpr ⟨_, hpop, bind_eq_ok.mpr ⟨_, hpop', bind_eq_ok.mpr ⟨_, hpush, ?_⟩⟩⟩
  rw [vstackPush_of (by simp only [State.push_top, State.drop_top]; omega)
    (by simp only [State.push_top, State.drop_top]; omega), State.drop_drop]
  rfl

theorem replaces_drop (hon : OnTop im s [x]) : Replaces im e f s place .drop [] := by
  obtain ⟨hpop, -⟩ := hon.pop []
  exact ⟨[], .nil, exec_plain_of rfl rfl rfl (bind_eq_ok.mpr ⟨_, hpop, rfl⟩)⟩

theorem replaces_binop {op : Binop} {m n k : ℤ} (hon : OnTop im s [x, y])
    (hx : Denotes s.mem.heap place (.int m) x) (hy : Denotes s.mem.heap place (.int n) y)
    (hk : op.exact m n = some k) (hint : -2 ^ 31 ≤ k ∧ k < 2 ^ 31) :
    Replaces im e f s place (.binop op) [.int (wrap31 k)] := by
  obtain ⟨hpop, hon'⟩ := hon.pop [x]
  obtain ⟨hpop', -⟩ := hon'.pop []
  have hres := binop_of_exact hk
  rw [toInt32_of_isInt hint, ← (denotes_int.mp hx).2, ← (denotes_int.mp hy).2] at hres
  refine ⟨[_], .cons (denotes_box k) .nil, exec_plain_of rfl rfl rfl ?_⟩
  refine bind_eq_ok.mpr ⟨_, hpop, bind_eq_ok.mpr ⟨_, hpop', bind_eq_ok.mpr ⟨_, hres, ?_⟩⟩⟩
  rw [State.drop_drop]
  exact hon.push_of rfl (List.cons_ne_nil _ _) _

theorem replaces_elem {n : ℤ} {p : ℕ} (hplaced : HeapPlaced im s.mem.heap)
    (hr : Represents s.mem.heap p (o.aggregate ws))
    (hws : List.Forall₂ (Denotes s.mem.heap place) o.fields ws) (htype : o.type ≠ .closure)
    (hon : OnTop im s [contentWord s.mem.heap p, y]) (hy : Denotes s.mem.heap place (.int n) y)
    (hn : 0 ≤ n) (hv : o.fields[n.toNat]? = some v) : Replaces im e f s place .elem [v] := by
  obtain ⟨i, rfl⟩ := Int.eq_ofNat_of_zero_le hn
  rw [Int.toNat_natCast] at hv
  obtain ⟨hlt, rfl⟩ := List.getElem?_eq_some_iff.mp hv
  have hlt' : i < ws.length := hws.length_eq ▸ hlt
  have hget : (o.aggregate ws).fields[i]? = some ws[i] := by
    rw [Obj.aggregate_fields]
    exact List.getElem?_eq_getElem hlt'
  obtain ⟨rfl, -⟩ := hy
  refine ⟨[ws[i]], .cons (hws.get hlt hlt') .nil, ?_⟩
  rw [BitVec.ofInt_natCast] at hon
  exact (hr.readsAs (e := e) (f := f) hplaced (by rwa [Obj.aggregate_type])).elem s i _ rfl hon hget

end Replaces

theorem toOption_eq_some {ε α : Type*} {x : Except ε α} {a : α} : x.toOption = some a ↔ x = .ok a := by
  cases x <;> simp [Except.toOption]

/-- The pattern instructions that ask for a type. -/
theorem patt_type {pattern : Pattern} {type : LamaType} {x : Word} (h : pattern.type = some type)
    (hpop : vstackPop im s = .ok (x, s.drop 1)) (hw : tagPatt im (s.drop 1) type.tag x = .ok w) :
    patt im s pattern = vstackPush im (s.drop 1) w := by
  rw [patt, hpop, ok_bind]
  cases pattern <;> cases h <;> exact (congrArg (· >>= fun y => vstackPush im (s.drop 1) y) hw).trans rfl

variable (hsim : Simulates im os place vm s) (hrun : vm.routines = r :: rest)
include hsim hrun

/-- Whatever an instruction makes of its operands, the interpreter does to the words. -/
theorem Simulates.replaces (htop : r.top inst.needs = some vs)
    (hcompute : vm.compute f e.input.toInt r inst vs = some vs')
    (hroom : im.vstack + (inst.pushes - inst.pops) ≤ s.top) (hcounted : ∀ l ∈ inst.locations, l.Counted e) :
    Replaces im e f s place inst vs' ∧ vs'.length + inst.pops = inst.needs + inst.pushes := by
  have hst := hsim.stackHolds hrun
  obtain ⟨ws, hon, hws, hlen⟩ := hst.operands hrun htop
  have hhigh := hst.length_le hrun
  have hlow := hst.low
  unfold Vm.compute at hcompute
  split at hcompute
  · -- CONST
    cases hcompute
    exact ⟨replaces_push hroom (by omega) rfl rfl rfl rfl (denotes_box _) rfl, rfl⟩
  · -- DROP
    cases hcompute
    rcases hws with _ | ⟨hx, ⟨⟩⟩
    exact ⟨replaces_drop hon, rfl⟩
  · -- DUP
    cases hcompute
    rcases hws with _ | ⟨hx, ⟨⟩⟩
    exact ⟨replaces_dup hroom hon hx, rfl⟩
  · -- SWAP
    cases hcompute
    rcases hws with _ | ⟨hx, _ | ⟨hy, ⟨⟩⟩⟩
    exact ⟨replaces_swap hon hx hy, rfl⟩
  · -- BINOP
    obtain ⟨k, hk, hcompute⟩ := Option.bind_eq_some_iff.mp hcompute
    obtain ⟨u, hint, hcompute⟩ := Option.bind_eq_some_iff.mp hcompute
    rw [Option.guard_eq_some'] at hint
    cases hcompute
    rcases hws with _ | ⟨hx, _ | ⟨hy, ⟨⟩⟩⟩
    exact ⟨replaces_binop hon hx hy hk hint, rfl⟩
  · -- LD
    obtain ⟨v, hload, hcompute⟩ := Option.bind_eq_some_iff.mp hcompute
    cases hcompute
    obtain ⟨w, ⟨a, hloc, hword, -⟩, hd⟩ :=
      hsim.load hrun (hcounted _ (List.mem_singleton_self _)) hload
    refine ⟨replaces_push hroom (by omega) rfl rfl rfl rfl hd ?_, rfl⟩
    rw [execPlain, hloc, ok_bind, hword, ok_bind]
  · -- ELEM
    obtain ⟨⟨id, o⟩, ho, hcompute⟩ := Option.bind_eq_some_iff.mp hcompute
    obtain ⟨u, hguard, hcompute⟩ := Option.bind_eq_some_iff.mp hcompute
    obtain ⟨v, hv, hcompute⟩ := Option.bind_eq_some_iff.mp hcompute
    rw [Option.guard_eq_some'] at hguard
    cases hcompute
    obtain ⟨rfl, hstore⟩ := object_eq_some.mp ho
    rcases hws with _ | ⟨hx, _ | ⟨hy, ⟨⟩⟩⟩
    obtain ⟨p, fields, rfl, -, hfields, hr⟩ := hsim.heap.object hx hstore
    exact ⟨replaces_elem hsim.placed hr hfields hguard.2 hon hy hguard.1 hv, rfl⟩
  · -- TAG
    next pos m v =>
    obtain ⟨u, hm, hcompute⟩ := Option.bind_eq_some_iff.mp hcompute
    obtain ⟨chars, hchars, hcompute⟩ := Option.bind_eq_some_iff.mp hcompute
    obtain ⟨hash, hhash, hcompute⟩ := Option.bind_eq_some_iff.mp hcompute
    obtain ⟨b, hb, hcompute⟩ := Option.bind_eq_some_iff.mp hcompute
    rw [Option.guard_eq_some'] at hm
    rw [toOption_eq_some] at hhash
    cases hcompute
    rcases hws with _ | ⟨hx, ⟨⟩⟩
    refine ⟨replaces_answer hon rfl rfl rfl rfl (denotes_bool b) fun hpop => ?_, rfl⟩
    rw [execPlain, hpop, ok_bind]
    simp only
    rw [orStop_eq_ok.mpr hchars, ok_bind, hhash, ok_bind]
    rcases hsim.answer hx hb with ⟨hu, rfl⟩ | ⟨p, fields, o, rfl, hlength, hr, rfl⟩
    · rw [btag, if_pos hu]
      rfl
    · obtain ⟨k, rfl⟩ := Int.eq_ofNat_of_zero_le hm.1
      have hbtag := btag_aggregate (s := s.drop 1) hsim.placed hr (tagHash_unboxed hhash)
        (show k < 2 ^ 30 by omega)
      rw [Obj.aggregate_isSexp _ _ hlength] at hbtag
      rw [BitVec.ofInt_natCast]
      exact (congrArg (· >>= vstackPush im (s.drop 1)) hbtag).trans rfl
  · -- ARRAY
    next m v =>
    obtain ⟨u, hm, hcompute⟩ := Option.bind_eq_some_iff.mp hcompute
    obtain ⟨b, hb, hcompute⟩ := Option.bind_eq_some_iff.mp hcompute
    rw [Option.guard_eq_some'] at hm
    cases hcompute
    rcases hws with _ | ⟨hx, ⟨⟩⟩
    refine ⟨replaces_answer hon rfl rfl rfl rfl (denotes_bool b) fun hpop => ?_, rfl⟩
    rw [execPlain, hpop, ok_bind]
    simp only
    rcases hsim.answer hx hb with ⟨hu, rfl⟩ | ⟨p, fields, o, rfl, hlength, hr, rfl⟩
    · rw [arrayPatt, if_pos hu]
      rfl
    · obtain ⟨k, rfl⟩ := Int.eq_ofNat_of_zero_le hm.1
      have harray := arrayPatt_aggregate (s := s.drop 1) hsim.placed hr (show k < 2 ^ 30 by omega)
      rw [Obj.aggregate_isArray _ hlength] at harray
      rw [BitVec.ofInt_natCast]
      exact (congrArg (· >>= vstackPush im (s.drop 1)) harray).trans rfl
  · -- PATT boxed
    cases hcompute
    rcases hws with _ | ⟨hx, ⟨⟩⟩
    refine ⟨replaces_answer hon rfl rfl rfl rfl (denotes_bool _) fun hpop => ?_, rfl⟩
    rw [execPlain, patt, hpop, ok_bind]
    simp only
    rw [boxedPatt, hx.unboxed_eq, Option.not_isSome]
  · -- PATT unboxed
    cases hcompute
    rcases hws with _ | ⟨hx, ⟨⟩⟩
    refine ⟨replaces_answer hon rfl rfl rfl rfl (denotes_bool _) fun hpop => ?_, rfl⟩
    rw [execPlain, patt, hpop, ok_bind]
    simp only
    rw [unboxedPatt, hx.unboxed_eq]
  · -- the other patterns
    next pattern v _ _ =>
    obtain ⟨type, htype, hcompute⟩ := Option.bind_eq_some_iff.mp hcompute
    obtain ⟨b, hb, hcompute⟩ := Option.bind_eq_some_iff.mp hcompute
    cases hcompute
    have hone : (Inst.patt pattern).needs = 1 ∧ (Inst.patt pattern).pops = 1 := by
      cases pattern <;> first | exact ⟨rfl, rfl⟩ | cases htype
    rw [hone.1] at hlen
    rcases hws with _ | ⟨hx, ⟨⟩⟩
    refine ⟨replaces_answer hon rfl rfl rfl hone.1 (denotes_bool b) fun hpop => ?_, ?_⟩
    · refine patt_type htype hpop ?_
      rcases hsim.answer hx hb with ⟨hu, rfl⟩ | ⟨p, fields, o, rfl, hlength, hr, rfl⟩
      · rw [tagPatt, if_pos hu]
        rfl
      · have htag := tagWord_content (s := s.drop 1) hsim.placed hr.object
        rw [show tagOf ((s.drop 1).mem.heap.words p) = (o.aggregate fields).type.tag from hr.tag,
          Obj.aggregate_type] at htag
        rw [tagPatt, unboxed_contentWord, if_neg Bool.false_ne_true]
        refine (congrArg (· >>= fun t => .ok (box (boolWord (t == type.tag)))) htag).trans ?_
        rw [ok_bind]
        congr 3
        rw [Bool.eq_iff_iff, beq_iff_eq, decide_eq_true_eq]
        exact LamaType.tag_inj
    · rw [hone.1, hone.2]
      rfl
  · -- LLENGTH
    obtain ⟨⟨id, o⟩, ho, hcompute⟩ := Option.bind_eq_some_iff.mp hcompute
    cases hcompute
    obtain ⟨rfl, hstore⟩ := object_eq_some.mp ho
    rcases hws with _ | ⟨hx, ⟨⟩⟩
    obtain ⟨p, fields, rfl, -, hfields, hr⟩ := hsim.heap.object hx hstore
    have hlen' := o.aggregate_len hfields.length_eq
    have hlt := hr.len_lt
    have hbox : Denotes s.mem.heap place _ _ := denotes_box (o.len : ℤ)
    rw [wrap31, Int.bmod_eq_of_le (by omega) (by omega), BitVec.ofInt_natCast] at hbox
    refine ⟨replaces_answer hon rfl rfl rfl rfl hbox fun hpop => ?_, rfl⟩
    rw [execPlain, hpop, ok_bind]
    simp only
    have hread := llength_aggregate (s := s.drop 1) hsim.placed hr
    rw [hlen'] at hread
    exact (congrArg (· >>= vstackPush im (s.drop 1)) hread).trans rfl
  · -- LREAD
    cases hcompute
    refine ⟨replaces_push hroom (by omega) rfl rfl rfl rfl (denotes_box _) ?_, rfl⟩
    rw [BitVec.ofInt_toInt]
    rfl
  · -- LINE
    cases hcompute
    exact ⟨⟨[], .nil, rfl⟩, rfl⟩
  · cases hcompute

end Lama

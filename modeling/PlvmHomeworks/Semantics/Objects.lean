import PlvmHomeworks.Semantics.Control

/-! Stores, output and new objects: what the interpreter writes into the heap is what the abstract machine
    has in its store, also when the collector has run in between. -/

namespace Lama
open Outcome Cells

variable {im : Image} {e : Env} {f : Bytefile} {s t : State} {os : List HeapObject}
  {place place' : Place} {vm vm' : Vm} {r : Routine} {rest : List Routine} {l : LocationEntry} {v : Val}
  {w : Word} {n : ℕ} {next : ℤ} {vs : List Val} {ws : List Word} {inst : Inst} {A : Aggregate}

section Running
variable (hsim : Simulates im os place vm s) (hrun : vm.routines = r :: rest)
include hsim hrun

/-! ### Stores -/

theorem Simulates.st (hcounted : l.Counted e) (hv : r.operands.head? = some v)
    (hassign : vm.assign next r rest l v = some vm') (hip : vm'.ip = some next) :
    Follows im e f s next (.st l) vm' := by
  obtain ⟨w, hon, hd⟩ := hsim.operand hrun hv
  obtain ⟨a, t, hloc, hstore, hafter⟩ := hsim.assign hrun hcounted hd hassign
  refine ⟨t, none, os, place, exec_plain_of rfl rfl rfl ?_, hip.symm, hafter⟩
  exact bind_eq_ok.mpr ⟨a, hloc, bind_eq_ok.mpr ⟨w, hon.vstackTop, hstore⟩⟩

theorem Simulates.sta {x : Val} {i : ℤ} {id : ℕ} {o : Obj} (htop : r.top 3 = some [x, .int i, v])
    (ho : vm.object x = some (id, o)) (hguard : 0 ≤ i ∧ i.toNat < o.fields.length ∧ o.type ≠ .closure) :
    Follows im e f s next .sta ((vm.setField id o i.toNat v).go next (r.replace 3 [v]) rest) := by
  obtain ⟨hpos, hlt, htype⟩ := hguard
  obtain ⟨i, rfl⟩ := Int.eq_ofNat_of_zero_le hpos
  rw [Int.toNat_natCast] at hlt
  rw [Int.toNat_natCast]
  obtain ⟨rfl, hstore⟩ := object_eq_some.mp ho
  have hst := hsim.stackHolds hrun
  have hlow := hst.low
  obtain ⟨ws, hon, hws, -⟩ := hst.operands hrun htop
  rcases hws with _ | ⟨hx, _ | ⟨hi, _ | ⟨hv, ⟨⟩⟩⟩⟩
  rename_i x y w
  obtain ⟨p, fields, rfl, hp, hfields, hr⟩ := hsim.heap.object hx hstore
  obtain ⟨rfl, -⟩ := hi
  rw [BitVec.ofInt_natCast] at hon
  have hlt' : i < (o.aggregate fields).fields.length := by rwa [Obj.aggregate_fields, ← hfields.length_eq]
  obtain ⟨hpop, hon₁⟩ := hon.pop [_, _]
  obtain ⟨hpop₁, hon₂⟩ := hon₁.pop [_]
  obtain ⟨hpop₂, -⟩ := hon₂.pop []
  have hsta := bsta_aggregate (s := ((s.drop 1).drop 1).drop 1) hsim.placed hr w hlt'
    (by rwa [Obj.aggregate_type])
  refine ⟨_, none, os, place, exec_plain_of rfl rfl rfl (bind_eq_ok.mpr ⟨_, hpop, bind_eq_ok.mpr ⟨_, hpop₁,
    bind_eq_ok.mpr ⟨_, hpop₂, bind_eq_ok.mpr ⟨_, hsta, hon.push_of rfl (List.cons_ne_nil _ _) _⟩⟩⟩⟩),
    rfl, ?_⟩
  have hset : Simulates im os place (vm.setField id o i v)
      (s.withHeap (s.mem.heap.setWord (p + headerSize + ((o.aggregate fields).first + i)) w)) :=
    hsim.setField hp hfields hr hlt hv rfl rfl rfl rfl
  have hn : 3 ≤ r.operands.length := (Routine.top_eq_some.mp htop).1
  refine hset.results (n := 3) hrun hn (.cons (hv.congr rfl) .nil) ?_ rfl rfl rfl rfl
  rw [State.withHeap_top, List.length_singleton]
  omega

/-! ### Output -/

theorem Simulates.lwrite {k : ℤ} (hv : r.operands.head? = some (.int k)) :
    Follows im e f s next .lwrite
      (({ vm with out := vm.out ++ [k] } : Vm).go next (r.replace 1 [.null]) rest) := by
  obtain ⟨w, hon, hd⟩ := hsim.operand hrun hv
  have hlow := hon.low
  have hn : 1 ≤ r.operands.length := (Routine.top_eq_some.mp (Routine.top_one hv)).1
  have hprinted : Simulates im os place { vm with out := vm.out ++ [k] }
      { s with out := s.out ++ [(unbox w).toInt] } :=
    ⟨hsim.globalsCount, by rw [hsim.out, (denotes_int.mp hd).2], hsim.heap, hsim.placed,
      fun hne => ⟨(hsim.stack hne).records, (hsim.stack hne).low, (hsim.stack hne).high,
        (hsim.stack hne).words⟩, hsim.customData, hsim.bottom⟩
  have hnull : List.Forall₂ (Denotes s.mem.heap place) [.null] [0] := .cons rfl .nil
  refine ⟨_, none, os, place, exec_plain_of rfl rfl rfl (bind_eq_ok.mpr ⟨_, (hon.pop []).1, ?_⟩), rfl,
    hprinted.results (n := 1) hrun hn hnull (by simpa using hlow) rfl rfl rfl rfl⟩
  exact hon.push_of rfl (List.cons_ne_nil _ _) _

end Running

/-! ### The block of a new object -/

theorem exists_bind {ε α β : Type} {x : Except ε α} {a : α} {k : α → Except ε β} (hx : x = .ok a)
    (h : ∃ b, k a = .ok b) : ∃ b, (x >>= k) = .ok b := by
  obtain ⟨b, hb⟩ := h
  exact ⟨b, bind_eq_ok.mpr ⟨a, hx, hb⟩⟩

theorem storeHeap_of {k : ℕ} (hk : s.mem.heap.begin + k < s.mem.heap.end_) :
    storeHeap s (s.mem.heap.begin + k) w = .ok (s.withHeap (s.mem.heap.setWord k w)) := by
  rw [storeHeap, store_add hk]
  rfl

/-- There are operands for all the words, and the words are there. -/
theorem exists_popInto {b o lo : ℕ} : ∀ {n : ℕ} {s : State}, s.mem.heap.begin = b → im.vstack ≤ s.top →
    s.top + n < im.bottom → b + (o + lo + n) ≤ s.mem.heap.end_ → ∃ t, popInto im (b + o) lo n s = .ok t
  | 0, s, _, _, _, _ => ⟨s, rfl⟩
  | n + 1, s, hb, hlow, hhigh, hroom => by
    subst hb
    have hstore : storeHeap (s.drop 1) (s.mem.heap.begin + (o + lo + n)) (s.mem.ram (s.top + 1)) =
        .ok ((s.drop 1).withHeap (s.mem.heap.setWord (o + lo + n) (s.mem.ram (s.top + 1)))) :=
      storeHeap_of (s := s.drop 1) (by rw [State.drop_mem]; omega)
    obtain ⟨t, ht⟩ := exists_popInto (b := s.mem.heap.begin) (o := o) (n := n)
      (s := (s.drop 1).withHeap (s.mem.heap.setWord (o + lo + n) (s.mem.ram (s.top + 1)))) rfl
      (by rw [State.withHeap_top, State.drop_top]; omega)
      (by rw [State.withHeap_top, State.drop_top]; omega)
      (show s.mem.heap.begin + (o + lo + n) ≤ s.mem.heap.end_ by omega)
    refine ⟨t, bind_eq_ok.mpr ⟨_, vstackPop_of (by omega) (by omega), ?_⟩⟩
    refine bind_eq_ok.mpr ⟨_, ?_, ht⟩
    rw [show s.mem.heap.begin + o + lo + n = s.mem.heap.begin + (o + lo + n) by omega]
    exact hstore

theorem popInto_of {b o : ℕ} (lo : ℕ) (hb : s.mem.heap.begin = b) (hlow : im.vstack ≤ s.top)
    (hhigh : s.top + n < im.bottom) (hroom : b + (o + lo + n) ≤ s.mem.heap.end_) :
    popInto im (b + o) lo n s =
      .ok ((s.drop n).withHeap (s.mem.heap.setWords (o + lo) (s.operands n))) := by
  obtain ⟨t, ht⟩ := exists_popInto hb hlow hhigh hroom
  have hbottom := im.bottom_lt
  rw [ht, popInto_exact hb (by omega) ht]

theorem allocObject_of {m : Memory} {o : ℕ}
    (halloc : alloc (t.roots im []) e.mremap (8 + 4 * A.contents.length) t.mem =
      some (some (m.heap.begin + o), m))
    (hroom : m.heap.begin + o + headerSize + A.contents.length ≤ m.heap.end_) :
    allocObject im e (A.request t) = .ok (m.heap.begin + o,
      (t.withMem m).withHeap ((m.heap.setWord o A.header).setWord (o + 1) 0)) := by
  unfold headerSize at hroom
  have hheader := storeHeap_of (s := t.withMem m) (k := o) (w := A.header)
    (by rw [State.withMem_mem]; omega)
  have hmark := storeHeap_of (s := (t.withMem m).withHeap (m.heap.setWord o A.header)) (k := o + 1)
    (w := 0) (show m.heap.begin + (o + 1) < m.heap.end_ by omega)
  exact bind_eq_ok.mpr ⟨_, orStop_eq_ok.mpr halloc, bind_eq_ok.mpr ⟨_, orStop_eq_ok.mpr rfl,
    bind_eq_ok.mpr ⟨_, hheader, bind_eq_ok.mpr ⟨_, hmark, rfl⟩⟩⟩⟩

/-- The components are on top, the block is there, and there is a slot for the address. -/
theorem Builds.exists_after (h : Builds im e f s inst A) {o : ℕ} (hlow : im.vstack ≤ t.top)
    (hhigh : t.top + A.fields.length < im.bottom) (hpush : im.vstack < t.top + A.fields.length)
    (hroom : t.mem.heap.begin + (o + headerSize + A.contents.length) ≤ t.mem.heap.end_) :
    ∃ s', afterAlloc im e f (t.mem.heap.begin + o) t inst = .ok s' := by
  cases h with
  | @sexp pos chars hash fields hchars hhash _ =>
    simp only [Aggregate.fields, Aggregate.contents, List.length_cons] at hhigh hpush hroom
    have hzero := storeHeap_of (s := t) (k := o + headerSize) (w := 0) (by omega)
    have hpop := popInto_of 1 (n := fields.length) (o := o + headerSize)
      (s := t.withHeap (t.mem.heap.setWord (o + headerSize) 0)) rfl hlow hhigh
      (show t.mem.heap.begin + (o + headerSize + 1 + fields.length) ≤ t.mem.heap.end_ by omega)
    have htag := storeHeap_of (s := ((t.withHeap (t.mem.heap.setWord (o + headerSize) 0)).drop
        fields.length).withHeap ((t.mem.heap.setWord (o + headerSize) 0).setWords (o + headerSize + 1)
          (t.operands fields.length))) (k := o + headerSize) (w := unbox hash)
      (show t.mem.heap.begin + (o + headerSize) < t.mem.heap.end_ by omega)
    rw [afterAlloc, Nat.add_assoc]
    exact exists_bind (orStop_eq_ok.mpr hchars) (exists_bind hhash (exists_bind hzero (exists_bind hpop
      (exists_bind htag ⟨_, vstackPush_of hpush hhigh⟩))))
  | @barray fields _ =>
    simp only [Aggregate.fields, Aggregate.contents] at hhigh hpush hroom
    have hpop := popInto_of 0 (n := fields.length) (o := o + headerSize) (s := t) rfl
      hlow hhigh (by omega)
    rw [← Nat.add_assoc] at hpop
    rw [afterAlloc, Int.toNat_natCast]
    exact exists_bind hpop ⟨_, vstackPush_of hpush hhigh⟩
  | @closure entry ls fields _ hcap =>
    simp only [Aggregate.fields, Aggregate.contents, List.length_cons] at hhigh hpush hroom
    have hentry := storeHeap_of (s := t) (k := o + headerSize) (w := BitVec.ofInt 32 entry) (by omega)
    have hpop := popInto_of 1 (n := fields.length) (o := o + headerSize)
      (s := t.withHeap (t.mem.heap.setWord (o + headerSize) (BitVec.ofInt 32 entry))) rfl hlow hhigh
      (show t.mem.heap.begin + (o + headerSize + 1 + fields.length) ≤ t.mem.heap.end_ by omega)
    rw [afterAlloc, Nat.add_assoc, hcap.values.length_eq]
    exact exists_bind hentry (exists_bind hpop ⟨_, vstackPush_of hpush hhigh⟩)

/-- What one of these instructions does when `alloc` answers. -/
theorem Builds.exec_of (h : Builds im e f s inst A) {m : Memory} {o : ℕ}
    (hreq : allocRequest im e f s inst = .ok (some (A.request t))) (hready : Ready im inst s A t)
    (halloc : alloc (t.roots im []) e.mremap (8 + 4 * A.contents.length) t.mem =
      some (some (m.heap.begin + o), m))
    (hroom : m.heap.begin + o + headerSize + A.contents.length ≤ m.heap.end_)
    (hpush : im.vstack < t.top + A.fields.length) :
    exec im e f s inst = .ok ((((t.withMem m).drop A.fields.length).withHeap (m.heap.setWords o
      (A.withFields ((t.withMem m).operands A.fields.length)).block)).push (contentWord m.heap o), none) := by
  have hlow := hready.onTop.low
  have hhigh := hready.onTop.high
  have hb := im.bottom_lt
  set u := (t.withMem m).withHeap ((m.heap.setWord o A.header).setWord (o + 1) 0) with hu
  obtain ⟨s', hafter⟩ := h.exists_after (t := u) (o := o) hlow hhigh hpush
    (show m.heap.begin + (o + headerSize + A.contents.length) ≤ m.heap.end_ by omega)
  have hexact := h.after (by exact rfl) (by exact Nat.lt_trans hhigh hb) hafter
  have hlen : (A.withFields (u.operands A.fields.length)).len = A.len :=
    A.withFields_len _ (State.operands_length _ _)
  have hheader : (A.withFields (u.operands A.fields.length)).header = A.header := by
    rw [Aggregate.header, hlen, Aggregate.withFields_type]
    rfl
  rw [exec_allocates h.allocates, hreq, ok_bind]
  refine bind_eq_ok.mpr ⟨_, allocObject_of halloc hroom, bind_eq_ok.mpr ⟨s', hafter, ?_⟩⟩
  rw [hexact]
  refine congrArg (fun g => Except.ok ((State.push (State.withHeap _ g) _, none))) ?_
  rw [Aggregate.block, show (t.withMem m).operands A.fields.length = u.operands A.fields.length from rfl,
    hheader, ← setWords_cons, ← setWords_cons]
  rfl

/-! ### Requests of the abstract machine -/

/-- The collector can follow every word of the stack. -/
theorem Simulates.validRoots (hsim : Simulates im os place vm s) (hrun : vm.routines = r :: rest) :
    ValidRoots s.mem (os.map HeapObject.offset) (s.roots im []) := by
  have hst := hsim.stackHolds hrun
  obtain ⟨⟨free, hr⟩, hstore⟩ := hsim.heap
  refine ⟨fun a ha => ?_, nofun, List.nodup_nil, ?_, fun a ha => ?_⟩
  · have hhigh := hst.high
    obtain ⟨hlo, hhi⟩ := mem_region.mp ha
    change s.top + 1 ≤ a at hlo
    change a < im.bottom at hhi
    have hlt : a - (s.top + 1) < vm.slots.length := by omega
    have hslot := hst.words.get (List.getElem?_eq_getElem hlt)
    rw [show s.top + 1 + (a - (s.top + 1)) = a by omega] at hslot
    exact hslot.valid hstore hr.pos
  · rw [show (s.roots im []).stackBottom = im.bottom from rfl, hsim.bottom]
    exact not_valid_zero hr.pos
  · rw [hsim.customData a ha]
    exact not_valid_zero hr.pos

/-- The operands on top become the components of a new object. -/
theorem Simulates.build (hsim : Simulates im os place vm t) (hrun : vm.routines = r :: rest) (next : ℤ)
    (htop : r.top n = some vs) (kind : Kind) (hproper : (Obj.aggregate ⟨kind, vs⟩ ws).Proper)
    (hlen : ws.length = n) (hpush : im.vstack < t.top + n)
    (hg : Granted im t.mem.heap e.mremap
      (bytesToWords (8 + 4 * (Obj.aggregate ⟨kind, vs⟩ ws).contents.length))) :
    ∃ m o os' place', alloc (t.roots im []) e.mremap
        (8 + 4 * (Obj.aggregate ⟨kind, vs⟩ ws).contents.length) t.mem =
          some (some (m.heap.begin + o), m) ∧
      m.heap.begin + o + headerSize + (Obj.aggregate ⟨kind, vs⟩ ws).contents.length ≤ m.heap.end_ ∧
      Simulates im os' place' (vm.build next r n rest ⟨kind, vs⟩)
        ((((t.withMem m).drop n).withHeap (m.heap.setWords o
          (Obj.aggregate ⟨kind, vs⟩ ((t.withMem m).operands n)).block)).push (contentWord m.heap o)) := by
  have hst := hsim.stackHolds hrun
  obtain ⟨q, m, os', place', halloc, hplaced, hreserved, hstore, hkept⟩ :=
    hsim.heap.request rfl hsim.placed (hsim.validRoots hrun) rfl hg
  -- the stack in the memory that `alloc` answers with
  have hwords : Laid (SlotHolds m.heap place') m.ram (t.top + 1) vm.slots :=
    hst.words.imp fun i slot hi hslot => by
      have hlt := (List.getElem?_eq_some_iff.mp hi).1
      have hhigh := hst.high
      refine hkept.slots _ (List.mem_append_left _ (mem_region.mpr ⟨Nat.le_add_right _ _, ?_⟩)) slot hslot
      show t.top + 1 + i < im.bottom
      omega
  have hst' : StackHolds im place' vm (t.withMem m) := ⟨hst.records, hst.low, hst.high, hwords⟩
  obtain ⟨ws', hon, hws, hlen'⟩ := hst'.operands hrun htop
  have hops : (t.withMem m).operands n = ws' := by rw [← hlen', hon.words]
  have hlow : im.vstack ≤ t.top := hon.low
  have hhigh : t.top + ws'.length < im.bottom := hon.high
  have hlt := hon.length_lt
  have hsize : vstackSize = 65536 := rfl
  have hcontents : (Obj.aggregate ⟨kind, vs⟩ ws').contents.length =
      (Obj.aggregate ⟨kind, vs⟩ ws).contents.length := by
    rw [Aggregate.contents_length, Aggregate.contents_length, Obj.aggregate_fields, Obj.aggregate_fields,
      hlen, hlen', ← Obj.aggregate_withFields _ ws ws', Aggregate.withFields_first]
  have hproper' : (Obj.aggregate ⟨kind, vs⟩ ws').Proper := by
    rw [← Obj.aggregate_withFields _ ws ws']
    exact (Aggregate.withFields_proper _ _).mpr hproper
  have hsmall : (Obj.aggregate ⟨kind, vs⟩ ws').len < 2 ^ 28 := by
    have := (Obj.aggregate ⟨kind, vs⟩ ws').len_le
    rw [Obj.aggregate_fields] at this
    omega
  have hbytes : bytesToWords (8 + 4 * (Obj.aggregate ⟨kind, vs⟩ ws').contents.length) =
      2 + (Obj.aggregate ⟨kind, vs⟩ ws').contents.length := by
    have := (Obj.aggregate ⟨kind, vs⟩ ws').contents_le
    rw [bytesToWords_eq (by omega) (by omega)]
    omega
  rw [← hcontents] at hreserved halloc ⊢
  obtain ⟨os'', place'', hheap, hnew, hext⟩ : ∃ os'' place'', HeapHolds
      (m.heap.setWords q (Obj.aggregate ⟨kind, vs⟩ ws').block) os'' place'' (vm.store ++ [⟨kind, vs⟩]) ∧
      place'' vm.store.length = some q ∧ ∀ id p, place' id = some p → place'' id = some p :=
    ⟨_, _, HeapHolds.build ⟨kind, vs⟩ hsmall hproper' hreserved hstore hws, Function.update_self ..,
      hstore.extend⟩
  refine ⟨m, q, os'', place'', halloc, ?_, ?_⟩
  · have hcur := hreserved.current
    have := hreserved.room
    rw [hbytes] at hcur
    unfold headerSize
    omega
  rw [hops]
  have hn : n ≤ r.operands.length := (Routine.top_eq_some.mp htop).1
  have houtside : ∀ a, ¬ im.inStack a → a ≠ t.top + n := fun a ha heq => by
    subst heq
    exact ha (inStack_iff.mpr ⟨by omega, by omega⟩)
  refine ⟨hsim.globalsCount, hsim.out, hheap, ⟨hplaced.apart, hplaced.fits⟩, fun _ => ?_, fun a ha => ?_, ?_⟩
  · refine hst'.replace hrun hn rfl rfl ⟨rfl, rfl, rfl⟩ ?_ ?_ ?_ ?_
    · show t.top + n - 1 + 1 = t.top + n
      omega
    · show im.vstack ≤ t.top + n - 1
      omega
    · refine ⟨⟨q, hnew, ?_⟩, trivial⟩
      exact if_pos (show t.top + n - 1 + 1 = t.top + n by omega)
    · have hle : n ≤ vm.slots.length := by
        rw [Vm.slots_of hrun, List.length_append, r.length_slots]
        omega
      refine (hwords.drop hle).imp fun i slot _ hslot => ?_
      show SlotHolds (m.heap.setWords q _) place'' slot
        (if t.top + 1 + n + i = t.top + n then contentWord m.heap q else m.ram (t.top + 1 + n + i))
      rw [if_neg (by omega)]
      exact hslot.imp fun v hd => (hd.congr rfl).mono hext
  · have hslot : SlotHolds m.heap place' (some .null) (m.ram a) :=
      hkept.slots a (List.mem_append_right _ ha) (some .null) (hsim.customData a ha)
    refine Eq.trans (if_neg (houtside a (customData_outside ha).1)) ?_
    exact hslot
  · refine (if_neg (houtside _ bottom_outside)).trans ?_
    show m.ram im.bottom = 0
    refine (hkept.others _ fun hmem => ?_).trans hsim.bottom
    rcases List.mem_append.mp hmem with h | h
    · exact Nat.lt_irrefl _ (mem_region.mp h).2
    · exact (customData_outside h).2 rfl

/-! ### The instructions that build an object -/

/-- The heap words that an instruction asks for. -/
def Inst.words : Inst → ℕ
  | .sexp _ k => k.toNat + 3
  | .barray k => k.toNat + 2
  | .closure _ ls => ls.length + 3
  | _ => 0

/-- The components are on top in the state `t` that the request is made in. -/
theorem Simulates.builds {kind : Kind} (hsim : Simulates im os place vm t) (hrun : vm.routines = r :: rest)
    (htop : r.top n = some vs) (hb : Builds im e f s inst (Obj.aggregate ⟨kind, vs⟩ ws))
    (hreq : allocRequest im e f s inst = .ok (some ((Obj.aggregate ⟨kind, vs⟩ ws).request t)))
    (hready : Ready im inst s (Obj.aggregate ⟨kind, vs⟩ ws) t) (hlen : ws.length = n)
    (hpush : im.vstack < t.top + n)
    (hg : Granted im t.mem.heap e.mremap (2 + (Obj.aggregate ⟨kind, vs⟩ ws).contents.length)) :
    Follows im e f s next inst (vm.build next r n rest ⟨kind, vs⟩) := by
  have hlt := hready.onTop.length_lt
  have hsize : vstackSize = 65536 := rfl
  have hbytes : bytesToWords (8 + 4 * (Obj.aggregate ⟨kind, vs⟩ ws).contents.length) =
      2 + (Obj.aggregate ⟨kind, vs⟩ ws).contents.length := by
    have hle := (Obj.aggregate ⟨kind, vs⟩ ws).contents_le
    have hle' := (Obj.aggregate ⟨kind, vs⟩ ws).len_le
    rw [bytesToWords_eq (by omega) (by omega)]
    omega
  obtain ⟨m, o, os', place', halloc, hroom, hafter⟩ :=
    hsim.build hrun next htop kind hb.proper hlen hpush (by rw [hbytes]; exact hg)
  have hexec := hb.exec_of hreq hready halloc hroom (by rwa [Obj.aggregate_fields, hlen])
  rw [Obj.aggregate_fields, hlen, Obj.aggregate_withFields] at hexec
  exact ⟨_, none, os', place', hexec, rfl, hafter⟩

section Running
variable (hsim : Simulates im os place vm s) (hrun : vm.routines = r :: rest)
include hsim hrun

theorem Simulates.sexp {pos k : ℤ} {chars : List UInt8} {hash : Word} (hk : 0 ≤ k)
    (hchars : cString f pos = some chars) (hhash : tagHash chars = .ok hash)
    (htop : r.top k.toNat = some vs) (hroom : im.vstack < s.top + k.toNat)
    (hg : Granted im s.mem.heap e.mremap (Inst.sexp pos k).words) :
    Follows im e f s next (.sexp pos k) (vm.build next r k.toNat rest ⟨.sexp hash, vs⟩) := by
  obtain ⟨n, rfl⟩ := Int.eq_ofNat_of_zero_le hk
  rw [Inst.words, Int.toNat_natCast] at hg
  rw [Int.toNat_natCast] at htop hroom
  rw [Int.toNat_natCast]
  obtain ⟨ws, hon, hws, rfl⟩ := (hsim.stackHolds hrun).operands hrun htop
  have hb : Builds im e f s (.sexp pos ws.length) (Obj.aggregate ⟨.sexp hash, vs⟩ ws) :=
    .sexp hchars hhash hon
  have hreq : allocRequest im e f s (.sexp pos ws.length) = .ok (some (allocSexp s ws.length)) :=
    bind_eq_ok.mpr ⟨_, orStop_eq_ok.mpr hchars, bind_eq_ok.mpr ⟨_, hhash, rfl⟩⟩
  obtain ⟨t, ht, hready⟩ := hb.request hreq
  obtain rfl : s = t := congrArg AllocRequest.state (Option.some.inj ht)
  rw [ht] at hreq
  refine hsim.builds hrun htop hb hreq hready rfl hroom ?_
  rw [show 2 + (Obj.aggregate ⟨.sexp hash, vs⟩ ws).contents.length = ws.length + 3 from
    Nat.add_comm 2 (ws.length + 1)]
  exact hg

theorem Simulates.barray {k : ℤ} (hk : 0 ≤ k) (htop : r.top k.toNat = some vs)
    (hroom : im.vstack < s.top + k.toNat) (hg : Granted im s.mem.heap e.mremap (Inst.barray k).words) :
    Follows im e f s next (.barray k) (vm.build next r k.toNat rest ⟨.array, vs⟩) := by
  obtain ⟨n, rfl⟩ := Int.eq_ofNat_of_zero_le hk
  rw [Inst.words, Int.toNat_natCast] at hg
  rw [Int.toNat_natCast] at htop hroom
  rw [Int.toNat_natCast]
  obtain ⟨ws, hon, hws, rfl⟩ := (hsim.stackHolds hrun).operands hrun htop
  have hb : Builds im e f s (.barray ws.length) (Obj.aggregate ⟨.array, vs⟩ ws) := .barray hon
  have hreq : allocRequest im e f s (.barray ws.length) = .ok (some (allocArray s ws.length)) := rfl
  obtain ⟨t, ht, hready⟩ := hb.request hreq
  obtain rfl : s = t := congrArg AllocRequest.state (Option.some.inj ht)
  rw [ht] at hreq
  refine hsim.builds hrun htop hb hreq hready rfl hroom ?_
  rw [show 2 + (Obj.aggregate ⟨.array, vs⟩ ws).contents.length = ws.length + 2 from Nat.add_comm 2 ws.length]
  exact hg

/-- The values that `CLOSURE` captures. -/
theorem Simulates.captures {ls : List LocationEntry} (hcounted : ∀ l ∈ ls, l.Counted e)
    (hload : ls.mapM (vm.load r) = some vs) :
    ∃ ws, List.Forall₂ (HasValue im e s) ls ws ∧ List.Forall₂ (Denotes s.mem.heap place) vs ws := by
  induction ls generalizing vs with
  | nil =>
    cases hload
    exact ⟨[], .nil, .nil⟩
  | cons l ls ih =>
    rw [List.mapM_cons] at hload
    obtain ⟨v, hv, hload⟩ := Option.bind_eq_some_iff.mp hload
    obtain ⟨vs', hvs, hload⟩ := Option.bind_eq_some_iff.mp hload
    cases hload
    obtain ⟨w, hw, hd⟩ := hsim.load hrun (hcounted l (List.mem_cons_self ..)) hv
    obtain ⟨ws, hws, hds⟩ := ih (fun l' hl' => hcounted l' (List.mem_cons_of_mem _ hl')) hvs
    exact ⟨w :: ws, .cons hw hws, .cons hd hds⟩

/-- The slot of the closure is not among the operands. -/
theorem Simulates.running (hclosure : s.frame.isClosure = true) :
    s.top < ptrAdd s.frame.base (s.frame.argsCount + 1) := by
  have hst := hsim.stackHolds hrun
  have hlen := hst.length_le hrun
  have hb := im.bottom_lt
  have hrecord := hst.record hrun
  have hbase := hrecord.base
  have hcount := hrecord.argsCount
  rw [r.length_slots, ← hrecord.isClosure, hclosure, Bool.toNat_true] at hlen
  have := ptrAdd_eq (p := s.frame.base) (n := (s.frame.argsCount + 1 : ℤ)) (by omega) (by omega)
  omega

end Running

/-- There is room for the values that are captured. -/
theorem pushLocations_of {s₀ : State}
    (hclosure : s₀.frame.isClosure = true → s₀.top < ptrAdd s₀.frame.base (s₀.frame.argsCount + 1))
    (hhigh : s₀.top < im.bottom)
    {ls : List LocationEntry} {ws : List Word} (hls : List.Forall₂ (HasValue im e s₀) ls ws) {s : State}
    (hc : SameControl s₀ s) (hslots : SameSlots im s₀.top s₀ s) (hheap : s.mem.heap = s₀.mem.heap)
    (hle : s.top ≤ s₀.top) (hroom : im.vstack + ls.length ≤ s.top) :
    pushLocations im e s ls = .ok (s.pushAll ws) := by
  induction hls generalizing s with
  | nil => rfl
  | @cons l w ls ws hl _ ih =>
    obtain ⟨a, hloc, hload, habove⟩ := hl
    rw [List.length_cons] at hroom
    have hsame : loadWord im s a = loadWord im s₀ a := by
      rw [loadWord, loadWord, hheap]
      by_cases hin : im.inStack a
      · rw [if_pos hin, if_pos hin, hslots a (habove hin) hin]
      · rw [if_neg hin, if_neg hin]
    refine bind_eq_ok.mpr ⟨a, by rw [loc_congr hc hslots hclosure, hloc], bind_eq_ok.mpr ⟨w, by
      rw [hsame, hload], bind_eq_ok.mpr ⟨_, vstackPush_of (by omega) (by omega), ?_⟩⟩⟩
    exact ih (hc.trans sameControl_push) (hslots.trans (sameSlots_push hle)) hheap
      (by rw [State.push_top]; omega) (by rw [State.push_top]; omega)

theorem Routine.top_replace (vs : List Val) : (r.replace 0 vs).top vs.length = some vs := by
  have hlen : vs.reverse.length = vs.length := List.length_reverse
  rw [Routine.top_eq_some, Routine.replace_operands, List.take_left' hlen, List.length_append]
  exact ⟨by omega, List.reverse_reverse vs⟩

theorem Routine.replace_replace (vs vs' : List Val) :
    (r.replace 0 vs).replace vs.length vs' = r.replace 0 vs' := by
  have hlen : vs.reverse.length = vs.length := List.length_reverse
  simp only [Routine.replace, List.drop_zero, List.drop_left' hlen]

theorem Simulates.closure (hsim : Simulates im os place vm s) (hrun : vm.routines = r :: rest) {entry : ℤ}
    {ls : List LocationEntry} (hentry : IsInt entry) (hcounted : ∀ l ∈ ls, l.Counted e)
    (hload : ls.mapM (vm.load r) = some vs) (hroom : im.vstack + max ls.length 1 ≤ s.top)
    (hg : Granted im s.mem.heap e.mremap (Inst.closure entry ls).words) :
    Follows im e f s next (.closure entry ls) (vm.build next r 0 rest ⟨.closure entry, vs⟩) := by
  have hst := hsim.stackHolds hrun
  have hlen := hst.length_le hrun
  obtain ⟨ws, hws, hds⟩ := hsim.captures hrun hcounted hload
  have hlength := hws.length_eq
  have hlength' := hds.length_eq
  have hcap : Captures im e s ls ws :=
    ⟨⟨hst.low, by rw [List.length_nil]; omega, rfl⟩, hsim.running hrun, hws⟩
  have hb : Builds im e f s (.closure entry ls) (Obj.aggregate ⟨.closure entry, vs⟩ ws) :=
    .closure hentry hcap
  have hpushed := pushLocations_of (hsim.running hrun) (by omega) hws (.refl s) (fun _ _ _ => rfl) rfl
    (Nat.le_refl _) (by omega)
  have hreq : allocRequest im e f s (.closure entry ls) =
      .ok (some (allocClosure (s.pushAll ws) (ls.length + 1))) := bind_eq_ok.mpr ⟨_, hpushed, rfl⟩
  obtain ⟨t, ht, hready⟩ := hb.request hreq
  obtain rfl : s.pushAll ws = t := congrArg AllocRequest.state (Option.some.inj ht)
  rw [ht] at hreq
  -- the machine with the captured values among its operands
  have hmid : Simulates im os place (vm.go next (r.replace 0 vs) rest) (s.pushAll ws) :=
    hsim.results (n := 0) hrun (Nat.zero_le _) hds (by omega) rfl rfl rfl rfl
  have htop := State.pushAll_top s ws
  have hbuilt : Follows im e f s next (.closure entry ls) _ :=
    hmid.builds rfl (Routine.top_replace vs) hb hreq hready hlength'.symm (by omega) ?_
  · rwa [Vm.build, Routine.replace_replace] at hbuilt
  · rw [(State.pushAll_same s ws).2.1, show 2 + (Obj.aggregate ⟨.closure entry, vs⟩ ws).contents.length =
      ls.length + 3 by rw [hlength]; exact Nat.add_comm 2 (ws.length + 1)]
    exact hg

end Lama

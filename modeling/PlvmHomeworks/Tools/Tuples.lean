import PlvmHomeworks.Tools.Construction

/-! `SEXP`, `BARRAY` and `CLOSURE` make tuples of their operands, whatever the collector does in
    between, and the instructions that take a tuple apart find its components.

    Captured values are the exception: `loc` compares their index with `closure_size`, which nothing
    sets. -/

namespace Lama
open Outcome Runs

variable {im : Image} {e : Env} {f : Bytefile} {s : State} {v w x : Word}

theorem exec_plain_of {inst : Inst} {t : State} (hi : inst.isPlain = true) (ha : inst.allocates = false)
    (hj : inst.jumpTargets = []) (h : execPlain im e f s inst = .ok t) :
    exec im e f s inst = .ok (t, none) := by
  rw [exec_eq_execPlain (Or.inl hi) ha hj, h]
  rfl

/-! ### What an aggregate does -/

/-- In the heap `h`, the instructions read the word `x` as the tuple `A`. -/
structure ReadsAs (im : Image) (e : Env) (f : Bytefile) (h : MemoryChunk) (x : Word) (A : Aggregate) :
    Prop where
  length : ∀ s : State, s.mem.heap = h → OnTop im s [x] → exec im e f s .llength =
    .ok ((s.drop 1).push (box (BitVec.ofNat 32 A.fields.length)), none)
  elem : ∀ (s : State) (i : ℕ) (w : Word), s.mem.heap = h →
    OnTop im s [x, box (BitVec.ofNat 32 i)] → A.fields[i]? = some w →
    exec im e f s .elem = .ok ((s.drop 2).push w, none)
  tag : ∀ (s : State) (pos : ℤ) (chars : List UInt8) (hash : Word) (m : ℕ), s.mem.heap = h →
    OnTop im s [x] → cString f pos = some chars → tagHash chars = .ok hash → m < 2 ^ 30 →
    exec im e f s (.tag pos m) = .ok ((s.drop 1).push (box (boolWord (A.isSexp hash m))), none)
  array : ∀ (s : State) (m : ℕ), s.mem.heap = h → OnTop im s [x] → m < 2 ^ 30 →
    exec im e f s (.array m) = .ok ((s.drop 1).push (box (boolWord (A.isArray m))), none)

/-- Moreover `STA` changes one component, and nothing else. -/
structure ActsAsTuple (im : Image) (e : Env) (f : Bytefile) (h : MemoryChunk) (x : Word)
    (A : Aggregate) : Prop extends ReadsAs im e f h x A where
  sta : ∀ (s : State) (i : ℕ) (v : Word), s.mem.heap = h →
    OnTop im s [x, box (BitVec.ofNat 32 i), v] → i < A.fields.length →
    ∃ k, exec im e f s .sta = .ok (((s.drop 3).withHeap (h.setWord k v)).push v, none) ∧
      ReadsAs im e f (h.setWord k v) x (A.set i v)

/-- In the heap `h`, `CALLC` enters the closure `x` at `entry`, and `LD` finds what it captured. -/
structure ActsAsClosure (im : Image) (e : Env) (f : Bytefile) (h : MemoryChunk) (x : Word) (entry : ℤ)
    (fields : List Word) : Prop where
  callc : ∀ (s : State) (returnIp : ℤ) (args : List Word), s.mem.heap = h → OnTop im s (x :: args) →
    0 < s.ctop → exec im e f s (.callc returnIp args.length) =
        .ok (s.called returnIp args.length true, some (some entry)) ∧
      RunsClosure im (s.called returnIp args.length true) x
  ld : ∀ (s : State) (i : ℕ) (w : Word), s.mem.heap = h → RunsClosure im s x →
    im.vstack < s.top → s.top < im.bottom → fields[i]? = some w →
    exec im e f s (.ld ⟨3, i⟩) = .ok (s.push w, none)

/-- In the heap `h`, the word `x` behaves as the aggregate. -/
def ActsAs (im : Image) (e : Env) (f : Bytefile) (h : MemoryChunk) (x : Word) : Aggregate → Prop
  | .closure entry fields => ActsAsClosure im e f h x entry fields
  | A => ActsAsTuple im e f h x A

section Behaviour
variable {A : Aggregate} {h : MemoryChunk} {p : ℕ} (hh : HeapPlaced im h) (hr : Represents h p A)
include hh hr

theorem Represents.readsAs (hne : A.type ≠ .closure) : ReadsAs im e f h (contentWord h p) A where
  length := by
    rintro s rfl htop
    obtain ⟨hpop, -⟩ := htop.pop []
    have hlen : A.len = A.fields.length := by
      cases A with
      | closure => exact absurd rfl hne
      | _ => rfl
    have hlength := llength_aggregate (s := s.drop 1) hh hr
    rw [hlen] at hlength
    refine exec_plain_of rfl rfl rfl (bind_eq_ok.mpr ⟨_, hpop, bind_eq_ok.mpr ⟨_, hlength, ?_⟩⟩)
    exact htop.push_of rfl (List.cons_ne_nil _ _) _
  elem := by
    rintro s i w rfl htop hi
    obtain ⟨hpop, htop'⟩ := htop.pop [_]
    obtain ⟨hpop', -⟩ := htop'.pop []
    have helem := belem_aggregate (s := (s.drop 1).drop 1) hh hr hi hne
    refine exec_plain_of rfl rfl rfl (bind_eq_ok.mpr ⟨_, hpop, bind_eq_ok.mpr ⟨_, hpop', ?_⟩⟩)
    exact bind_eq_ok.mpr ⟨_, helem, htop.push_of rfl (List.cons_ne_nil _ _) _⟩
  tag := by
    rintro s pos chars hash m rfl htop hchars hhash hm
    obtain ⟨hpop, -⟩ := htop.pop []
    have htag := btag_aggregate (s := s.drop 1) hh hr (tagHash_unboxed hhash) hm
    rw [← BitVec.ofInt_natCast] at htag
    refine exec_plain_of rfl rfl rfl (bind_eq_ok.mpr ⟨_, hpop, ?_⟩)
    refine bind_eq_ok.mpr ⟨chars, orStop_eq_ok.mpr hchars, bind_eq_ok.mpr ⟨hash, hhash, ?_⟩⟩
    exact bind_eq_ok.mpr ⟨_, htag, htop.push_of rfl (List.cons_ne_nil _ _) _⟩
  array := by
    rintro s m rfl htop hm
    obtain ⟨hpop, -⟩ := htop.pop []
    have harray := arrayPatt_aggregate (s := s.drop 1) hh hr hm
    rw [← BitVec.ofInt_natCast] at harray
    refine exec_plain_of rfl rfl rfl (bind_eq_ok.mpr ⟨_, hpop, bind_eq_ok.mpr ⟨_, harray, ?_⟩⟩)
    exact htop.push_of rfl (List.cons_ne_nil _ _) _

/-- A store into a component moves the aggregate to its other value. -/
theorem Represents.actsAsTuple (hne : A.type ≠ .closure) :
    ActsAsTuple im e f h (contentWord h p) A where
  toReadsAs := hr.readsAs hh hne
  sta := by
    rintro s i v rfl htop hi
    obtain ⟨hpop, htop₁⟩ := htop.pop [_, _]
    obtain ⟨hpop₁, htop₂⟩ := htop₁.pop [_]
    obtain ⟨hpop₂, -⟩ := htop₂.pop []
    have hsta := bsta_aggregate (s := ((s.drop 1).drop 1).drop 1) hh hr v hi hne
    refine ⟨p + headerSize + (A.first + i), ?_, ?_⟩
    · refine exec_plain_of rfl rfl rfl (bind_eq_ok.mpr ⟨_, hpop, bind_eq_ok.mpr ⟨_, hpop₁, ?_⟩⟩)
      refine bind_eq_ok.mpr ⟨_, hpop₂, bind_eq_ok.mpr ⟨_, hsta, ?_⟩⟩
      exact htop.push_of rfl (List.cons_ne_nil _ _) _
    · have hplaced : HeapPlaced im (s.mem.heap.setWord (p + headerSize + (A.first + i)) v) :=
        ⟨hh.apart, hh.fits⟩
      exact (hr.set v hi).readsAs hplaced (by rwa [Aggregate.set, Aggregate.withFields_type])

end Behaviour

section Closure
variable {h : MemoryChunk} {p : ℕ} {entry : ℤ} {fields : List Word} (hh : HeapPlaced im h)
  (hr : Represents h p (.closure entry fields))
include hh hr

/-- `CALLC` finds the closure below the arguments. -/
theorem Represents.callc {returnIp : ℤ} {args : List Word} (hheap : s.mem.heap = h)
    (htop : OnTop im s (contentWord h p :: args)) (hctop : 0 < s.ctop) :
    exec im e f s (.callc returnIp args.length) =
        .ok (s.called returnIp args.length true, some (some entry)) ∧
      RunsClosure im (s.called returnIp args.length true) (contentWord h p) := by
  subst hheap
  obtain ⟨hlow, hhigh, hwords⟩ := htop
  rw [List.length_cons] at hhigh hwords
  have hb := im.bottom_lt
  have hslot : s.mem.ram (s.top + args.length + 1) = contentWord s.mem.heap p := by
    have hhead := congrArg List.head? hwords
    rw [State.operands, List.range_succ_eq_map, List.map_cons] at hhead
    exact Option.some.inj hhead
  have hin : im.inStack (s.top + args.length + 1) := inStack_iff.mpr (by omega)
  have hsize : toSize (args.length : ℤ) = args.length := by
    unfold toSize
    omega
  have haddr : ptrAdd s.top (1 + (args.length : ℤ)) = s.top + args.length + 1 := by
    have := ptrAdd_eq (p := s.top) (n := 1 + (args.length : ℤ)) (by omega) (by omega)
    omega
  have hclosure : vstackKthFromEnd im s args.length = .ok (contentWord s.mem.heap p) := by
    rw [vstackKthFromEnd, haddr, ensure_of (by omega), ok_bind, readSlot_of hin, hslot]
  have hcall : cstackCall im s returnIp args.length true = .ok (s.called returnIp args.length true) := by
    have := ptrAdd_eq (p := s.top) (n := (args.length : ℤ)) (by omega) (by omega)
    rw [cstackCall, ensure_of hctop, ok_bind, ensure_of (by omega)]
    rfl
  have hentry := loadWord_head hh hr (w := BitVec.ofInt 32 entry) rfl
  have hint : (BitVec.ofInt 32 entry).toInt = entry := by
    have := hr.proper
    simp only [Aggregate.Proper, IsInt] at this
    rw [BitVec.toInt_ofInt]
    simp only [Int.bmod_def]
    omega
  refine ⟨?_, ?_, ?_, ?_⟩
  · refine bind_eq_ok.mpr ⟨_, by rw [hsize]; exact hclosure, ?_⟩
    refine bind_eq_ok.mpr ⟨_, derefPtr_content hh hr.object, bind_eq_ok.mpr ⟨_, hentry, ?_⟩⟩
    refine bind_eq_ok.mpr ⟨_, by rw [hsize]; exact hcall, ?_⟩
    rw [hint]
    rfl
  all_goals simp only [State.frame, State.called, State.callee, if_true]
  · exact hin
  · exact hslot

/-- `LD` finds a captured value if `closure_size` happens to be above its index. -/
theorem Represents.ld {i : ℕ} {w : Word} (hheap : s.mem.heap = h)
    (hruns : RunsClosure im s (contentWord h p)) (hlo : im.vstack < s.top) (hhi : s.top < im.bottom)
    (hi : fields[i]? = some w) (hsize : i < e.closureSize.toNat) :
    exec im e f s (.ld ⟨3, i⟩) = .ok (s.push w, none) := by
  subst hheap
  have hlt := hr.index_lt (List.getElem?_eq_some_iff.mp hi).1
  have hload := loadWord_aggregate hh hr hi
  have hcheck : toSize (i : ℤ) < e.closureSize.toNat := by
    unfold toSize
    omega
  have hloc := hruns.loc (e := e) (l := ⟨3, i⟩) rfl
  rw [ensure_of hcheck, ok_bind, derefPtr_content hh hr.object] at hloc
  refine exec_plain_of rfl rfl rfl (bind_eq_ok.mpr ⟨_, hloc, bind_eq_ok.mpr ⟨w, ?_, ?_⟩⟩)
  · rw [show (1 + (i : ℤ)) = ((Aggregate.first (.closure entry fields) + i : ℕ) : ℤ) by
      simp only [Aggregate.first]; omega]
    exact hload
  · exact vstackPush_of hlo hhi

theorem Represents.actsAsClosure (hsize : fields.length ≤ e.closureSize.toNat) :
    ActsAsClosure im e f h (contentWord h p) entry fields where
  callc _ _ _ hheap htop hctop := hr.callc hh hheap htop hctop
  ld _ _ _ hheap hruns hlo hhi hi := hr.ld hh hheap hruns hlo hhi hi
    (Nat.lt_of_lt_of_le (List.getElem?_eq_some_iff.mp hi).1 hsize)

end Closure

/-- A captured value that `closure_size` does not count is not found. -/
theorem ActsAsClosure.size_le {h : MemoryChunk} {entry : ℤ} {fields : List Word}
    (hacts : ActsAsClosure im e f h x entry fields) : fields.length ≤ e.closureSize.toNat := by
  by_contra hlt
  rw [Nat.not_le] at hlt
  have hbot : im.bottom = im.vstack + 65536 := rfl
  -- a frame that runs the closure
  let s : State :=
    { ip := none, top := im.bottom - 3, globalsCount := 0
      cstack := fun _ => ⟨none, true, im.bottom - 2, 0, 0⟩, ctop := 0
      mem := { ram := fun _ => x, heap := h }, out := [] }
  have hruns : RunsClosure im s x :=
    ⟨rfl, inStack_iff.mpr (show im.vstack ≤ im.bottom - 2 + 0 + 1 ∧ im.bottom - 2 + 0 + 1 < _ by omega), rfl⟩
  have hld := hacts.ld s e.closureSize.toNat _ rfl hruns (show im.vstack < im.bottom - 3 by omega)
    (show im.bottom - 3 < im.bottom by omega) (List.getElem?_eq_getElem hlt)
  obtain ⟨-, hld⟩ := exec_execPlain (Or.inl rfl) rfl rfl hld
  obtain ⟨a, hloc, -⟩ := bind_eq_ok.mp hld
  rw [hruns.loc rfl] at hloc
  obtain ⟨u, hc, -⟩ := bind_eq_ok.mp hloc
  have hlow : toSize (e.closureSize.toNat : ℤ) < e.closureSize.toNat := ensure_eq_ok.mp hc
  have := e.closureSize.isLt
  unfold toSize at hlow
  omega

/-! ### Relocation -/

/-- If this request makes the collector run, the collector preserves the object graph. -/
def GraphKept (im : Image) (e : Env) (r : AllocRequest) : Prop :=
  ∀ p m g, gcAllocOnExistingHeap r.state.mem.heap (bytesToWords r.bytes) = some (none, g) →
    gcAlloc (r.state.roots im r.extraRoots) e.mremap (bytesToWords r.bytes) r.state.mem =
      some (some p, m) →
    ∃ objects begin, WellFormed r.state.mem.heap objects ∧ Collected r.state.mem objects
      (r.state.roots im r.extraRoots) begin (bytesToWords r.bytes) m

/-- `alloc` answers a request with the address `p` and the memory `m`, and moves values: not at all, or
    along with their objects. -/
inductive Relocates (im : Image) (e : Env) (r : AllocRequest) (p : ℕ) : Memory → (Word → Word) → Prop
  | stays {g : MemoryChunk} :
      gcAllocOnExistingHeap r.state.mem.heap (bytesToWords r.bytes) = some (some p, g) →
      Relocates im e r p { r.state.mem with heap := g } id
  | moves {m : Memory} {objects : List ℕ} {begin : ℕ} : WellFormed r.state.mem.heap objects →
      gcAlloc (r.state.roots im r.extraRoots) e.mremap (bytesToWords r.bytes) r.state.mem =
        some (some p, m) →
      Collected r.state.mem objects (r.state.roots im r.extraRoots) begin (bytesToWords r.bytes) m →
      Relocates im e r p m (redirect r.state.mem.heap objects
        (liveObjects r.state.mem objects (r.state.roots im r.extraRoots)) begin)

section Relocates
variable {r : AllocRequest} {p : ℕ} {m : Memory} {move : Word → Word}

theorem relocates_of_alloc (hgraph : GraphKept im e r)
    (h : alloc (r.state.roots im r.extraRoots) e.mremap r.bytes r.state.mem = some (some p, m)) :
    ∃ move, Relocates im e r p m move := by
  rcases alloc_cases h with ⟨g, hg, rfl⟩ | ⟨g, hg, hgc⟩
  · exact ⟨_, .stays hg⟩
  · obtain ⟨objects, begin, hwf, hcollected⟩ := hgraph p m g hg hgc
    exact ⟨_, .moves hwf hgc hcollected⟩

/-- The words of the stack above the top move. -/
theorem Relocates.slot (h : Relocates im e r p m move) {a : ℕ} (hlo : r.state.top < a)
    (hhi : a < im.bottom) : m.ram a = move (r.state.mem.ram a) := by
  cases h with
  | stays _ => rfl
  | moves _ _ hcollected =>
    exact hcollected.redirected a (List.mem_append_left _ (mem_region.mpr ⟨hlo, hhi⟩))

theorem Relocates.operands (h : Relocates im e r p m move) {n : ℕ} (hhi : r.state.top + n < im.bottom) :
    (r.state.withMem m).operands n = (r.state.operands n).map move := by
  rw [State.operands, State.operands, List.map_map]
  refine List.map_congr_left fun i hi => ?_
  have := List.mem_range.mp hi
  rw [State.withMem_top]
  exact h.slot (by omega) (by omega)

/-- With valid roots, the collector does preserve the graph. -/
theorem graphKept_of {objects : List ℕ} {begin : ℕ} (hextra : r.extraRoots = [])
    (hwf : WellFormed r.state.mem.heap objects)
    (hv : ValidRoots r.state.mem objects (r.state.roots im r.extraRoots))
    (hmremap : e.mremap = some begin)
    (hfits : FitsAt r.state.mem objects (r.state.roots im r.extraRoots) begin (bytesToWords r.bytes)) :
    GraphKept im e r := by
  intro p m g _ hgc
  obtain ⟨m', hrun, hcollected⟩ := gc_preserves hwf hv hfits
  rw [hmremap, hrun] at hgc
  cases hgc
  refine ⟨objects, begin, hwf, hcollected.mpr fun a ha => ?_⟩
  have ha : a ∈ r.extraRoots := ha
  rw [hextra] at ha
  exact absurd ha List.not_mem_nil

end Relocates

/-! ### Building and taking apart -/

/-- The instruction took its operands and pushed the address of a new object at `p`, in the memory `m`
    that `alloc` answered with. -/
structure Consumed (im : Image) (s : State) (inst : Inst) (s' : State) (p : ℕ) (m : Memory)
    (move : Word → Word) : Prop where
  control : SameControl s s'
  top : s'.top + 1 = s.top + inst.pops
  result : s'.mem.ram (s'.top + 1) = ptr (p + headerSize)
  rest : ∀ a, s.top + inst.pops < a → im.inStack a → s'.mem.ram a = move (s.mem.ram a)
  bounds : SameBounds m.heap s'.mem.heap
  older : ∀ k, m.heap.begin + k < p → s'.mem.heap.words k = m.heap.words k

/-- The instruction made its operands, moved as `alloc` moved them, into a tuple: what it left behaves
    as the aggregate `A` of them. `e'` is what later instructions take from outside. -/
def MakesTuple (im : Image) (e : Env) (f : Bytefile) (s : State) (inst : Inst) (s' : State)
    (A : Aggregate) (e' : Env) : Prop :=
  ∃ r p m move, allocRequest im e f s inst = .ok (some r) ∧ Relocates im e r p m move ∧
    Consumed im s inst s' p m move ∧
    ActsAs im e' f s'.mem.heap (ptr (p + headerSize)) (A.map move)

theorem Represents.actsAs {h : MemoryChunk} {p : ℕ} {A : Aggregate} (hh : HeapPlaced im h)
    (hr : Represents h p A) (hsize : A.type = .closure → A.fields.length ≤ e.closureSize.toNat) :
    ActsAs im e f h (contentWord h p) A := by
  cases A with
  | closure entry fields => exact hr.actsAsClosure hh (hsize rfl)
  | sexp hash fields => exact hr.actsAsTuple hh (by rintro ⟨⟩)
  | array fields => exact hr.actsAsTuple hh (by rintro ⟨⟩)

/-- S-expressions and arrays are tuples of their operands, and closures of what they captured, with or
    without a collection in between; for a closure, exactly when the value that the uninitialised
    `closure_size` has in a later `LD` counts every captured value. -/
theorem aggregates_tuple_iff {inst : Inst} {A : Aggregate} {s' : State}
    (hbuilds : Builds im e f s inst A) (hexec : exec im e f s inst = .ok (s', none))
    (hplaced : HeapPlaced im s'.mem.heap)
    (hgraph : ∀ r, allocRequest im e f s inst = .ok (some r) → GraphKept im e r) (e' : Env) :
    MakesTuple im e f s inst s' A e' ↔
      (A.type = .closure → A.fields.length ≤ e'.closureSize.toNat) := by
  constructor
  · rintro ⟨r, p, m, move, -, -, -, hacts⟩ hclosure
    cases A with
    | closure entry fields =>
      have hle := ActsAsClosure.size_le hacts
      rwa [List.length_map] at hle
    | sexp hash fields => cases hclosure
    | array fields => cases hclosure
  · intro hsize
    obtain ⟨t, m, o, hreq, hready, halloc, hrepr, hs', hbounds, holder⟩ := hbuilds.exec_exact hexec
    obtain ⟨move, hmove⟩ := relocates_of_alloc (hgraph _ hreq) halloc
    have hfields : (t.withMem m).operands A.fields.length = A.fields.map move :=
      (hmove.operands hready.onTop.high).trans (congrArg (List.map move) hready.onTop.words)
    rw [hfields] at hrepr
    have hcontent : contentWord s'.mem.heap o = ptr (m.heap.begin + o + headerSize) := by
      rw [contentWord, hbounds.begin]
    have hpos := im.vstack_pos
    have hlow := hready.onTop.low
    have htop : s'.top + 1 = t.top + A.fields.length := by
      rw [hs', State.push_top, State.withHeap_top, State.drop_top, State.withMem_top]
      omega
    refine ⟨_, _, m, move, hreq, hmove, ⟨?_, htop.trans hready.top, ?_, ?_, hbounds, ?_⟩, ?_⟩
    · rw [hs']
      exact hready.control.trans ⟨rfl, rfl, rfl⟩
    · rw [htop, hs', State.push_ram]
      exact if_pos rfl
    · intro a ha hin
      rw [← hready.top] at ha
      rw [hs', State.push_ram, State.withHeap_top, State.drop_top, State.withMem_top, if_neg (by omega),
        ← hready.slots a (by rw [← hready.top]; exact ha) hin]
      exact hmove.slot (show t.top < a by omega) hin.2
    · exact fun k hk => holder k (by omega)
    · rw [← hcontent]
      refine Represents.actsAs hplaced hrepr fun hclosure => ?_
      rw [Aggregate.map, Aggregate.withFields_type] at hclosure
      rw [Aggregate.map, Aggregate.withFields_fields, List.length_map]
      exact hsize hclosure

/-- Two operands, and an empty heap with no room for an S-expression of them. -/
def pairOnTop : State where
  ip := some 0
  top := 66533
  globalsCount := 0
  cstack _ := ⟨none, false, 66535, 0, 0⟩
  ctop := 65535
  mem :=
    { ram := fun a => if a = 66535 then box 7 else if a = 66534 then box 8 else 0
      heap :=
        { begin := sampleHeap, end_ := sampleHeap + 4, current := sampleHeap, size := 4
          words := fun _ => 0 } }
  out := []

theorem pairOnTop_wellFormed : WellFormed pairOnTop.mem.heap [] where
  tiles := rfl
  begin_le := by decide
  current_le := by decide
  span := by decide
  fits := by decide
  unmarked _ hp := absurd hp List.not_mem_nil
  dequeued _ hp := absurd hp List.not_mem_nil
  fields _ hp := absurd hp List.not_mem_nil

/-- No word points into the heap. -/
theorem pairOnTop_invalid (a : ℕ) :
    isValidHeapPointer pairOnTop.mem.heap (pairOnTop.mem.ram a) = false := by
  simp only [pairOnTop]
  split
  · decide
  · split <;> decide

/-- The collector runs, and moves the heap. -/
theorem pairOnTop_graphKept {r : AllocRequest}
    (hr : allocRequest sampleImage sampleEnv (program 0 []) pairOnTop (.sexp 0 2) = .ok (some r)) :
    GraphKept sampleImage sampleEnv r := by
  obtain ⟨_, -, hr⟩ := bind_eq_ok.mp hr
  obtain ⟨_, -, hr⟩ := bind_eq_ok.mp hr
  cases hr
  have hword : ∀ a, ValidWord pairOnTop.mem.heap [] (pairOnTop.mem.ram a) := fun a hvalid => by
    rw [pairOnTop_invalid] at hvalid
    cases hvalid
  refine graphKept_of rfl pairOnTop_wellFormed ⟨fun a _ => hword a, fun a _ => hword a,
    List.nodup_nil, pairOnTop_invalid _, fun a _ => pairOnTop_invalid a⟩
    (show sampleEnv.mremap = some 200000 from rfl) ?_
  unfold FitsAt
  rw [show liveWords _ ([] : List ℕ) _ = 0 from rfl]
  decide

theorem aggregates_tuple_iff_pair :
    ∃ s', exec sampleImage sampleEnv (program 0 []) pairOnTop (.sexp 0 2) = .ok (s', none) ∧
      (MakesTuple sampleImage sampleEnv (program 0 []) pairOnTop (.sexp 0 2) s'
          (.sexp (box 3412558) [box 7, box 8]) sampleEnv ↔
        (LamaType.sexp = .closure → 2 ≤ sampleEnv.closureSize.toNat)) := by
  have hrun : (exec sampleImage sampleEnv (program 0 []) pairOnTop (.sexp 0 2)).map
      (fun q => (q.2, q.1.mem.heap.begin, q.1.mem.heap.end_)) = .ok (none, 200000, 200005) := by
    decide +kernel
  obtain ⟨⟨s', jump⟩, hexec, hobs⟩ := exists_of_map_eq_ok hrun
  simp only [Prod.mk.injEq] at hobs
  obtain ⟨rfl, hbegin, hend⟩ := hobs
  have hname : cString (program 0 []) 0 = some [109, 97, 105, 110] := by decide +kernel
  have hhash : tagHash [109, 97, 105, 110] = .ok (box 3412558) := by decide +kernel
  have htop : OnTop sampleImage pairOnTop [box 7, box 8] := ⟨by decide, by decide, rfl⟩
  have habove : sampleImage.bottom ≤ s'.mem.heap.begin := by
    rw [hbegin]
    decide
  have hplaced : HeapPlaced sampleImage s'.mem.heap := ⟨Image.apart_of habove, by omega⟩
  exact ⟨s', hexec, aggregates_tuple_iff (.sexp hname hhash htop) hexec hplaced
    (fun r hr => pairOnTop_graphKept hr) sampleEnv⟩

/-- `BEGIN 0 1; CONST 5; ST L(0); DROP; CLOSURE 40 [L(0)]; CALLC 0; END; CBEGIN 0 0; LD C(0); END`. -/
def capturedLocal : List UInt8 :=
  82 :: intBytes 0 ++ intBytes 1 ++ 16 :: intBytes 5 ++ 65 :: intBytes 0 ++ 24 ::
    84 :: intBytes 40 ++ intBytes 1 ++ 1 :: intBytes 0 ++ 85 :: intBytes 0 ++ 22 ::
    83 :: intBytes 0 ++ intBytes 0 ++ 35 :: intBytes 0 ++ [22]

/-- The verifier accepts a closure that captures a local, and its `LD C(0)` does not find the value when
    `closure_size` happens to be 0. -/
theorem capturedLocal_lost : ∃ (t t' : Tracked) (s' : State),
    loadProgram 40 (fun _ _ => 0) (programBytes 0 capturedLocal) =
      .ok (program 0 capturedLocal, 0) ∧
    t.Starts sampleImage (program 0 capturedLocal) 0 ∧
    Reach (Tracked.Step sampleImage (program 0 capturedLocal)) (fun _ => True) t t' ∧
    t'.Executes (program 0 capturedLocal) (.closure 40 [⟨1, 0⟩]) 34 ∧
    Builds sampleImage sampleEnv (program 0 capturedLocal) t'.state (.closure 40 [⟨1, 0⟩])
      (.closure 40 [box 5]) ∧
    exec sampleImage sampleEnv (program 0 capturedLocal) t'.state (.closure 40 [⟨1, 0⟩]) =
      .ok (s', none) ∧
    HeapPlaced sampleImage s'.mem.heap ∧
    (∀ r, allocRequest sampleImage sampleEnv (program 0 capturedLocal) t'.state
      (.closure 40 [⟨1, 0⟩]) = .ok (some r) → GraphKept sampleImage sampleEnv r) ∧
    ¬ MakesTuple sampleImage sampleEnv (program 0 capturedLocal) t'.state (.closure 40 [⟨1, 0⟩]) s'
      (.closure 40 [box 5]) sampleEnv := by
  have hrun : (Tracked.runFrom sampleImage (program 0 capturedLocal) (fun _ => true) sampleHeap 0
      (List.replicate 4 sampleEnv)).map (fun t => (t.fetch (program 0 capturedLocal),
        decide (t.state.top = 66534 ∧ t.state.frame = ⟨none, false, 66535, 0, 1⟩ ∧
          t.state.mem.ram 66535 = box 5 ∧ t.state.mem.heap.current = 100000 ∧
          t.state.mem.heap.end_ = 100004 ∧
          ((exec sampleImage sampleEnv (program 0 capturedLocal) t.state
            (.closure 40 [⟨1, 0⟩])).toOption.map fun q =>
              (q.2, q.1.mem.heap.begin, q.1.mem.heap.end_)) = some (none, 100000, 100004)))) =
      .ok (some (.closure 40 [⟨1, 0⟩], 34), true) := by
    decide +kernel
  obtain ⟨t, t', ht, hreach, hobs⟩ := Tracked.exists_reach (fun _ _ => trivial) hrun
  simp only [Prod.mk.injEq, decide_eq_true_eq] at hobs
  obtain ⟨hfetch, htop, hframe, hlocal, hcurrent, hend, hafter⟩ := hobs
  obtain ⟨⟨s', jump⟩, hexec, hplace⟩ := Option.map_eq_some_iff.mp hafter
  simp only [Prod.mk.injEq] at hplace
  obtain ⟨rfl, hbegin', hend'⟩ := hplace
  -- the only variable of the frame
  have hvalue : HasValue sampleImage sampleEnv t'.state ⟨1, 0⟩ (box 5) := by
    have hcount : toSize 0 < t'.state.frame.localsCount := by
      rw [hframe]
      decide
    have hloc : loc sampleImage sampleEnv t'.state ⟨1, 0⟩ = .ok (ptrAdd t'.state.frame.base (-0)) :=
      bind_eq_ok.mpr ⟨(), ensure_of hcount, rfl⟩
    rw [hframe] at hloc
    refine ⟨66535, hloc, ?_, fun _ => by omega⟩
    rw [loadWord, if_pos (by decide), hlocal]
  have hcaptures : Captures sampleImage sampleEnv t'.state [⟨1, 0⟩] [box 5] := by
    refine ⟨⟨?_, ?_, rfl⟩, fun hclosure => ?_, .cons hvalue .nil⟩
    · rw [htop]
      decide
    · rw [htop]
      decide
    · rw [hframe] at hclosure
      cases hclosure
  refine ⟨t, t', s', by decide +kernel, ht, hreach, Tracked.executes_iff.mpr hfetch,
    .closure ⟨by decide, by decide⟩ hcaptures, ?_, ⟨Image.apart_of ?_, by omega⟩, ?_, ?_⟩
  · cases hx : exec sampleImage sampleEnv (program 0 capturedLocal) t'.state (.closure 40 [⟨1, 0⟩]) with
    | error x =>
      rw [hx] at hexec
      cases hexec
    | ok q =>
      rw [hx] at hexec
      cases hexec
      rfl
  · rw [hbegin']
    decide
  · -- the closure fits in the heap
    intro r hr p m g hg _
    obtain ⟨u, hpush, hr⟩ := bind_eq_ok.mp hr
    cases hr
    have hheap := (pushLocations_ok hpush).2.2.2
    have hsize : bytesToWords (allocClosure u (([⟨1, 0⟩] : List LocationEntry).length + 1)).bytes = 4 := by
      show bytesToWords (toSize (8 + 4 * (1 + 1))) = 4
      decide
    rw [hsize, gcAllocOnExistingHeap] at hg
    simp only [allocClosure, hheap, hcurrent, hend] at hg
    cases hg
  · rintro ⟨r, p, m, move, -, -, -, hacts⟩
    have hle : 1 ≤ sampleEnv.closureSize.toNat := ActsAsClosure.size_le hacts
    exact absurd hle (by decide)

end Lama

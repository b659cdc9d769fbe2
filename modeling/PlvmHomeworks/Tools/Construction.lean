import PlvmHomeworks.Runtime.Allocation
import PlvmHomeworks.Tools.Addressing
import PlvmHomeworks.Tools.Aggregates

/-! What `SEXP`, `BARRAY` and `CLOSURE` leave in the heap and on the stack.

    The operands stay on the stack while `alloc` runs, so that a collection moves them, and are popped
    into the object from its end to its start. -/

namespace Lama
open Outcome

/-! ### Operands -/

/-- The `n` operands on top, in the order they were pushed. -/
def State.operands (s : State) (n : ℕ) : List Word :=
  (List.range n).map fun i => s.mem.ram (s.top + n - i)

/-- These operands are on top. -/
structure OnTop (im : Image) (s : State) (ws : List Word) : Prop where
  low : im.vstack ≤ s.top
  high : s.top + ws.length < im.bottom
  words : s.operands ws.length = ws

variable {im : Image} {e : Env} {f : Bytefile} {s : State} {ws : List Word} {v w : Word}

@[simp] theorem State.operands_length (s : State) (n : ℕ) : (s.operands n).length = n := by
  simp [State.operands]

/-- The last operand is the word above the top. -/
theorem State.operands_succ (s : State) (n : ℕ) :
    s.operands (n + 1) = (s.drop 1).operands n ++ [s.mem.ram (s.top + 1)] := by
  rw [State.operands, State.operands, List.range_succ, List.map_append, List.map_singleton,
    show s.top + (n + 1) - n = s.top + 1 by omega]
  congr 1
  refine List.map_congr_left fun i _ => ?_
  rw [State.drop_top, State.drop_mem, show s.top + 1 + n - i = s.top + (n + 1) - i by omega]

theorem OnTop.pop (ws : List Word) (h : OnTop im s (ws ++ [w])) :
    vstackPop im s = .ok (w, s.drop 1) ∧ OnTop im (s.drop 1) ws := by
  obtain ⟨hlow, hhigh, hwords⟩ := h
  rw [List.length_append, List.length_singleton] at hhigh hwords
  rw [State.operands_succ] at hwords
  obtain ⟨hws, hw⟩ := List.append_inj hwords (by simp)
  obtain rfl : s.mem.ram (s.top + 1) = w := List.head_eq_of_cons_eq hw
  refine ⟨vstackPop_of (by omega) (by omega), ⟨?_, ?_, hws⟩⟩
  · rw [State.drop_top]
    omega
  · rw [State.drop_top]
    omega

/-- An instruction that popped operands has room for its result. -/
theorem OnTop.push_of {t : State} (h : OnTop im s ws) (ht : t.top = s.top + ws.length)
    (hne : ws ≠ []) (v : Word) : vstackPush im t v = .ok (t.push v) := by
  have hpos := List.length_pos_iff.mpr hne
  have hlow := h.low
  have hhigh := h.high
  exact vstackPush_of (by omega) (by omega)

/-- A push puts one more operand on top. -/
theorem OnTop.push (h : OnTop im s ws) (hlo : im.vstack < s.top) (w : Word) :
    OnTop im (s.push w) (ws ++ [w]) := by
  obtain ⟨hlow, hhigh, hwords⟩ := h
  have htop : (s.push w).top + 1 = s.top := by
    rw [State.push_top]
    omega
  refine ⟨by omega, ?_, ?_⟩
  · rw [List.length_append, List.length_singleton]
    omega
  · rw [List.length_append, List.length_singleton, State.operands_succ, htop, State.push_ram, if_pos rfl]
    congr 1
    refine Eq.trans (List.map_congr_left fun i hi => ?_) hwords
    have := List.mem_range.mp hi
    rw [State.drop_top, htop, State.drop_mem, State.push_ram, if_neg (by omega)]

/-! ### Words of the heap -/

/-- The heap with consecutive words replaced. -/
def MemoryChunk.setWords (h : MemoryChunk) (k : ℕ) (ws : List Word) : MemoryChunk :=
  { h with words := fun j => if k ≤ j then ws.getD (j - k) (h.words j) else h.words j }

section SetWords
variable (h : MemoryChunk) (k : ℕ) (ws : List Word) (v : Word)

theorem setWords_nil : h.setWords k [] = h := by
  simp [MemoryChunk.setWords]

theorem setWords_congr {g g' : ℕ → Word} (hg : ∀ j, g j = g' j) :
    ({ h with words := g } : MemoryChunk) = { h with words := g' } :=
  congrArg (fun g => { h with words := g }) (funext hg)

/-- The words are written from the end. -/
theorem setWords_snoc : (h.setWord (k + ws.length) v).setWords k ws = h.setWords k (ws ++ [v]) := by
  refine setWords_congr h fun j => ?_
  simp only [MemoryChunk.setWord, List.getD_eq_getElem?_getD]
  split
  · rcases Nat.lt_trichotomy (j - k) ws.length with hlt | heq | hgt
    · rw [List.getElem?_append_left hlt, List.getElem?_eq_getElem hlt, Option.getD_some,
        Option.getD_some]
    · rw [List.getElem?_eq_none (Nat.le_of_eq heq.symm), heq, List.getElem?_concat_length,
        if_pos (by omega)]
      rfl
    · rw [List.getElem?_eq_none (Nat.le_of_lt hgt), List.getElem?_eq_none (by simp; omega),
        if_neg (by omega)]
  · rw [if_neg (by omega)]

/-- A word in front of them, written before or after. -/
theorem setWords_cons : (h.setWord k v).setWords (k + 1) ws = h.setWords k (v :: ws) := by
  refine setWords_congr h fun j => ?_
  simp only [MemoryChunk.setWord, List.getD_eq_getElem?_getD]
  rcases Nat.lt_trichotomy j k with hlt | rfl | hgt
  · rw [if_neg (by omega), if_neg (by omega), if_neg (by omega)]
  · simp
  · rw [if_pos (show k + 1 ≤ j from hgt), if_pos (Nat.le_of_lt hgt), if_neg (Nat.ne_of_gt hgt),
      show j - k = j - (k + 1) + 1 by omega, List.getElem?_cons_succ]

theorem setWord_setWords (u : Word) :
    ((h.setWord k u).setWords (k + 1) ws).setWord k v = h.setWords k (v :: ws) := by
  refine setWords_congr h fun j => ?_
  simp only [MemoryChunk.setWord, MemoryChunk.setWords, List.getD_eq_getElem?_getD]
  rcases Nat.lt_trichotomy j k with hlt | rfl | hgt
  · rw [if_neg (by omega), if_neg (by omega), if_neg (by omega), if_neg (by omega)]
  · simp
  · rw [if_neg (Nat.ne_of_gt hgt), if_pos (show k + 1 ≤ j from hgt), if_pos (Nat.le_of_lt hgt),
      if_neg (Nat.ne_of_gt hgt), show j - k = j - (k + 1) + 1 by omega, List.getElem?_cons_succ]

end SetWords

theorem setWords_get {h : MemoryChunk} {k i : ℕ} (hi : ws[i]? = some w) :
    (h.setWords k ws).words (k + i) = w := by
  simp [MemoryChunk.setWords, List.getD_eq_getElem?_getD, hi]

theorem setWords_below {h : MemoryChunk} {k j : ℕ} (hj : j < k) : (h.setWords k ws).words j = h.words j :=
  if_neg (Nat.not_le.mpr hj)

/-- A new object, written word by word. -/
theorem represents_setWords {h : MemoryChunk} {o : ℕ} {A : Aggregate} (hp : A.Proper)
    (hlen : A.len < 2 ^ 29) (hin : h.begin + o + headerSize + A.contents.length ≤ h.end_) :
    Represents (h.setWords o (A.header :: 0 :: A.contents)) o A where
  proper := hp
  len_lt := hlen
  header := setWords_get (i := 0) rfl
  contents i w hi := by
    rw [contentAt, Nat.add_assoc, setWords_get]
    rw [headerSize, Nat.add_comm 2 i, List.getElem?_cons_succ, List.getElem?_cons_succ, hi]
  inside := hin

/-! ### The steps of a construction -/

theorem storeHeap_exact {a : ℕ} {t : State} (h : storeHeap s a v = .ok t) :
    s.mem.heap.begin ≤ a ∧ a < s.mem.heap.end_ ∧
      t = s.withHeap (s.mem.heap.setWord (a - s.mem.heap.begin) v) := by
  obtain ⟨g, hg, h⟩ := bind_eq_ok.mp h
  rw [orStop_eq_ok, MemoryChunk.store] at hg
  split at hg
  · next hin =>
    cases hg
    cases h
    exact ⟨hin.1, hin.2, rfl⟩
  · cases hg

/-- A store at an offset of the heap. -/
theorem storeHeap_at {k : ℕ} {t : State} (h : storeHeap s (s.mem.heap.begin + k) v = .ok t) :
    t = s.withHeap (s.mem.heap.setWord k v) := by
  obtain ⟨-, -, rfl⟩ := storeHeap_exact h
  rw [Nat.add_sub_cancel_left]

/-- The operands are popped into the object. -/
theorem popInto_exact {b o lo : ℕ} : ∀ {n : ℕ} {s t : State}, s.mem.heap.begin = b →
    s.top + n < 2 ^ 30 → popInto im (b + o) lo n s = .ok t →
      t = (s.drop n).withHeap (s.mem.heap.setWords (o + lo) (s.operands n))
  | 0, s, t, _, _, h => by
    cases h
    rw [show s.operands 0 = [] from rfl, setWords_nil]
    rfl
  | n + 1, s, t, hb, ht, h => by
    obtain ⟨⟨v, s₁⟩, hp, h⟩ := bind_eq_ok.mp h
    obtain ⟨-, -, hp⟩ := vstackPop_ok (by omega) hp
    cases hp
    obtain ⟨s₂, hs, h⟩ := bind_eq_ok.mp h
    rw [Nat.add_assoc, Nat.add_assoc, ← hb, ← Nat.add_assoc o lo n] at hs
    obtain rfl := storeHeap_at (s := s.drop 1) hs
    have ht' : (s.drop 1).top + n < 2 ^ 30 := by
      rw [State.drop_top]
      omega
    have hrest := popInto_exact (by exact hb) (by exact ht') h
    rw [hrest, State.operands_succ, ← setWords_snoc, State.operands_length, ← State.drop_withHeap,
      State.withHeap_withHeap, State.drop_drop, Nat.add_comm 1 n]
    rfl

def State.withMem (s : State) (m : Memory) : State := { s with mem := m }

@[simp] theorem State.withMem_top (s : State) (m : Memory) : (s.withMem m).top = s.top := rfl
@[simp] theorem State.withMem_mem (s : State) (m : Memory) : (s.withMem m).mem = m := rfl

/-- The request for the block of an aggregate. -/
def Aggregate.request (A : Aggregate) (s : State) : AllocRequest :=
  ⟨s, [], A.type.tag, A.len, 8 + 4 * A.contents.length⟩

theorem gcAllocOnExistingHeap_ok {h h' : MemoryChunk} {size p : ℕ}
    (hg : gcAllocOnExistingHeap h size = some (some p, h')) :
    p + size % 2 ^ 30 ≤ h'.end_ := by
  unfold gcAllocOnExistingHeap at hg
  split at hg
  · split at hg
    · cases hg
      assumption
    · cases hg
  · cases hg

/-- A request is served from the heap as it is, or after a collection. -/
theorem alloc_cases {roots : Roots} {mremap : Option ℕ} {bytes p : ℕ} {m m' : Memory}
    (h : alloc roots mremap bytes m = some (some p, m')) :
    (∃ g, gcAllocOnExistingHeap m.heap (bytesToWords bytes) = some (some p, g) ∧
      m' = { m with heap := g }) ∨
    ∃ g, gcAllocOnExistingHeap m.heap (bytesToWords bytes) = some (none, g) ∧
      gcAlloc roots mremap (bytesToWords bytes) m = some (some p, m') := by
  obtain ⟨⟨q, g⟩, hg, h⟩ := Option.bind_eq_some_iff.mp h
  cases q with
  | some q =>
    cases h
    exact Or.inl ⟨g, hg, rfl⟩
  | none => exact Or.inr ⟨g, hg, h⟩

/-- The block is inside the heap. -/
theorem alloc_room {roots : Roots} {mremap : Option ℕ} {bytes p : ℕ} {m m' : Memory}
    (h : alloc roots mremap bytes m = some (some p, m')) :
    p + bytesToWords bytes % 2 ^ 30 ≤ m'.heap.end_ := by
  rcases alloc_cases h with ⟨g, hg, rfl⟩ | ⟨g, -, hgc⟩
  · exact gcAllocOnExistingHeap_ok hg
  · obtain ⟨m₁, -, hgc⟩ := Option.bind_eq_some_iff.mp hgc
    obtain ⟨m₂, -, hgc⟩ := Option.bind_eq_some_iff.mp hgc
    obtain ⟨⟨q, h'⟩, hg, hgc⟩ := Option.bind_eq_some_iff.mp hgc
    cases hgc
    exact gcAllocOnExistingHeap_ok hg

/-- The header of the new object is written, and the rest of its block is there. -/
theorem allocObject_exact {A : Aggregate} {p : ℕ} {t : State} (hlen : A.len < 2 ^ 29)
    (h : allocObject im e (A.request s) = .ok (p, t)) :
    ∃ m o, alloc (s.roots im []) e.mremap (8 + 4 * A.contents.length) s.mem = some (some p, m) ∧
      p = m.heap.begin + o ∧ m.heap.begin + o + headerSize + A.contents.length ≤ m.heap.end_ ∧
      t = { s with mem := { m with heap := (m.heap.setWord o A.header).setWord (o + 1) 0 } } := by
  obtain ⟨⟨q, m⟩, ha, h⟩ := bind_eq_ok.mp h
  obtain ⟨p', hp, h⟩ := bind_eq_ok.mp h
  obtain ⟨s₁, h₁, h⟩ := bind_eq_ok.mp h
  obtain ⟨s₂, h₂, h⟩ := bind_eq_ok.mp h
  rw [orStop_eq_ok] at ha hp
  cases h
  simp only at hp h₁ h₂
  subst hp
  obtain ⟨hlo, -, rfl⟩ := storeHeap_exact h₁
  obtain ⟨o, rfl⟩ := Nat.exists_eq_add_of_le hlo
  simp only [Nat.add_sub_cancel_left] at h₂
  obtain rfl := storeHeap_at (s := State.withHeap _ _) (k := o + 1) h₂
  have hroom : m.heap.begin + o + _ ≤ _ := alloc_room ha
  have hle := A.contents_le
  rw [show (A.request s).bytes = 8 + 4 * A.contents.length from rfl,
    bytesToWords_eq (by omega) (by omega)] at hroom
  refine ⟨m, o, ha, rfl, ?_, rfl⟩
  unfold headerSize
  omega

theorem storeHeap_eq_ok {a : ℕ} {v : Word} {t : State} :
    storeHeap s a v = .ok t ↔ ∃ m, s.mem.store a v = some m ∧ t = s.withMem m := by
  rw [storeHeap, Memory.store]
  cases s.mem.heap.store a v with
  | none => simp [orStop]
  | some h => simp [orStop, State.withMem, eq_comm]

/-- A request of the interpreter is a call of the runtime's allocator. -/
theorem allocObject_eq_ok {r : AllocRequest} {type : LamaType} {len p : ℕ} {t : State}
    (htag : r.tag = type.tag) (hlen : r.len = len) (hbytes : r.bytes = objBytes type len) :
    allocObject im e r = .ok (p, t) ↔
      ∃ m, r.state.mem.allocData (r.state.roots im r.extraRoots) e.mremap type len = some (p, m) ∧
        t = r.state.withMem m := by
  have hheader : r.tag ||| BitVec.ofInt 32 r.len <<< 3 = headerWord type len := by
    rw [htag, hlen, BitVec.ofInt_natCast, headerWord]
  rw [allocObject, Memory.allocData, hheader, hbytes]
  constructor
  · intro h
    obtain ⟨⟨q, m⟩, ha, h⟩ := bind_eq_ok.mp h
    obtain ⟨p', hp, h⟩ := bind_eq_ok.mp h
    obtain ⟨s₁, h₁, h⟩ := bind_eq_ok.mp h
    obtain ⟨s₂, h₂, h⟩ := bind_eq_ok.mp h
    rw [orStop_eq_ok] at ha hp
    obtain ⟨m₁, hm₁, rfl⟩ := storeHeap_eq_ok.mp h₁
    obtain ⟨m₂, hm₂, rfl⟩ := storeHeap_eq_ok.mp h₂
    cases h
    simp only at hp hm₁ hm₂
    refine ⟨m₂, Option.bind_eq_some_iff.mpr ⟨_, ha, Option.bind_eq_some_iff.mpr ⟨_, hp,
      Option.bind_eq_some_iff.mpr ⟨_, hm₁, Option.bind_eq_some_iff.mpr ⟨_, hm₂, rfl⟩⟩⟩⟩, rfl⟩
  · rintro ⟨m, h, rfl⟩
    obtain ⟨⟨q, m'⟩, ha, h⟩ := Option.bind_eq_some_iff.mp h
    obtain ⟨p', hp, h⟩ := Option.bind_eq_some_iff.mp h
    obtain ⟨m₁, hm₁, h⟩ := Option.bind_eq_some_iff.mp h
    obtain ⟨m₂, hm₂, h⟩ := Option.bind_eq_some_iff.mp h
    cases h
    refine bind_eq_ok.mpr ⟨_, orStop_eq_ok.mpr ha, bind_eq_ok.mpr ⟨_, orStop_eq_ok.mpr hp,
      bind_eq_ok.mpr ⟨_, storeHeap_eq_ok.mpr ⟨_, hm₁, rfl⟩,
        bind_eq_ok.mpr ⟨_, storeHeap_eq_ok.mpr ⟨_, hm₂, rfl⟩, rfl⟩⟩⟩⟩

/-! ### Captured values -/

/-- `loc` finds the variable, not among the operands, and it has this value. -/
def HasValue (im : Image) (e : Env) (s : State) (l : LocationEntry) (w : Word) : Prop :=
  ∃ a, loc im e s l = .ok a ∧ loadWord im s a = .ok w ∧ (im.inStack a → s.top < a)

/-- `CLOSURE` captures variables with these values. -/
structure Captures (im : Image) (e : Env) (s : State) (ls : List LocationEntry) (ws : List Word) :
    Prop where
  room : OnTop im s []
  running : s.frame.isClosure = true → s.top < ptrAdd s.frame.base (s.frame.argsCount + 1)
  values : List.Forall₂ (HasValue im e s) ls ws

/-- Pushed operands do not change where a variable is. -/
theorem loc_congr {t : State} (hc : SameControl s t) (hslots : SameSlots im s.top s t)
    (hrun : s.frame.isClosure = true → s.top < ptrAdd s.frame.base (s.frame.argsCount + 1))
    (l : LocationEntry) : loc im e t l = loc im e s l := by
  have hframe : t.frame = s.frame := by rw [State.frame, State.frame, hc.cstack, hc.ctop]
  unfold loc
  rw [hframe, hc.globalsCount]
  cases l.location with
  | none => rfl
  | some kind =>
    cases kind with
    | captured =>
      by_cases hclosure : s.frame.isClosure = true
      · have hread : readSlot im t (ptrAdd s.frame.base (s.frame.argsCount + 1)) =
            readSlot im s (ptrAdd s.frame.base (s.frame.argsCount + 1)) := by
          by_cases hin : im.inStack (ptrAdd s.frame.base (s.frame.argsCount + 1))
          · rw [readSlot_of hin, readSlot_of hin, hslots _ (hrun hclosure) hin]
          · rw [readSlot, readSlot, ensure, if_neg hin]
            rfl
        simp only [hread]
      · simp only [ensure, if_neg hclosure]
        rfl
    | _ => rfl

/-- The captured values end up on top, in order. -/
theorem pushLocations_exact {s₀ : State}
    (hrun : s₀.frame.isClosure = true → s₀.top < ptrAdd s₀.frame.base (s₀.frame.argsCount + 1)) :
    ∀ {ls : List LocationEntry} {ws xs : List Word} {s t : State}, SameControl s₀ s →
      SameSlots im s₀.top s₀ s → s.mem.heap = s₀.mem.heap → s.top ≤ s₀.top → OnTop im s xs →
      List.Forall₂ (HasValue im e s₀) ls ws → pushLocations im e s ls = .ok t → OnTop im t (xs ++ ws)
  | [], [], xs, s, t, _, _, _, _, htop, .nil, h => by
    cases h
    rwa [List.append_nil]
  | l :: ls, w :: ws, xs, s, t, hc, hslots, hheap, hle, htop, .cons hl hls, h => by
    obtain ⟨a, hloc, hload, habove⟩ := hl
    obtain ⟨a', hloc', h⟩ := bind_eq_ok.mp h
    obtain ⟨w', hload', h⟩ := bind_eq_ok.mp h
    obtain ⟨s₁, hpush, h⟩ := bind_eq_ok.mp h
    obtain ⟨hlo, -, rfl⟩ := vstackPush_ok hpush
    rw [loc_congr hc hslots hrun, hloc, Except.ok.injEq] at hloc'
    subst hloc'
    have hsame : loadWord im s a = loadWord im s₀ a := by
      rw [loadWord, loadWord, hheap]
      by_cases hin : im.inStack a
      · rw [if_pos hin, if_pos hin, hslots a (habove hin) hin]
      · rw [if_neg hin, if_neg hin]
    rw [hsame, hload, Except.ok.injEq] at hload'
    subst hload'
    have hrest := pushLocations_exact hrun (hc.trans sameControl_push)
      (hslots.trans (sameSlots_push hle)) (by exact hheap) (by rw [State.push_top]; omega)
      (htop.push hlo w) hls h
    rwa [List.append_assoc] at hrest

/-! ### The instructions that build an aggregate -/

/-- The instruction builds `A` from the operands it pops, or from the variables it captures. -/
inductive Builds (im : Image) (e : Env) (f : Bytefile) (s : State) : Inst → Aggregate → Prop
  | sexp {pos : ℤ} {chars : List UInt8} {hash : Word} {fields : List Word} :
      cString f pos = some chars → tagHash chars = .ok hash → OnTop im s fields →
      Builds im e f s (.sexp pos fields.length) (.sexp hash fields)
  | barray {fields : List Word} : OnTop im s fields →
      Builds im e f s (.barray fields.length) (.array fields)
  | closure {entry : ℤ} {ls : List LocationEntry} {fields : List Word} : IsInt entry →
      Captures im e s ls fields → Builds im e f s (.closure entry ls) (.closure entry fields)

theorem tagHash_unboxed {chars : List UInt8} {hash : Word} (h : tagHash chars = .ok hash) :
    unboxed hash = true := by
  obtain ⟨n, -, h⟩ := bind_eq_ok.mp h
  obtain ⟨u, -, h⟩ := bind_eq_ok.mp h
  cases h
  exact unboxed_box _

variable {inst : Inst} {A : Aggregate}

theorem OnTop.length_lt (h : OnTop im s ws) : ws.length < vstackSize := by
  have hlow := h.low
  have hhigh : s.top + ws.length < im.vstack + vstackSize := h.high
  omega

theorem Builds.proper (h : Builds im e f s inst A) : A.Proper := by
  cases h with
  | sexp _ hhash _ => exact tagHash_unboxed hhash
  | barray _ => trivial
  | closure hentry _ => exact hentry

theorem Builds.allocates (h : Builds im e f s inst A) : inst.allocates = true := by
  cases h <;> rfl

/-- The request is made with the components on top. -/
structure Ready (im : Image) (inst : Inst) (s : State) (A : Aggregate) (t : State) : Prop where
  control : SameControl s t
  slots : SameSlots im (s.top + inst.pops) s t
  top : t.top + A.fields.length = s.top + inst.pops
  onTop : OnTop im t A.fields

theorem Builds.request (h : Builds im e f s inst A) {o : Option AllocRequest}
    (hreq : allocRequest im e f s inst = .ok o) :
    ∃ t, o = some (A.request t) ∧ Ready im inst s A t := by
  have hsize : vstackSize = 65536 := rfl
  cases h with
  | @sexp pos chars hash fields hchars hhash htop =>
    have hlt := htop.length_lt
    obtain ⟨_, -, hreq⟩ := bind_eq_ok.mp hreq
    obtain ⟨_, -, hreq⟩ := bind_eq_ok.mp hreq
    cases hreq
    have hbytes : toSize (8 + 4 * ((fields.length : ℤ) + 1)) = 8 + 4 * (fields.length + 1) := by
      unfold toSize
      omega
    refine ⟨s, ?_, .refl s, fun _ _ _ => rfl, rfl, htop⟩
    rw [allocSexp, hbytes]
    rfl
  | @barray fields htop =>
    have hlt := htop.length_lt
    cases hreq
    have hbytes : toSize (8 + 4 * (fields.length : ℤ)) = 8 + 4 * fields.length := by
      unfold toSize
      omega
    refine ⟨s, ?_, .refl s, fun _ _ _ => rfl, rfl, htop⟩
    rw [allocArray, hbytes]
    rfl
  | @closure entry ls fields _ hcap =>
    obtain ⟨t, hpush, hreq⟩ := bind_eq_ok.mp hreq
    cases hreq
    have hlen : ls.length = fields.length := hcap.values.length_eq
    obtain ⟨hc, htop, hslots, -⟩ := pushLocations_ok hpush
    rw [hlen] at htop
    have hon : OnTop im t fields := pushLocations_exact hcap.running (.refl s) (fun _ _ _ => rfl) rfl
      (Nat.le_refl _) hcap.room hcap.values hpush
    have hlt := hon.length_lt
    have hbytes : toSize (8 + 4 * ((ls.length : ℤ) + 1)) = 8 + 4 * (fields.length + 1) := by
      unfold toSize
      omega
    refine ⟨t, ?_, hc, hslots, htop, hon⟩
    rw [allocClosure, hbytes, hlen]
    rfl

/-- The components are popped into the object, and its address is pushed. -/
theorem Builds.after (h : Builds im e f s inst A) {b o : ℕ} {t s' : State}
    (hbegin : t.mem.heap.begin = b) (htop : t.top + A.fields.length < 2 ^ 30)
    (hafter : afterAlloc im e f (b + o) t inst = .ok s') :
    s' = ((t.drop A.fields.length).withHeap (t.mem.heap.setWords (o + headerSize)
      (A.withFields (t.operands A.fields.length)).contents)).push (contentWord t.mem.heap o) := by
  subst hbegin
  cases h with
  | @sexp pos chars hash fields hchars hhash _ =>
    obtain ⟨chars', hchars', hafter⟩ := bind_eq_ok.mp hafter
    rw [orStop_eq_ok, hchars, Option.some.injEq] at hchars'
    subst hchars'
    obtain ⟨hash', hhash', hafter⟩ := bind_eq_ok.mp hafter
    rw [hhash, Except.ok.injEq] at hhash'
    subst hhash'
    obtain ⟨s₁, h₁, hafter⟩ := bind_eq_ok.mp hafter
    obtain ⟨s₂, h₂, hafter⟩ := bind_eq_ok.mp hafter
    obtain ⟨s₃, h₃, hafter⟩ := bind_eq_ok.mp hafter
    obtain ⟨-, -, rfl⟩ := vstackPush_ok hafter
    rw [Nat.add_assoc] at h₁ h₂ h₃
    obtain rfl := storeHeap_at h₁
    rw [Int.toNat_natCast] at h₂
    obtain rfl := popInto_exact (by exact rfl) (by exact htop) h₂
    obtain rfl := storeHeap_at (s := State.withHeap _ _) h₃
    rw [State.withHeap_withHeap, State.withHeap_heap, State.withHeap_heap, setWord_setWords]
    rfl
  | @barray fields _ =>
    obtain ⟨s₁, h₁, hafter⟩ := bind_eq_ok.mp hafter
    obtain ⟨-, -, rfl⟩ := vstackPush_ok hafter
    rw [Nat.add_assoc, Int.toNat_natCast] at h₁
    obtain rfl := popInto_exact (by exact rfl) (by exact htop) h₁
    rfl
  | @closure entry ls fields _ hcap =>
    obtain ⟨s₁, h₁, hafter⟩ := bind_eq_ok.mp hafter
    obtain ⟨s₂, h₂, hafter⟩ := bind_eq_ok.mp hafter
    obtain ⟨-, -, rfl⟩ := vstackPush_ok hafter
    rw [Nat.add_assoc] at h₁ h₂
    obtain rfl := storeHeap_at h₁
    rw [hcap.values.length_eq] at h₂
    obtain rfl := popInto_exact (by exact rfl) (by exact htop) h₂
    rw [State.withHeap_heap, setWords_cons]
    rfl

/-- What one of these instructions does: a request with the components on top, the memory that `alloc`
    answers with, and in it the aggregate of the words that are then on the stack. -/
theorem Builds.exec_exact (h : Builds im e f s inst A) {s' : State}
    (hexec : exec im e f s inst = .ok (s', none)) :
    ∃ t m o, allocRequest im e f s inst = .ok (some (A.request t)) ∧ Ready im inst s A t ∧
      alloc (t.roots im []) e.mremap (8 + 4 * A.contents.length) t.mem =
        some (some (m.heap.begin + o), m) ∧
      Represents s'.mem.heap o (A.withFields ((t.withMem m).operands A.fields.length)) ∧
      s' = (((t.withMem m).drop A.fields.length).withHeap s'.mem.heap).push (contentWord m.heap o) ∧
      SameBounds m.heap s'.mem.heap ∧ ∀ k, k < o → s'.mem.heap.words k = m.heap.words k := by
  rw [exec_allocates h.allocates] at hexec
  obtain ⟨r, hreq, hexec⟩ := bind_eq_ok.mp hexec
  obtain ⟨t, rfl, hready⟩ := h.request hreq
  obtain ⟨⟨p, s₁⟩, hobject, hexec⟩ := bind_eq_ok.mp hexec
  obtain ⟨s₂, hafter, hexec⟩ := bind_eq_ok.mp hexec
  cases hexec
  have hsize : vstackSize = 65536 := rfl
  have hlt := hready.onTop.length_lt
  have hhigh := hready.onTop.high
  have hb := im.bottom_lt
  have hlen : A.len < 2 ^ 29 := by
    have hle := A.len_le
    omega
  obtain ⟨m, o, halloc, rfl, hroom, rfl⟩ := allocObject_exact hlen hobject
  have hexact := h.after (by exact rfl) (by exact Nat.lt_trans hhigh hb) hafter
  set B := A.withFields ((t.withMem m).operands A.fields.length) with hB
  have hBlen : B.len = A.len := A.withFields_len _ (State.operands_length _ _)
  have hBheader : B.header = A.header := by
    rw [Aggregate.header, hBlen, hB, Aggregate.withFields_type]
    rfl
  have hBcontents : B.contents.length = A.contents.length := by
    rw [Aggregate.contents_length, Aggregate.contents_length, hB, Aggregate.withFields_first,
      Aggregate.withFields_fields, State.operands_length]
  have hheap : s'.mem.heap = m.heap.setWords o (B.header :: 0 :: B.contents) := by
    rw [hexact, hBheader, ← setWords_cons, ← setWords_cons]
    rfl
  refine ⟨t, m, o, hreq, hready, halloc, ?_, ?_, ?_, fun k hk => ?_⟩
  · rw [hheap]
    exact represents_setWords ((A.withFields_proper _).mpr h.proper) (by rw [hBlen]; exact hlen)
      (by rw [hBcontents]; exact hroom)
  · rw [hexact]
    rfl
  · rw [hheap]
    exact ⟨rfl, rfl, rfl, rfl⟩
  · rw [hheap, setWords_below hk]

end Lama

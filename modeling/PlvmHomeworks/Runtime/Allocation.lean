import PlvmHomeworks.Runtime.Collect

/-! The allocators `alloc_string`, `alloc_array`, `alloc_sexp` and `alloc_closure`, over whole
    histories of a heap: their calls, collections, and what the program writes in between.

    A history carries the list of the objects that have been allocated and not reclaimed, with what
    was asked for; the heap itself has only their headers. -/

namespace Lama
open Sliding Runs

/-! ### The allocators -/

def Memory.store (m : Memory) (a : ℕ) (v : Word) : Option Memory := do
  return { m with heap := ← m.heap.store a v }

/-- The block of a new object, with its `data_header` and its `forward_address`. -/
def Memory.allocData (roots : Roots) (mremap : Option ℕ) (type : LamaType) (len : ℕ) (m : Memory) :
    Option (ℕ × Memory) := do
  let (p, m) ← alloc roots mremap (objBytes type len) m
  let p ← p
  let m ← m.store p (headerWord type len)
  let m ← m.store (p + 1) 0
  return (p, m)

/-- `alloc_string`, `alloc_array`, `alloc_closure`. -/
def Memory.allocString (roots : Roots) (mremap : Option ℕ) (len : ℕ) (m : Memory) :
    Option (ℕ × Memory) := m.allocData roots mremap .string len
def Memory.allocArray (roots : Roots) (mremap : Option ℕ) (len : ℕ) (m : Memory) :
    Option (ℕ × Memory) := m.allocData roots mremap .array len
def Memory.allocClosure (roots : Roots) (mremap : Option ℕ) (captured : ℕ) (m : Memory) :
    Option (ℕ × Memory) := m.allocData roots mremap .closure captured

/-- `alloc_sexp` clears `tag` as well. -/
def Memory.allocSexp (roots : Roots) (mremap : Option ℕ) (members : ℕ) (m : Memory) :
    Option (ℕ × Memory) := do
  let (p, m) ← m.allocData roots mremap .sexp members
  let m ← m.store (p + 2) 0
  return (p, m)

/-- The allocator of a type. -/
def Memory.allocOf (roots : Roots) (mremap : Option ℕ) (type : LamaType) (len : ℕ) (m : Memory) :
    Option (ℕ × Memory) :=
  match type with
  | .string => m.allocString roots mremap len
  | .array => m.allocArray roots mremap len
  | .closure => m.allocClosure roots mremap len
  | .sexp => m.allocSexp roots mremap len

/-- `__init`: `INIT_HEAP_SIZE` words where `mmap` found room. -/
def initHeap (begin : ℕ) : MemoryChunk where
  begin
  end_ := begin + minimumHeapCapacity
  current := begin
  size := minimumHeapCapacity
  words _ := 0

/-- A loop over the heap like that of `compute_locations`: the headers that the iterator visits, and
    where it stops. -/
def walk (h : MemoryChunk) : ℕ → ℕ → Option (List ℕ × ℕ)
  | 0, _ => none
  | fuel + 1, it => do
    if heapIsDone h it then return ([], it)
    let (visited, last) ← walk h fuel (← heapNextObj h it)
    return (it :: visited, last)

/-! ### Histories -/

/-- An object as it was asked for, at an offset from `heap.begin`. -/
structure HeapObject where
  offset : ℕ
  type : LamaType
  len : ℕ

def HeapObject.size (o : HeapObject) : ℕ := bytesToWords (objBytes o.type o.len)

/-- The memory, and the objects that have been allocated and not reclaimed. -/
structure HeapState where
  mem : Memory
  objects : List HeapObject

def HeapState.offsets (s : HeapState) : List ℕ := s.objects.map HeapObject.offset

/-- The addresses of the headers. -/
def HeapState.headers (s : HeapState) : List ℕ := s.offsets.map (s.mem.heap.begin + ·)

open scoped Classical in
/-- The objects that a collection keeps: those that the roots reach, at their new offsets. -/
noncomputable def HeapState.survivors (s : HeapState) (roots : Roots) : List HeapObject :=
  (s.objects.filter fun o => o.offset ∈ liveObjects s.mem s.offsets roots).map fun o =>
    { o with offset := newOffset s.mem.heap s.offsets (liveObjects s.mem s.offsets roots) o.offset }

/-- The objects that a request for `size` words keeps: it collects when it does not fit. -/
noncomputable def HeapState.kept (s : HeapState) (roots : Roots) (size : ℕ) : List HeapObject :=
  if s.mem.heap.current + size ≤ s.mem.heap.end_ then s.objects else s.survivors roots

/-- What a collection for `size` words relies on: the fields and the roots are values or point out of
    the heap, `mremap` finds room for the grown heap at `begin`, and no size overflows. -/
structure Collectable (s : HeapState) (roots : Roots) (begin size : ℕ) : Prop where
  fields : ∀ p ∈ s.offsets, ∀ k, IsField s.mem.heap p k →
    ValidWord s.mem.heap s.offsets (s.mem.heap.words k)
  valid : ValidRoots s.mem s.offsets roots
  mapped : 0 < begin
  fits : FitsAt s.mem s.offsets roots begin size

/-- What a call relies on: its length is not too large, no address overflows, and the heap can be
    collected if there is no room. -/
structure Callable (s : HeapState) (roots : Roots) (mremap : Option ℕ) (type : LamaType) (len : ℕ) :
    Prop where
  len_lt : len < 2 ^ 28
  address : s.mem.heap.current + bytesToWords (objBytes type len) < 2 ^ 30
  collects : ¬ s.mem.heap.current + bytesToWords (objBytes type len) ≤ s.mem.heap.end_ →
    ∃ begin, mremap = some begin ∧
      Collectable s roots begin (bytesToWords (objBytes type len))

/-- The program writes anywhere but to `heap` and to the headers of the objects. -/
structure Writes (s : HeapState) (m : Memory) : Prop where
  bounds : SameBounds s.mem.heap m.heap
  header : ∀ p ∈ s.offsets, m.heap.words p = s.mem.heap.words p
  forward : ∀ p ∈ s.offsets, m.heap.words (p + 1) = s.mem.heap.words (p + 1)

/-- A step of a history. A collection on its own is a `gc_alloc(0)`. -/
inductive HeapStep : HeapState → HeapState → Prop
  | write {s : HeapState} {m : Memory} : Writes s m → HeapStep s ⟨m, s.objects⟩
  | collect {s : HeapState} {roots : Roots} {begin : ℕ} {p : Option ℕ} {m : Memory} :
      Collectable s roots begin 0 → gcAlloc roots (some begin) 0 s.mem = some (p, m) →
      HeapStep s ⟨m, s.survivors roots⟩
  | call {s : HeapState} {roots : Roots} {mremap : Option ℕ} {type : LamaType} {len p : ℕ}
      {m : Memory} : Callable s roots mremap type len →
      s.mem.allocOf roots mremap type len = some (p, m) →
      HeapStep s ⟨m, s.kept roots (bytesToWords (objBytes type len)) ++
        [⟨p - m.heap.begin, type, len⟩]⟩

/-- After `__init`. -/
def Initialised : Set HeapState :=
  {s | ∃ ram begin, 0 < begin ∧ begin + minimumHeapCapacity < 2 ^ 30 ∧
    s = ⟨⟨ram, initHeap begin⟩, []⟩}

/-- The iterator visits the headers of the objects, upwards, and each is the one that was asked for;
    it stops at `heap.current`. -/
structure Walkable (s : HeapState) : Prop where
  visits : walk s.mem.heap s.mem.heap.fuel s.mem.heap.begin = some (s.headers, s.mem.heap.current)
  upwards : s.headers.Pairwise (· < ·)
  header : ∀ o ∈ s.objects, ∃ x, s.mem.heap.load (s.mem.heap.begin + o.offset) = some x ∧
    lenOf x = o.len ∧ tagOf x = o.type.tag
  room : s.mem.heap.current ≤ s.mem.heap.end_

/-- At `p` there is a block of `m` for an object of this type and length, behind the other objects,
    with the right header and zeros after it. -/
structure NewBlock (m : Memory) (others : List HeapObject) (type : LamaType) (len p : ℕ) : Prop where
  nonnull : 0 < p
  inside : m.heap.begin ≤ p ∧ p + bytesToWords (objBytes type len) ≤ m.heap.end_
  apart : ∀ o ∈ others, m.heap.begin + o.offset + o.size ≤ p
  header : ∃ x, m.heap.load p = some x ∧ lenOf x = len ∧ tagOf x = type.tag
  zero : ∀ k, 0 < k → k < bytesToWords (objBytes type len) → m.heap.load (p + k) = some 0

/-! ### Walking -/

/-- The iterator visits the objects that are left and stops at `heap.current`. -/
theorem Objects.walk_from {h : MemoryChunk} {objects : List ℕ} (hs : Objects h objects) :
    ∀ {post : List ℕ} {a fuel : ℕ}, post ⊆ objects →
      Tiles (wordsAt h) a post (h.current - h.begin) → post.length < fuel →
      walk h fuel (h.begin + a) = some (post.map (h.begin + ·), h.current) := by
  have hbegin := hs.begin_le
  intro post
  induction post with
  | nil =>
    intro a fuel _ ht hfuel
    obtain rfl : a = h.current - h.begin := ht
    obtain ⟨n, rfl⟩ : ∃ n, fuel = n + 1 := ⟨fuel - 1, by simp at hfuel; omega⟩
    rw [walk, Nat.add_sub_cancel' hbegin, if_pos (by simp [heapIsDone])]
    rfl
  | cons p post ih =>
    intro a fuel hsub ht hfuel
    obtain ⟨rfl, -, ht⟩ := ht
    obtain ⟨n, rfl⟩ : ∃ n, fuel = n + 1 := ⟨fuel - 1, by simp at hfuel; omega⟩
    have hp : p ∈ objects := hsub (List.mem_cons_self ..)
    have hnot : heapIsDone h (h.begin + p) = false := by
      have := hs.bounds hp
      simp only [heapIsDone, decide_eq_false_iff_not]
      omega
    have hrest : walk h n (h.begin + (p + objectWords (h.words p))) = _ :=
      ih (fun q hq => hsub (List.mem_cons_of_mem _ hq)) ht
        (by simpa using hfuel)
    rw [walk, hnot, (hs.object hp).next]
    simp only [Bool.false_eq_true, if_false, Option.bind_eq_bind, Option.bind_some]
    rw [hrest]
    rfl

/-- The iterator visits every object, in order. -/
theorem Objects.walk {h : MemoryChunk} {objects : List ℕ} (hs : Objects h objects) :
    Lama.walk h h.fuel h.begin = some (objects.map (h.begin + ·), h.current) :=
  hs.walk_from (List.Subset.refl _) hs.tiles hs.length_lt_fuel

/-! ### Requests -/

/-- The heap with a block of `size` zeros taken from its free end. -/
def MemoryChunk.bump (h : MemoryChunk) (size : ℕ) : MemoryChunk :=
  { h with
    current := h.current + size
    words := fun k =>
      if h.current - h.begin ≤ k ∧ k < h.current - h.begin + size then 0 else h.words k }

theorem bump_begin (h : MemoryChunk) (size : ℕ) : (h.bump size).begin = h.begin := rfl

/-- Where addresses do not wrap, a block is taken exactly when there is room. -/
theorem gcAllocOnExistingHeap_eq {h : MemoryChunk} {size : ℕ} (hlt : h.current + size < 2 ^ 30) :
    gcAllocOnExistingHeap h size =
      some (if h.current + size ≤ h.end_ then (some h.current, h.bump size) else (none, h)) := by
  have h30 : (h.current + size) % 2 ^ 30 = h.current + size := Nat.mod_eq_of_lt hlt
  have hsize : size % 2 ^ 30 = size := Nat.mod_eq_of_lt (by omega)
  rw [gcAllocOnExistingHeap, h30, hsize]
  split <;> rfl

/-- The objects lie one after another up to the offset `free`, with the headers they were given, and
    a block of `size` zeros is behind them. -/
structure Reserved (h : MemoryChunk) (objects : List HeapObject) (free size : ℕ) : Prop where
  tiles : Tiles (wordsAt h) 0 (objects.map HeapObject.offset) free
  header : ∀ o ∈ objects, o.len < 2 ^ 28 ∧ h.words o.offset = headerWord o.type o.len
  unmarked : ∀ o ∈ objects, getMarkBit (h.words (o.offset + 1)) = false
  dequeued : ∀ o ∈ objects, isEnqueuedBit (h.words (o.offset + 1)) = false
  zero : ∀ k, free ≤ k → k < free + size → h.words k = 0
  pos : 0 < h.begin
  current : h.current = h.begin + free + size
  room : h.current ≤ h.end_
  span : h.end_ = h.begin + h.size
  fits : h.end_ < 2 ^ 30

theorem objBytes_lt (type : LamaType) {len : ℕ} (hlen : len < 2 ^ 28) :
    8 ≤ objBytes type len ∧ objBytes type len < 2 ^ 32 := by
  cases type <;> simp only [objBytes] <;> omega

theorem two_le_bytesToWords (type : LamaType) {len : ℕ} (hlen : len < 2 ^ 28) :
    2 ≤ bytesToWords (objBytes type len) := by
  have := objBytes_lt type hlen
  rw [bytesToWords_eq (by omega) this.2]
  omega

/-- The object behind a new header is as large as the block that was asked for. -/
theorem headerWord_words {type : LamaType} {len : ℕ} (hlen : len < 2 ^ 28) :
    objectWords (headerWord type len) = bytesToWords (objBytes type len) := by
  have hlen' : len < 2 ^ 29 := by omega
  rw [objectWords, headerWord_tag hlen', ofTag_eq_some_iff.mpr rfl, headerWord_len hlen']

section Reserved
variable {h : MemoryChunk} {objects : List HeapObject} {free size : ℕ}

theorem Reserved.layout (hr : Reserved h objects free 0) :
    Objects h (objects.map HeapObject.offset) where
  tiles := by
    rw [hr.current, show h.begin + free + 0 - h.begin = free by omega]
    exact hr.tiles
  begin_le := by
    rw [hr.current]
    omega
  current_le := hr.room
  span := hr.span
  fits := hr.fits

/-- An object ends at the block or before it. -/
theorem Reserved.ends (hr : Reserved h objects free size) {o : HeapObject} (ho : o ∈ objects) :
    o.offset + o.size ≤ free ∧ 2 ≤ o.size := by
  obtain ⟨hlen, hheader⟩ := hr.header o ho
  have hle := (hr.tiles.bounds (List.mem_map_of_mem ho)).2.1
  rw [wordsAt, hheader, headerWord_words hlen] at hle
  exact ⟨hle, two_le_bytesToWords _ hlen⟩

/-- The words up to the block do not depend on what is in it. -/
theorem Reserved.congr {h' : MemoryChunk} {size' : ℕ} (hr : Reserved h objects free size)
    (hwords : ∀ o ∈ objects, h'.words o.offset = h.words o.offset ∧
      h'.words (o.offset + 1) = h.words (o.offset + 1))
    (hzero : ∀ k, free ≤ k → k < free + size' → h'.words k = 0) (hbegin : h'.begin = h.begin)
    (hcurrent : h'.current = h.begin + free + size') (hroom : h'.current ≤ h.end_)
    (hend : h'.end_ = h.end_) (hsize : h'.size = h.size) : Reserved h' objects free size' where
  tiles := hr.tiles.congr fun p hp => by
    obtain ⟨o, ho, rfl⟩ := List.mem_map.mp hp
    rw [wordsAt, wordsAt, (hwords o ho).1]
  header o ho := by
    rw [(hwords o ho).1]
    exact hr.header o ho
  unmarked o ho := by
    rw [(hwords o ho).2]
    exact hr.unmarked o ho
  dequeued o ho := by
    rw [(hwords o ho).2]
    exact hr.dequeued o ho
  zero := hzero
  pos := by
    rw [hbegin]
    exact hr.pos
  current := by rw [hcurrent, hbegin]
  room := by
    rw [hend]
    exact hroom
  span := by rw [hend, hbegin, hsize, hr.span]
  fits := by
    rw [hend]
    exact hr.fits

/-- A new block lies behind the objects. -/
theorem Reserved.bump (hr : Reserved h objects free 0) (hroom : h.current + size ≤ h.end_) :
    Reserved (h.bump size) objects free size := by
  have hcur := hr.current
  have hblock : h.current - h.begin = free := by omega
  refine hr.congr (fun o ho => ?_) (fun k hlo hhi => ?_) rfl ?_ hroom rfl rfl
  · have := hr.ends ho
    simp only [MemoryChunk.bump, hblock]
    rw [if_neg (by omega), if_neg (by omega)]
    exact ⟨rfl, rfl⟩
  · simp only [MemoryChunk.bump, hblock]
    rw [if_pos ⟨hlo, hhi⟩]
  · show h.current + size = _
    omega

/-- The allocator writes the header of the object, and the block becomes part of the objects. -/
theorem Reserved.build {type : LamaType} {len : ℕ} (hlen : len < 2 ^ 28)
    (hr : Reserved h objects free (bytesToWords (objBytes type len))) :
    Reserved (h.setWord free (headerWord type len)) (objects ++ [⟨free, type, len⟩])
      (free + bytesToWords (objBytes type len)) 0 := by
  have hsize := two_le_bytesToWords type hlen
  have hnew : (h.setWord free (headerWord type len)).words free = headerWord type len := if_pos rfl
  have hother : ∀ {k}, k ≠ free → (h.setWord free (headerWord type len)).words k = h.words k :=
    fun hk => if_neg hk
  have hends : ∀ o ∈ objects, o.offset ≠ free ∧ o.offset + 1 ≠ free := fun o ho => by
    have := hr.ends ho
    omega
  have hclear : (h.setWord free (headerWord type len)).words (free + 1) = 0 := by
    rw [hother (by omega)]
    exact hr.zero _ (by omega) (by omega)
  have hall : ∀ {P : HeapObject → Prop}, (∀ o ∈ objects, P o) → P ⟨free, type, len⟩ →
      ∀ o ∈ objects ++ [⟨free, type, len⟩], P o := by
    intro P hold hnew o ho
    rcases List.mem_append.mp ho with ho | ho
    · exact hold o ho
    · rw [List.mem_singleton.mp ho]
      exact hnew
  refine ⟨?_, hall (fun o ho => ?_) ⟨hlen, hnew⟩, hall (fun o ho => ?_) ?_, hall (fun o ho => ?_) ?_,
    fun k hlo hhi => absurd hhi (by omega), hr.pos, ?_, hr.room, hr.span, hr.fits⟩
  · have hwords : wordsAt (h.setWord free (headerWord type len)) free =
        bytesToWords (objBytes type len) := by rw [wordsAt, hnew, headerWord_words hlen]
    rw [List.map_append]
    refine (hr.tiles.congr fun p hp => ?_).concat ⟨rfl, by rw [hwords]; omega, by rw [hwords]; rfl⟩
    obtain ⟨o, ho, rfl⟩ := List.mem_map.mp hp
    rw [wordsAt, wordsAt, hother (hends o ho).1]
  · rw [hother (hends o ho).1]
    exact hr.header o ho
  · rw [hother (hends o ho).2]
    exact hr.unmarked o ho
  · rw [hclear]
    decide
  · rw [hother (hends o ho).2]
    exact hr.dequeued o ho
  · rw [hclear]
    decide
  · show h.current = _
    rw [hr.current, Nat.add_zero, Nat.add_assoc]
    rfl

end Reserved

section HeapState
variable {s : HeapState} {roots : Roots} {mremap : Option ℕ} {begin size free : ℕ}

theorem HeapState.mem_offsets {p : ℕ} (hp : p ∈ s.offsets) : ∃ o ∈ s.objects, o.offset = p :=
  List.mem_map.mp hp

theorem Reserved.wellFormed (hr : Reserved s.mem.heap s.objects free 0)
    (hc : Collectable s roots begin size) : WellFormed s.mem.heap s.offsets where
  toObjects := hr.layout
  unmarked p hp := by
    obtain ⟨o, ho, rfl⟩ := HeapState.mem_offsets hp
    exact hr.unmarked o ho
  dequeued p hp := by
    obtain ⟨o, ho, rfl⟩ := HeapState.mem_offsets hp
    exact hr.dequeued o ho
  fields := hc.fields

theorem HeapState.mem_survivors {o : HeapObject} (ho : o ∈ s.survivors roots) :
    ∃ o' ∈ s.objects, o'.offset ∈ liveObjects s.mem s.offsets roots ∧
      o = ⟨newOffset s.mem.heap s.offsets (liveObjects s.mem s.offsets roots) o'.offset,
        o'.type, o'.len⟩ := by
  obtain ⟨o', ho', rfl⟩ := List.mem_map.mp ho
  obtain ⟨hmem, hlive⟩ := List.mem_filter.mp ho'
  exact ⟨o', hmem, by simpa using hlive, rfl⟩

theorem HeapState.mem_survivors_of {o : HeapObject} (ho : o ∈ s.objects)
    (hlive : o.offset ∈ liveObjects s.mem s.offsets roots) :
    { o with offset := newOffset s.mem.heap s.offsets (liveObjects s.mem s.offsets roots) o.offset } ∈
      s.survivors roots :=
  List.mem_map_of_mem (List.mem_filter.mpr ⟨ho, by simpa using hlive⟩)

/-- A collection leaves the survivors one after another, and a block behind them. -/
theorem Reserved.collect (hr : Reserved s.mem.heap s.objects free 0)
    (hc : Collectable s roots begin size) :
    ∃ n m', gcAlloc roots (some begin) size s.mem = some (some (m'.heap.begin + n), m') ∧
      Reserved m'.heap (s.survivors roots) n size := by
  obtain ⟨m', hrun, hcompacted, ⟨hspan, hlt⟩, -⟩ :=
    gcAlloc_compacts (hr.wellFormed hc) hc.valid hc.fits
  have hbegin := hcompacted.begin_eq
  -- each survivor is the image of an object
  have himage : ∀ o ∈ s.survivors roots, o.len < 2 ^ 28 ∧
      m'.heap.words o.offset = headerWord o.type o.len ∧
      getMarkBit (m'.heap.words (o.offset + 1)) = false ∧
      isEnqueuedBit (m'.heap.words (o.offset + 1)) = false := by
    intro o ho
    obtain ⟨o', ho', hlive, rfl⟩ := HeapState.mem_survivors ho
    have him := hcompacted.images o'.offset (List.mem_map_of_mem ho') hlive
    obtain ⟨hlen, hheader⟩ := hr.header o' ho'
    exact ⟨hlen, him.header.trans hheader, him.unmarked, him.dequeued⟩
  refine ⟨_, m', by rw [hbegin]; exact hrun, ?_, fun o ho => ?_, fun o ho => ?_, fun o ho => ?_,
    hcompacted.block, ?_, ?_, hcompacted.room, ?_, hlt⟩
  · have hpacked := hcompacted.packed
    rw [HeapState.offsets, List.filter_map, List.map_map] at hpacked
    rw [HeapState.survivors, List.map_map]
    exact hpacked
  · exact ⟨(himage o ho).1, (himage o ho).2.1⟩
  · exact (himage o ho).2.2.1
  · exact (himage o ho).2.2.2
  · rw [hbegin]
    exact hc.mapped
  · rw [hbegin]
    exact hcompacted.current
  · rw [hbegin]
    exact hspan

/-- `alloc` takes a block where there is room, and collects where there is none. -/
theorem alloc_eq {bytes : ℕ} {m : Memory} (hlt : m.heap.current + bytesToWords bytes < 2 ^ 30) :
    alloc roots mremap bytes m =
      if m.heap.current + bytesToWords bytes ≤ m.heap.end_ then
        some (some m.heap.current, { m with heap := m.heap.bump (bytesToWords bytes) })
      else gcAlloc roots mremap (bytesToWords bytes) m := by
  rw [alloc]
  split
  · next hroom =>
    rw [gcAllocOnExistingHeap_eq hlt, if_pos hroom]
    rfl
  · next hroom =>
    rw [gcAllocOnExistingHeap_eq hlt, if_neg hroom]
    rfl

/-- `alloc` finds a block behind the objects that it keeps. -/
theorem Reserved.alloc {type : LamaType} {len : ℕ} (hr : Reserved s.mem.heap s.objects free 0)
    (hc : Callable s roots mremap type len) :
    ∃ n m', Lama.alloc roots mremap (objBytes type len) s.mem =
        some (some (m'.heap.begin + n), m') ∧
      Reserved m'.heap (s.kept roots (bytesToWords (objBytes type len))) n
        (bytesToWords (objBytes type len)) := by
  by_cases hroom : s.mem.heap.current + bytesToWords (objBytes type len) ≤ s.mem.heap.end_
  · have hcur : s.mem.heap.current = s.mem.heap.begin + free := hr.current
    have hrun : Lama.alloc roots mremap (objBytes type len) s.mem =
        some (some ((s.mem.heap.bump (bytesToWords (objBytes type len))).begin + free),
          { s.mem with heap := s.mem.heap.bump (bytesToWords (objBytes type len)) }) := by
      rw [alloc_eq hc.address, if_pos hroom, bump_begin, hcur]
    refine ⟨free, { s.mem with heap := s.mem.heap.bump (bytesToWords (objBytes type len)) }, hrun,
      ?_⟩
    rw [HeapState.kept, if_pos hroom]
    exact hr.bump hroom
  · obtain ⟨begin, rfl, hcollect⟩ := hc.collects hroom
    rw [alloc_eq hc.address, if_neg hroom, HeapState.kept, if_neg hroom]
    exact hr.collect hcollect

/-- The size that `compact_phase` asks `mremap` for. -/
theorem gcAlloc_size {p : ℕ} {m m' : Memory} (hn : roots.extraRoots.Nodup)
    (h : gcAlloc roots (some begin) size m = some (some p, m')) :
    ∃ live, p = begin + live ∧ m'.heap.size = nextHeapPseudoSize live size m.heap.size := by
  obtain ⟨m₁, hmark, h⟩ := Option.bind_eq_some_iff.mp h
  obtain ⟨m₂, hcompact, h⟩ := Option.bind_eq_some_iff.mp h
  obtain ⟨⟨q, g⟩, halloc, h⟩ := Option.bind_eq_some_iff.mp h
  cases h
  obtain ⟨hbounds, -⟩ := markPhase_keeps hmark
  obtain ⟨⟨old, live⟩, hlocations, hcompact⟩ := Option.bind_eq_some_iff.mp hcompact
  obtain ⟨begin', hbegin, hcompact⟩ := Option.bind_eq_some_iff.mp hcompact
  cases hbegin
  obtain ⟨m₃, hupdate, hcompact⟩ := Option.bind_eq_some_iff.mp hcompact
  obtain ⟨h₄, hrelocate, hcompact⟩ := Option.bind_eq_some_iff.mp hcompact
  cases hcompact
  obtain ⟨h₅, hobjects, hupdate⟩ := Option.bind_eq_some_iff.mp hupdate
  obtain ⟨m₆, hstack, hroots⟩ := Option.bind_eq_some_iff.mp hupdate
  have hold : SameBounds m.heap old := hbounds.trans (computeLocations_bounds hlocations)
  have hheap : m₃.heap = h₅ :=
    (scanAndFixRegionRoots_ok hn hroots).1.trans (scanAndFixRegion_ok (region_nodup _ _) hstack).1
  have hmoved := updateObjects_bounds hobjects
  rw [← hheap] at hmoved
  have hslid := hmoved.trans (relocateLoop_bounds hrelocate)
  have hsize : h₄.size = nextHeapPseudoSize live size m.heap.size :=
    hslid.size.trans (by rw [← hold.size]; rfl)
  have hbegin : h₄.begin = begin := hslid.begin
  refine ⟨live, ?_, ?_⟩
  · unfold gcAllocOnExistingHeap at halloc
    split at halloc
    · split at halloc
      · cases halloc
        rw [hbegin]
      · cases halloc
    · cases halloc
  · rw [← hsize]
    unfold gcAllocOnExistingHeap at halloc
    split at halloc
    · split at halloc
      · cases halloc
        rfl
      · cases halloc
    · cases halloc

/-- As many words as the heap may have after a request for `size` of them, if every object survives. -/
def MemoryChunk.grown (h : MemoryChunk) (size : ℕ) : ℕ :=
  max (max ((h.current - h.begin) * extraRoomHeapCoefficient + size) minimumHeapCapacity) h.size

/-- The survivors are not more than there were. -/
theorem Reserved.liveWords_le {m : Memory} {os : List HeapObject} (hr : Reserved m.heap os free 0)
    (live : Set ℕ) :
    liveWords m.heap (os.map HeapObject.offset) live ≤ m.heap.current - m.heap.begin := by
  have hle : 0 + liveWords m.heap (os.map HeapObject.offset) live ≤ free := hr.tiles.total_le
  have hcur := hr.current
  omega

/-! ### Calls -/

/-- The memory with a word of the heap replaced. -/
def Memory.setWord (m : Memory) (k : ℕ) (v : Word) : Memory := { m with heap := m.heap.setWord k v }

theorem store_at {m : Memory} {k : ℕ} {v : Word} (hk : m.heap.begin + k < m.heap.end_) :
    m.store (m.heap.begin + k) v = some (m.setWord k v) := by
  rw [Memory.store, store_add hk]
  rfl

theorem setWord_self (h : MemoryChunk) (k : ℕ) : h.setWord k (h.words k) = h := by
  have hsame : (fun j => if j = k then h.words k else h.words j) = h.words := funext fun j => by
    split
    · next heq => rw [heq]
    · rfl
  rw [MemoryChunk.setWord, hsame]

/-- Clearing a word that is clear. -/
theorem store_clear {m : Memory} {k : ℕ} (hk : m.heap.begin + k < m.heap.end_)
    (h0 : m.heap.words k = 0) : m.store (m.heap.begin + k) 0 = some m := by
  rw [store_at hk, Memory.setWord, ← h0, setWord_self]

/-- An allocator writes one header into the block that `alloc` finds. -/
theorem Reserved.allocOf {type : LamaType} {len : ℕ} (hr : Reserved s.mem.heap s.objects free 0)
    (hc : Callable s roots mremap type len) :
    ∃ n, ∃ m' : Memory, s.mem.allocOf roots mremap type len =
        some (m'.heap.begin + n, m'.setWord n (headerWord type len)) ∧
      Reserved m'.heap (s.kept roots (bytesToWords (objBytes type len))) n
        (bytesToWords (objBytes type len)) := by
  obtain ⟨n, m', halloc, hres⟩ := hr.alloc hc
  have hsize := two_le_bytesToWords type hc.len_lt
  have hin : ∀ k, k < bytesToWords (objBytes type len) →
      m'.heap.begin + (n + k) < m'.heap.end_ := fun k hk => by
    have := hres.current
    have := hres.room
    omega
  -- the words behind the header are clear already
  have hclear : ∀ k, 0 < k → k < bytesToWords (objBytes type len) →
      (m'.setWord n (headerWord type len)).store (m'.heap.begin + n + k) 0 =
        some (m'.setWord n (headerWord type len)) := fun k h0 hk => by
    rw [Nat.add_assoc]
    refine store_clear (m := m'.setWord n (headerWord type len)) (hin k hk) ?_
    exact (if_neg (by omega)).trans (hres.zero (n + k) (by omega) (by omega))
  have hdata : s.mem.allocData roots mremap type len =
      some (m'.heap.begin + n, m'.setWord n (headerWord type len)) := by
    have hfirst := store_at (v := headerWord type len) (hin 0 (by omega))
    rw [Nat.add_zero] at hfirst
    rw [Memory.allocData, halloc]
    simp only [Option.bind_eq_bind, Option.bind_some]
    rw [hfirst, Option.bind_some, hclear 1 (by omega) (by omega)]
    rfl
  refine ⟨n, m', ?_, hres⟩
  cases type with
  | string => exact hdata
  | array => exact hdata
  | closure => exact hdata
  | sexp =>
    have hthree : 2 < bytesToWords (objBytes .sexp len) := by
      have hlen := hc.len_lt
      have := objBytes_lt .sexp hlen
      rw [bytesToWords_eq (by omega) this.2]
      simp only [objBytes]
      omega
    rw [Memory.allocOf, Memory.allocSexp, hdata]
    simp only [Option.bind_eq_bind, Option.bind_some]
    rw [hclear 2 (by omega) hthree]
    rfl

theorem load_headerWord {h : MemoryChunk} {k len : ℕ} {type : LamaType} (hlen : len < 2 ^ 28)
    (hk : h.begin + k < h.end_) (hw : h.words k = headerWord type len) :
    ∃ x, h.load (h.begin + k) = some x ∧ lenOf x = len ∧ tagOf x = type.tag :=
  ⟨_, load_add hk, by rw [hw, headerWord_len (by omega)], by rw [hw, headerWord_tag (by omega)]⟩

/-- What an allocator returns is a new block. -/
theorem Reserved.newBlock {m : Memory} {objects : List HeapObject} {n len : ℕ} {type : LamaType}
    (hlen : len < 2 ^ 28) (hr : Reserved m.heap objects n (bytesToWords (objBytes type len))) :
    NewBlock (m.setWord n (headerWord type len)) objects type len (m.heap.begin + n) := by
  have hsize := two_le_bytesToWords type hlen
  have hpos := hr.pos
  have hcur := hr.current
  have hroom := hr.room
  refine ⟨by omega, ⟨Nat.le_add_right _ _, ?_⟩, fun o ho => ?_, ?_, fun k h0 hk => ?_⟩
  · show _ ≤ m.heap.end_
    omega
  · have hends := (hr.ends ho).1
    show m.heap.begin + o.offset + o.size ≤ m.heap.begin + n
    omega
  · refine load_headerWord (h := m.heap.setWord n (headerWord type len)) hlen ?_ (if_pos rfl)
    show m.heap.begin + n < m.heap.end_
    omega
  · have hin : (m.heap.setWord n (headerWord type len)).begin + (n + k) <
        (m.heap.setWord n (headerWord type len)).end_ := by
      show m.heap.begin + (n + k) < m.heap.end_
      omega
    rw [Nat.add_assoc]
    exact (load_add hin).trans
      (congrArg some ((if_neg (by omega)).trans (hr.zero _ (by omega) (by omega))))

/-! ### Whole histories -/

/-- The invariant: the objects fill the heap up to `heap.current`. -/
def HeapState.Filled (s : HeapState) : Prop := ∃ free, Reserved s.mem.heap s.objects free 0

theorem Initialised.filled (h : s ∈ Initialised) : s.Filled := by
  obtain ⟨ram, begin, hpos, hlt, rfl⟩ := h
  exact ⟨0, rfl, fun o ho => absurd ho List.not_mem_nil, fun o ho => absurd ho List.not_mem_nil,
    fun o ho => absurd ho List.not_mem_nil, fun _ _ _ => rfl, hpos, rfl, Nat.le_add_right _ _, rfl, hlt⟩

/-- Every step keeps the heap filled. -/
theorem HeapStep.filled {t : HeapState} (hstep : HeapStep s t) (hs : s.Filled) : t.Filled := by
  obtain ⟨free, hr⟩ := hs
  cases hstep with
  | write hw =>
    have hoffset : ∀ o ∈ s.objects, o.offset ∈ s.offsets := fun o ho => List.mem_map_of_mem ho
    refine ⟨free, hr.congr (fun o ho => ⟨hw.header _ (hoffset o ho), hw.forward _ (hoffset o ho)⟩)
      (fun k hlo hhi => absurd hhi (by omega)) hw.bounds.begin ?_ ?_ hw.bounds.end_ hw.bounds.size⟩
    · rw [hw.bounds.current, hr.current]
    · rw [hw.bounds.current]
      exact hr.room
  | collect hc hrun =>
    obtain ⟨n, m', hrun', hres⟩ := hr.collect hc
    rw [hrun'] at hrun
    cases hrun
    exact ⟨n, hres⟩
  | @call roots mremap type len _ _ hc hrun =>
    obtain ⟨n, m', hrun', hres⟩ := hr.allocOf hc
    rw [hrun'] at hrun
    cases hrun
    have hbuild := hres.build hc.len_lt
    refine ⟨n + bytesToWords (objBytes type len), ?_⟩
    show Reserved (m'.heap.setWord n _) (_ ++ [⟨m'.heap.begin + n - m'.heap.begin, _, _⟩]) _ 0
    rw [Nat.add_sub_cancel_left]
    exact hbuild

/-- A filled heap can be walked. -/
theorem HeapState.Filled.walkable (hs : s.Filled) : Walkable s := by
  obtain ⟨free, hr⟩ := hs
  refine ⟨hr.layout.walk, ?_, fun o ho => ?_, hr.room⟩
  · refine List.Pairwise.map _ (fun a b hab => Nat.add_lt_add_left hab _) ?_
    exact hr.tiles.pairwise
  · obtain ⟨hlen, hheader⟩ := hr.header o ho
    refine load_headerWord hlen ?_ hheader
    have := hr.ends ho
    have := hr.current
    have := hr.room
    omega

theorem filled_of_reachable (h : s ∈ Reachable HeapStep Initialised) : s.Filled :=
  Closed.reachable_subset (S := {t : HeapState | t.Filled}) (fun _ hs _ hstep => hstep.filled hs)
    (fun _ h => Initialised.filled h) h

/-- In every state that calls, collections and writes lead to, the heap can be walked, every call
    returns a new block, and every collection returns. -/
theorem heap_walkable (h : s ∈ Reachable HeapStep Initialised) :
    Walkable s ∧
    (∀ roots mremap type len, Callable s roots mremap type len →
      ∃ p m, s.mem.allocOf roots mremap type len = some (p, m) ∧
        NewBlock m (s.kept roots (bytesToWords (objBytes type len))) type len p) ∧
    ∀ roots begin, Collectable s roots begin 0 →
      ∃ p m, gcAlloc roots (some begin) 0 s.mem = some (p, m) := by
  obtain ⟨free, hr⟩ := filled_of_reachable h
  refine ⟨(filled_of_reachable h).walkable, fun roots mremap type len hc => ?_, fun roots begin hc => ?_⟩
  · obtain ⟨n, m', hrun, hres⟩ := hr.allocOf hc
    exact ⟨_, _, hrun, hres.newBlock hc.len_lt⟩
  · obtain ⟨n, m', hrun, -⟩ := hr.collect hc
    exact ⟨_, m', hrun⟩

/-- The state after `__init` with the heap at 16, the other words being boxed zeros. -/
def initState : HeapState := ⟨⟨fun _ => 1, initHeap 16⟩, []⟩

/-- A stack of one word and no other roots. -/
def shallowRoots : Roots := ⟨100, 102, [], 200, 200⟩

/-- An array of three does not fit into the first heap: the call collects, and `mremap` moves the heap
    to 64. -/
theorem initState_callable : Callable initState shallowRoots (some 64) .array 3 := by
  have hwords : bytesToWords (objBytes .array 3) = 5 := by decide
  have hout : ∀ a, isValidHeapPointer initState.mem.heap (initState.mem.ram a) = false :=
    fun a => by
      rw [show initState.mem.ram a = 1 from rfl]
      decide
  have hvalid : ∀ a, ValidWord initState.mem.heap initState.offsets (initState.mem.ram a) :=
    fun a h => by
      rw [hout a] at h
      cases h
  refine ⟨by decide, by rw [hwords]; decide, fun _ => ⟨64, rfl, ?_⟩⟩
  refine ⟨fun p hp => absurd hp List.not_mem_nil, ⟨fun a _ => hvalid a, fun a _ => hvalid a,
    List.nodup_nil, hout _, fun a _ => hout a⟩, by decide, ?_⟩
  have hlive : liveWords initState.mem.heap initState.offsets
      (liveObjects initState.mem initState.offsets shallowRoots) = 0 := by
    simp [initState, HeapState.offsets, liveWords, total]
  rw [FitsAt, hlive, hwords]
  decide

theorem heap_walkable_firstArray : ∃ p m,
    initState.mem.allocOf shallowRoots (some 64) .array 3 = some (p, m) ∧
      NewBlock m [] .array 3 p ∧
      walk m.heap m.heap.fuel m.heap.begin = some ([p], m.heap.current) := by
  have hinit : initState ∈ Reachable HeapStep Initialised :=
    subset_reachable ⟨_, 16, by decide, by decide, rfl⟩
  obtain ⟨p, m, hrun, hblock⟩ := (heap_walkable hinit).2.1 _ _ _ _ initState_callable
  have hkept : initState.kept shallowRoots (bytesToWords (objBytes .array 3)) = [] := by
    rw [HeapState.kept, if_neg (by decide)]
    rfl
  have hwalk := (heap_walkable (closed_reachable _ hinit _ (.call initState_callable hrun))).1.visits
  rw [hkept] at hblock hwalk
  refine ⟨p, m, hrun, hblock, hwalk.trans ?_⟩
  simp only [HeapState.headers, HeapState.offsets, List.nil_append, List.map_cons, List.map_nil,
    Nat.add_sub_cancel' hblock.inside.1]

end HeapState

end Lama

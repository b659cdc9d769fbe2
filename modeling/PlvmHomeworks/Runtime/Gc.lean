import PlvmHomeworks.Runtime.Heap

/-! The collector: `gc.c`, built with `LAMA_ENV`.

    `Memory` is the heap and the words outside it, by word address. Where `mremap` puts the heap is
    an input (`none` is `MAP_FAILED`). -/

namespace Lama

/-- The heap, and the rest of the address space. -/
structure Memory where
  ram : ℕ → Word
  heap : MemoryChunk

def Memory.setRam (m : Memory) (a : ℕ) (v : Word) : Memory :=
  { m with ram := fun b => if b = a then v else m.ram b }

/-- `__gc_stack_top`, `__gc_stack_bottom`, the pool of extra roots in the order they were pushed,
    and the addresses of `__start_custom_data` and `__stop_custom_data`. -/
structure Roots where
  stackTop : ℕ
  stackBottom : ℕ
  extraRoots : List ℕ
  startCustomData : ℕ
  stopCustomData : ℕ

def minimumHeapCapacity : ℕ := 4
def extraRoomHeapCoefficient : ℕ := 2

/-- `gc_alloc_on_existing_heap`: the pointer (`none` is `NULL`) and the heap. A `memset` past the end
    of the heap is an access outside it. -/
def gcAllocOnExistingHeap (h : MemoryChunk) (size : ℕ) : Option (Option ℕ × MemoryChunk) :=
  if (h.current + size) % 2 ^ 30 ≤ h.end_ then
    if h.current + size % 2 ^ 30 ≤ h.end_ then
      some (some h.current,
        { h with
          current := (h.current + size) % 2 ^ 30
          words := fun k =>
            if h.current - h.begin ≤ k ∧ k < h.current - h.begin + size % 2 ^ 30 then 0
            else h.words k })
    else none
  else some (none, h)

/-! ### Marking -/

/-- `queue_enqueue`: the heap and the advanced tail. -/
def queueEnqueue (h : MemoryChunk) (tail obj : ℕ) : Option (MemoryChunk × ℕ) := do
  let tailContent ← getObjectContentPtr h tail
  let h ← setForwardAddress h tailContent (ptr obj)
  let h ← makeEnqueued h obj
  return (h, ← heapNextObj h tail)

/-- `queue_dequeue`: the value, the heap and the advanced head. -/
def queueDequeue (h : MemoryChunk) (head : ℕ) : Option (ℕ × MemoryChunk × ℕ) := do
  let headContent ← getObjectContentPtr h head
  let value ← aligned (← getForwardAddress h headContent)
  let h ← makeDequeued h value
  return (value, h, ← heapNextObj h head)

/-- The body of the field loop of `mark`. -/
def markField (s : MemoryChunk × ℕ) (field : ℕ) : Option (MemoryChunk × ℕ) := do
  let fieldValue ← s.1.load field
  if !isValidHeapPointer s.1 fieldValue then return s
  let obj ← aligned fieldValue
  if (← isMarked s.1 obj) || (← isEnqueued s.1 obj) then return s
  queueEnqueue s.1 s.2 obj

/-- The loop of `mark` that empties the queue. -/
def markLoop : ℕ → MemoryChunk → ℕ → ℕ → Option MemoryChunk
  | 0, _, _, _ => none
  | fuel + 1, h, head, tail =>
    if head = tail then some h
    else do
      let (curObj, h, head) ← queueDequeue h head
      let h ← markObject h curObj
      let header ← getObjHeaderPtr h curObj
      let (h, tail) ← forPtrFields Prod.fst markField header (h, tail)
      markLoop fuel h head tail

/-- `mark`. -/
def mark (h : MemoryChunk) (obj : Word) : Option MemoryChunk := do
  if !isValidHeapPointer h obj then return h
  let obj ← aligned obj
  if ← isMarked h obj then return h
  let (h, tail) ← queueEnqueue h h.begin obj
  markLoop h.fuel h h.begin tail

/-- Mark the words at these addresses, one after another. -/
def markWords (ram : ℕ → Word) : MemoryChunk → List ℕ → Option MemoryChunk
  | h, [] => some h
  | h, p :: ps => do markWords ram (← mark h (ram p)) ps

/-- The addresses `[lo, hi)`, upwards. -/
def region (lo hi : ℕ) : List ℕ := List.range' lo (hi - lo)

theorem mem_region {lo hi a : ℕ} : a ∈ region lo hi ↔ lo ≤ a ∧ a < hi := by
  rw [region, List.mem_range'_1]
  omega

/-- `mark_phase`: `gc_root_scan_stack`, `scan_extra_roots`, `scan_global_area`. -/
def markPhase (roots : Roots) (m : Memory) : Option Memory := do
  let h ← markWords m.ram m.heap (region (roots.stackTop + 1) roots.stackBottom)
  let h ← markWords m.ram h roots.extraRoots
  let h ← markWords m.ram h (region roots.startCustomData roots.stopCustomData)
  return { m with heap := h }

/-! ### Compaction -/

/-- The loop of `compute_locations`. -/
def computeLocationsLoop : ℕ → MemoryChunk → ℕ → ℕ → Option (MemoryChunk × ℕ)
  | 0, _, _, _ => none
  | fuel + 1, h, scan, free => do
    if heapIsDone h scan then return (h, free)
    let objContent ← getObjectContentPtr h scan
    if ← isMarked h objContent then
      let sz := bytesToWords (← objSizeHeaderPtr h scan)
      let h ← setForwardAddress h objContent (ptr free)
      computeLocationsLoop fuel h (← heapNextObj h scan) (free + sz)
    else
      computeLocationsLoop fuel h (← heapNextObj h scan) free

/-- `compute_locations`: the heap and the live size in words. -/
def computeLocations (h : MemoryChunk) : Option (MemoryChunk × ℕ) := do
  let (h, free) ← computeLocationsLoop h.fuel h h.begin h.begin
  return (h, free - h.begin)

/-- `old_heap->begin <= p && p <= old_heap->current`. -/
def inOldHeap (old : MemoryChunk) (p : Word) : Bool :=
  decide (4 * old.begin ≤ p.toNat) && decide (p.toNat ≤ 4 * old.current)

/-- The new value of a pointer `p` into the old heap: the forward address of its object, moved along
    with the heap, plus the size of the header. -/
def forwarded (old h : MemoryChunk) (p : Word) : Option Word := do
  let obj ← aligned (ptr h.begin + (p - ptr old.begin))
  let newAddr := ptr h.begin + ((← getForwardAddress h obj) - ptr old.begin)
  let _ ← getTypeHeaderPtr h (obj - headerSize)
  return newAddr + ptr headerSize

/-- The body of the field loop of `update_references`. -/
def updateField (old : MemoryChunk) (h : MemoryChunk) (field : ℕ) : Option MemoryChunk := do
  let fieldValue ← h.load field
  if !inOldHeap old fieldValue then return h
  h.store field (← forwarded old h fieldValue)

/-- The loop of `update_references` over the objects. -/
def updateObjects (old : MemoryChunk) : ℕ → MemoryChunk → ℕ → Option MemoryChunk
  | 0, _, _ => none
  | fuel + 1, h, it => do
    if heapIsDone h it then return h
    let objContent ← getObjectContentPtr h it
    if ← isMarked h objContent then
      let h ← forPtrFields id (updateField old) it h
      updateObjects old fuel h (← heapNextObj h it)
    else
      updateObjects old fuel h (← heapNextObj h it)

/-- `scan_and_fix_region` over these addresses. -/
def scanAndFixRegion (old : MemoryChunk) : Memory → List ℕ → Option Memory
  | m, [] => some m
  | m, p :: ps => do
    if isValidPointer (m.ram p) && inOldHeap old (m.ram p) then
      scanAndFixRegion old (m.setRam p (← forwarded old m.heap (m.ram p))) ps
    else
      scanAndFixRegion old m ps

/-- The extra roots that `scan_and_fix_region_roots` leaves to the other passes. -/
def skippedRoot (roots : Roots) (p : ℕ) : Bool :=
  (decide (p ≥ roots.stackTop) && decide (p < roots.stackBottom))
    || (decide (p ≤ roots.stopCustomData) && decide (p ≥ roots.startCustomData))

/-- `scan_and_fix_region_roots`. -/
def scanAndFixRegionRoots (old : MemoryChunk) (roots : Roots) : Memory → List ℕ → Option Memory
  | m, [] => some m
  | m, p :: ps => do
    if !isValidPointer (m.ram p) then scanAndFixRegionRoots old roots m ps
    else if skippedRoot roots p then scanAndFixRegionRoots old roots m ps
    else if inOldHeap old (m.ram p) then
      scanAndFixRegionRoots old roots (m.setRam p (← forwarded old m.heap (m.ram p))) ps
    else
      scanAndFixRegionRoots old roots m ps

/-- `update_references`. The word at `__gc_stack_bottom` is scanned too; the custom data is not. -/
def updateReferences (old : MemoryChunk) (roots : Roots) (m : Memory) : Option Memory := do
  let h ← updateObjects old m.heap.fuel m.heap m.heap.begin
  let m ← scanAndFixRegion old { m with heap := h }
    (region (roots.stackTop + 1) (roots.stackBottom + 1))
  scanAndFixRegionRoots old roots m roots.extraRoots

/-- The low `n` bytes of `x` over the other bytes of `y`. -/
def mixBytes (n : ℕ) (x y : Word) : Word :=
  BitVec.ofNat 32 (x.toNat % 256 ^ n + (y.toNat - y.toNat % 256 ^ n))

/-- `memmove` of `bytes` bytes between word-aligned addresses of the heap. -/
def memmove (h : MemoryChunk) (to_ from_ bytes : ℕ) : Option MemoryChunk :=
  if h.begin ≤ to_ ∧ 4 * to_ + bytes ≤ 4 * h.end_ ∧ h.begin ≤ from_ ∧
      4 * from_ + bytes ≤ 4 * h.end_ then
    some { h with
      words := fun k =>
        let i := k - (to_ - h.begin)
        if k < to_ - h.begin then h.words k
        else if i < bytes / 4 then h.words (from_ - h.begin + i)
        else if i = bytes / 4 then mixBytes (bytes % 4) (h.words (from_ - h.begin + i)) (h.words k)
        else h.words k }
  else none

/-- The loop of `physically_relocate`. -/
def relocateLoop (old : MemoryChunk) : ℕ → MemoryChunk → ℕ → Option MemoryChunk
  | 0, _, _ => none
  | fuel + 1, h, from_ => do
    if heapIsDone h from_ then return h
    let obj ← getObjectContentPtr h from_
    let next ← heapNextObj h from_
    if ← isMarked h obj then
      let to_ ← aligned (ptr h.begin + ((← getForwardAddress h obj) - ptr old.begin))
      let h ← memmove h to_ from_ (← objSizeHeaderPtr h from_)
      let h ← unmarkObject h (← getObjectContentPtr h to_)
      relocateLoop old fuel h next
    else
      relocateLoop old fuel h next

/-- `next_heap_pseudo_size` for a heap of `size` words with `liveSize` live ones, in `size_t`. -/
def nextHeapPseudoSize (liveSize additionalSize size : ℕ) : ℕ :=
  max (max ((liveSize * extraRoomHeapCoefficient + additionalSize) % 2 ^ 32) minimumHeapCapacity) size

/-- The heap after `mremap` to `newSize` words at `begin`: the old words, then zeros. -/
def mremapTo (h : MemoryChunk) (begin newSize : ℕ) : MemoryChunk :=
  { begin
    end_ := begin + newSize
    current := begin + (h.current - h.begin)
    size := newSize
    words := fun k => if k < h.size then h.words k else 0 }

/-- `compact_phase`. -/
def compactPhase (roots : Roots) (mremap : Option ℕ) (additionalSize : ℕ) (m : Memory) :
    Option Memory := do
  let (old, liveSize) ← computeLocations m.heap
  let begin ← mremap
  let h := mremapTo old begin (nextHeapPseudoSize liveSize additionalSize old.size)
  let m ← updateReferences old roots { m with heap := h }
  let h ← relocateLoop old m.heap.fuel m.heap m.heap.begin
  return { m with heap := { h with current := h.begin + liveSize } }

/-- `gc_alloc`. -/
def gcAlloc (roots : Roots) (mremap : Option ℕ) (size : ℕ) (m : Memory) :
    Option (Option ℕ × Memory) := do
  let m ← markPhase roots m
  let m ← compactPhase roots mremap size m
  let (p, h) ← gcAllocOnExistingHeap m.heap size
  return (p, { m with heap := h })

/-- `alloc`, for a size in bytes. -/
def alloc (roots : Roots) (mremap : Option ℕ) (bytes : ℕ) (m : Memory) :
    Option (Option ℕ × Memory) := do
  let size := bytesToWords bytes
  match ← gcAllocOnExistingHeap m.heap size with
  | (some p, h) => return (some p, { m with heap := h })
  | (none, _) => gcAlloc roots mremap size m

end Lama

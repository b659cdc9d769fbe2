import PlvmHomeworks.Lib.Runs
import PlvmHomeworks.Runtime.Layout

/-! Marking. The queue of `mark` is threaded through the forward-address words of the objects in the
    order of the heap: the `i`-th object enqueued for a root is kept in the `i`-th object. -/

namespace Lama
open Sliding Runs

/-! ### A run with its enqueue operations -/

/-- The objects enqueued, by content address, each with the tail after it. -/
abbrev QueueLog := List (ℕ × ℕ)

/-- `markField`, with what it enqueues. -/
def markFieldLog (s : (MemoryChunk × ℕ) × QueueLog) (field : ℕ) :
    Option ((MemoryChunk × ℕ) × QueueLog) := do
  let q ← markField s.1 field
  if q.2 = s.1.2 then return (q, s.2)
  let obj ← aligned (← s.1.1.load field)
  return (q, s.2 ++ [(obj, q.2)])

/-- `markLoop`, with what it enqueues. -/
def markLoopLog : ℕ → MemoryChunk → ℕ → ℕ → QueueLog → Option (MemoryChunk × QueueLog)
  | 0, _, _, _, _ => none
  | fuel + 1, h, head, tail, log =>
    if head = tail then some (h, log)
    else do
      let (curObj, h, head) ← queueDequeue h head
      let h ← markObject h curObj
      let header ← getObjHeaderPtr h curObj
      let ((h, tail), log) ← forPtrFields (fun s => s.1.1) markFieldLog header ((h, tail), log)
      markLoopLog fuel h head tail log

/-- `mark`, with what it enqueues. -/
def markLog (h : MemoryChunk) (obj : Word) (log : QueueLog) : Option (MemoryChunk × QueueLog) := do
  if !isValidHeapPointer h obj then return (h, log)
  let obj ← aligned obj
  if ← isMarked h obj then return (h, log)
  let (h, tail) ← queueEnqueue h h.begin obj
  markLoopLog h.fuel h h.begin tail (log ++ [(obj, tail)])

/-- `markWords`, with what it enqueues. -/
def markWordsLog (ram : ℕ → Word) : MemoryChunk → List ℕ → QueueLog → Option (MemoryChunk × QueueLog)
  | h, [], log => some (h, log)
  | h, p :: ps, log => do
    let (h, log) ← markLog h (ram p) log
    markWordsLog ram h ps log

/-- A loop over the fields in a larger state does what it does in the smaller one. -/
theorem ptrFieldLoop_erase {σ τ : Type} {π : τ → σ} {heap : σ → MemoryChunk} {body : σ → ℕ → Option σ}
    {body' : τ → ℕ → Option τ} (hbody : ∀ t a t', body' t a = some t' → body (π t) a = some (π t')) :
    ∀ {fuel : ℕ} {it : ObjFieldIterator} {t t' : τ},
      ptrFieldLoop (fun t => heap (π t)) body' fuel it t = some t' →
        ptrFieldLoop heap body fuel it (π t) = some (π t')
  | 0, _, _, _, h => by cases h
  | fuel + 1, it, t, t', h => by
    obtain ⟨d, hd, h⟩ := Option.bind_eq_some_iff.mp h
    rw [ptrFieldLoop, hd]
    cases d with
    | true =>
      cases h
      rfl
    | false =>
      obtain ⟨t₁, h1, h⟩ := Option.bind_eq_some_iff.mp h
      obtain ⟨it', h2, h⟩ := Option.bind_eq_some_iff.mp h
      simp [hbody t _ t₁ h1, h2, ptrFieldLoop_erase hbody h]

theorem forPtrFields_erase {header : ℕ} {s s' : (MemoryChunk × ℕ) × QueueLog}
    (h : forPtrFields (fun s => s.1.1) markFieldLog header s = some s') :
    forPtrFields Prod.fst markField header s.1 = some s'.1 := by
  obtain ⟨it, hit, h⟩ := Option.bind_eq_some_iff.mp h
  rw [forPtrFields, hit]
  refine ptrFieldLoop_erase (π := Prod.fst) (fun t a t' ht => ?_) h
  obtain ⟨q, hq, ht⟩ := Option.bind_eq_some_iff.mp ht
  split at ht
  · cases ht; exact hq
  · obtain ⟨v, -, ht⟩ := Option.bind_eq_some_iff.mp ht
    obtain ⟨obj, -, ht⟩ := Option.bind_eq_some_iff.mp ht
    cases ht; exact hq

theorem markLoopLog_erase : ∀ {fuel : ℕ} {h : MemoryChunk} {head tail : ℕ} {log : QueueLog}
    {q : MemoryChunk × QueueLog}, markLoopLog fuel h head tail log = some q →
      markLoop fuel h head tail = some q.1
  | 0, _, _, _, _, _, hm => by cases hm
  | fuel + 1, h, head, tail, log, q, hm => by
    unfold markLoopLog at hm
    unfold markLoop
    split at hm
    · rename_i heq
      cases hm
      rw [if_pos heq]
    · rename_i hne
      obtain ⟨⟨cur, h₁, head'⟩, h1, hm⟩ := Option.bind_eq_some_iff.mp hm
      obtain ⟨h₂, h2, hm⟩ := Option.bind_eq_some_iff.mp hm
      obtain ⟨hd, h3, hm⟩ := Option.bind_eq_some_iff.mp hm
      obtain ⟨⟨⟨h₃, tail'⟩, log'⟩, h4, hm⟩ := Option.bind_eq_some_iff.mp hm
      have h4' := forPtrFields_erase h4
      simp only at h2 h3 h4'
      simp [hne, h1, h2, h3, h4', markLoopLog_erase hm]

theorem markLog_erase {h : MemoryChunk} {obj : Word} {log : QueueLog} {q : MemoryChunk × QueueLog}
    (hm : markLog h obj log = some q) : mark h obj = some q.1 := by
  unfold markLog at hm
  unfold mark
  split at hm
  · rename_i hv
    cases hm
    rw [if_pos hv]
    rfl
  · rename_i hv
    obtain ⟨a, ha, hm⟩ := Option.bind_eq_some_iff.mp hm
    obtain ⟨m, hmk, hm⟩ := Option.bind_eq_some_iff.mp hm
    cases m with
    | true =>
      cases hm
      simp [hv, ha, hmk]
    | false =>
      obtain ⟨⟨h₁, tail⟩, h1, hm⟩ := Option.bind_eq_some_iff.mp hm
      simp [hv, ha, hmk, h1, markLoopLog_erase hm]

theorem markWordsLog_erase {ram : ℕ → Word} : ∀ {ps : List ℕ} {h : MemoryChunk} {log : QueueLog}
    {q : MemoryChunk × QueueLog}, markWordsLog ram h ps log = some q → markWords ram h ps = some q.1
  | [], _, _, _, hm => by cases hm; rfl
  | p :: ps, h, log, q, hm => by
    obtain ⟨⟨h₁, log₁⟩, h1, hm⟩ := Option.bind_eq_some_iff.mp hm
    simp [markWords, markLog_erase h1, markWordsLog_erase hm]

/-! ### The queue -/

/-- The heap `h` in the middle of marking `h₀`: `prior` has been marked for earlier roots, `done` for
    this one, and `queue` waits in the forward-address words of the objects behind the first
    `done.length`. All of them are in `R`. -/
structure MarkState (h₀ : MemoryChunk) (objects : List ℕ) (R : Set ℕ) (prior done queue : List ℕ)
    (h : MemoryChunk) (log : QueueLog) : Prop where
  bounds : SameBounds h₀ h
  same : ∀ k, (∀ p ∈ objects, k ≠ p + 1) → h.words k = h₀.words k
  marked : ∀ p ∈ objects, getMarkBit (h.words (p + 1)) = true ↔ p ∈ prior ++ done
  enqueued : ∀ p ∈ objects, isEnqueuedBit (h.words (p + 1)) = true ↔ p ∈ queue
  slots : ∀ i s e, objects[done.length + i]? = some s → queue[i]? = some e →
    getForwardBits (h.words (s + 1)) = contentWord h₀ e
  nodup : (prior ++ done ++ queue).Nodup
  live : ∀ p ∈ prior ++ done ++ queue, p ∈ objects ∧ p ∈ R
  logged : log.map Prod.fst = (prior ++ done ++ queue).map fun p => h₀.begin + p + headerSize
  tails : ∀ x ∈ log, x.2 ≤ h₀.current

/-- The address of the object behind the first `n`. -/
def slotAddress (h₀ : MemoryChunk) (objects : List ℕ) (n : ℕ) : ℕ :=
  h₀.begin + place objects (h₀.current - h₀.begin) n

section Queue
variable {h₀ h : MemoryChunk} {objects : List ℕ} {R : Set ℕ} {prior done queue : List ℕ}
variable {log : QueueLog} {e : ℕ}

theorem MarkState.header (hs : Objects h₀ objects) (hm : MarkState h₀ objects R prior done queue h log)
    {p : ℕ} (hp : p ∈ objects) : h.words p = h₀.words p :=
  hm.same p fun _ hq => hs.header_ne hp hq

theorem MarkState.field (hs : Objects h₀ objects) (hm : MarkState h₀ objects R prior done queue h log)
    {p k : ℕ} (hp : p ∈ objects) (hf : IsField h₀ p k) : h.words k = h₀.words k :=
  hm.same k fun _ hq => (hs.field_ne hp hf hq).2

theorem MarkState.layout (hs : Objects h₀ objects)
    (hm : MarkState h₀ objects R prior done queue h log) : Objects h objects :=
  hs.congr hm.bounds fun _ hp => hm.header hs hp

theorem MarkState.length_le (hm : MarkState h₀ objects R prior done queue h log) :
    done.length + queue.length ≤ objects.length := by
  have hnodup := (List.nodup_append.mp (List.append_assoc prior done _ ▸ hm.nodup)).2.1
  have hsub : done ++ queue ⊆ objects := fun p hp =>
    (hm.live p (by rw [List.append_assoc]; exact List.mem_append_right _ hp)).1
  rw [← List.length_append]
  exact (List.subperm_of_subset hnodup hsub).length_le

/-- There is room in the queue for an object that has not been enqueued. -/
theorem MarkState.room (hm : MarkState h₀ objects R prior done queue h log) (he : e ∈ objects)
    (hnew : e ∉ prior ++ done ++ queue) : done.length + queue.length < objects.length := by
  have hnodup : (e :: (done ++ queue)).Nodup := by
    refine List.nodup_cons.mpr ⟨fun h => hnew ?_, ?_⟩
    · rw [List.append_assoc]
      exact List.mem_append_right _ h
    · have := hm.nodup
      rw [List.append_assoc] at this
      exact (List.nodup_append.mp this).2.1
  have hsub : e :: (done ++ queue) ⊆ objects := by
    intro p hp
    rcases List.mem_cons.mp hp with rfl | hp
    · exact he
    · refine (hm.live p ?_).1
      rw [List.append_assoc]
      exact List.mem_append_right _ hp
  have hle := (List.subperm_of_subset hnodup hsub).length_le
  rw [List.length_cons, List.length_append] at hle
  omega

/-- A forward-address word is overwritten without touching the bits of other objects. -/
theorem setWord_forward {p q : ℕ} {v : Word} :
    (h.setWord (p + 1) v).words (q + 1) = if q = p then v else h.words (q + 1) := by
  simp [MemoryChunk.setWord]

/-- `queue_enqueue` of an object that is neither marked nor in the queue. -/
theorem MarkState.enqueue (hs : Objects h₀ objects)
    (hm : MarkState h₀ objects R prior done queue h log) (he : e ∈ objects) (hR : e ∈ R)
    (hnew : e ∉ prior ++ done ++ queue) :
    ∃ h', queueEnqueue h (slotAddress h₀ objects (done.length + queue.length))
        (h₀.begin + e + headerSize) =
        some (h', slotAddress h₀ objects (done.length + queue.length + 1)) ∧
      MarkState h₀ objects R prior done (queue ++ [e]) h'
        (log ++ [(h₀.begin + e + headerSize,
          slotAddress h₀ objects (done.length + queue.length + 1))]) := by
  have hroom := hm.room he hnew
  obtain ⟨s, hslot⟩ : ∃ s, objects[done.length + queue.length]? = some s :=
    ⟨_, List.getElem?_eq_getElem hroom⟩
  have hsm : s ∈ objects := List.mem_of_getElem? hslot
  obtain ⟨hplace, hplace'⟩ := hs.tiles.place hslot
  have hs₁ := hm.layout hs
  -- the heap with the object in the slot of the tail, and with its bit set
  let h₁ := h.setWord (s + 1) (setForwardBits (h.words (s + 1)) (ptr (h₀.begin + e + headerSize)))
  let h₂ := h₁.setWord (e + 1) (makeEnqueuedBit (h₁.words (e + 1)))
  have hb₁ : SameBounds h₀ h₁ := hm.bounds.trans (setWord_bounds _ _ _)
  have hb₂ : SameBounds h₀ h₂ := hb₁.trans (setWord_bounds _ _ _)
  have hother : ∀ k, (∀ p ∈ objects, k ≠ p + 1) → h₂.words k = h₀.words k := by
    intro k hk
    rw [← hm.same k hk]
    simp [h₂, h₁, MemoryChunk.setWord, hk s hsm, hk e he]
  have ho₁ : IsObject h₁ e := (hs.object he).congr hb₁ (by
    rw [← hm.header hs he]
    simp [h₁, MemoryChunk.setWord, hs.header_ne he hsm])
  have ho₂ : IsObject h₂ s :=
    (hs.object hsm).congr hb₂ (hother s fun p hp => hs.header_ne hsm hp)
  have hwords : h₂.words s = h₀.words s := hother s fun p hp => hs.header_ne hsm hp
  refine ⟨h₂, ?_, ?_⟩
  · have hcontent := (hs₁.object hsm).content
    have hset := (hs₁.object hsm).mapForward (setForwardBits · (ptr (h₀.begin + e + headerSize)))
    have hmake := ho₁.mapForward makeEnqueuedBit
    have hnext := ho₂.next
    rw [hm.bounds.begin] at hcontent hset
    rw [hb₁.begin] at hmake
    rw [hb₂.begin, hwords, ← hplace'] at hnext
    simp only [queueEnqueue, slotAddress, hplace, hcontent, setForwardAddress, makeEnqueued,
      Option.bind_eq_bind, Option.bind_some, hset]
    rw [show h.setWord (s + 1) _ = h₁ from rfl, hmake, Option.bind_some,
      show h₁.setWord (e + 1) _ = h₂ from rfl, hnext]
    rfl
  · have hmark : ∀ p, getMarkBit (h₂.words (p + 1)) = getMarkBit (h.words (p + 1)) := by
      intro p
      simp only [h₂, h₁, setWord_forward]
      split <;> split <;> simp_all
    have henq : ∀ p, p ≠ e → isEnqueuedBit (h₂.words (p + 1)) = isEnqueuedBit (h.words (p + 1)) := by
      intro p hp
      simp only [h₂, h₁, setWord_forward, if_neg hp]
      split <;> simp_all
    have hfwd : ∀ p, getForwardBits (h₂.words (p + 1)) =
        if p = s then ptr (h₀.begin + e + headerSize) else getForwardBits (h.words (p + 1)) := by
      intro p
      simp only [h₂, h₁, setWord_forward]
      split <;> split <;> simp_all
    refine ⟨hb₂, hother, fun p hp => ?_, fun p hp => ?_, fun i s' e' hs' he' => ?_, ?_, ?_, ?_, ?_⟩
    · rw [hmark]; exact hm.marked p hp
    · by_cases heq : p = e
      · subst heq
        simp [h₂, setWord_forward]
      · rw [henq p heq, hm.enqueued p hp]
        simp [heq]
    · rw [hfwd]
      rcases Nat.lt_trichotomy i queue.length with hlt | heq | hgt
      · rw [List.getElem?_append_left hlt] at he'
        have hne : s' ≠ s := by
          rintro rfl
          have := (List.getElem?_inj (by
            rw [List.getElem?_eq_some_iff] at hs'; exact hs'.1) hs.tiles.nodup).mp
            (hs'.trans hslot.symm)
          omega
        rw [if_neg hne]
        exact hm.slots i s' e' hs' he'
      · subst heq
        obtain rfl : s' = s := by
          rw [hslot] at hs'
          exact (Option.some.inj hs').symm
        obtain rfl : e' = e := by simpa using he'.symm
        rw [if_pos rfl, contentWord]
      · have : (queue ++ [e])[i]? = none := by simp; omega
        rw [this] at he'
        cases he'
    · rw [← List.append_assoc]
      refine List.nodup_append.mpr ⟨hm.nodup, List.nodup_singleton e, fun a ha b hb => ?_⟩
      rintro rfl
      exact hnew (List.mem_singleton.mp hb ▸ ha)
    · intro p hp
      rw [← List.append_assoc] at hp
      rcases List.mem_append.mp hp with hp | hp
      · exact hm.live p hp
      · rw [List.mem_singleton.mp hp]
        exact ⟨he, hR⟩
    · simp [hm.logged]
    · intro x hx
      rcases List.mem_append.mp hx with hx | hx
      · exact hm.tails x hx
      · rw [List.mem_singleton.mp hx]
        have := (hs.tiles.bounds hsm).2.1
        have := hs.begin_le
        simp only [slotAddress, hplace']
        omega

/-- `queue_dequeue` and `mark_object` of the object at the head. -/
theorem MarkState.dequeue (hs : Objects h₀ objects)
    (hm : MarkState h₀ objects R prior done (e :: queue) h log) :
    ∃ h₁ h₂, queueDequeue h (slotAddress h₀ objects done.length) =
        some (h₀.begin + e + headerSize, h₁, slotAddress h₀ objects (done.length + 1)) ∧
      markObject h₁ (h₀.begin + e + headerSize) = some h₂ ∧
      getObjHeaderPtr h₂ (h₀.begin + e + headerSize) = some (h₀.begin + e) ∧
      MarkState h₀ objects R prior (done ++ [e]) queue h₂ log := by
  obtain ⟨he, -⟩ := hm.live e (by simp)
  have hle : done.length < objects.length := by
    have := hm.length_le
    rw [List.length_cons] at this
    omega
  obtain ⟨s, hslot⟩ : ∃ s, objects[done.length]? = some s := ⟨_, List.getElem?_eq_getElem hle⟩
  have hsm : s ∈ objects := List.mem_of_getElem? hslot
  obtain ⟨hplace, hplace'⟩ := hs.tiles.place hslot
  have hs₁ := hm.layout hs
  let h₁ := h.setWord (e + 1) (makeDequeuedBit (h.words (e + 1)))
  let h₂ := h₁.setWord (e + 1) (setMarkBit (h₁.words (e + 1)))
  have hb₁ : SameBounds h₀ h₁ := hm.bounds.trans (setWord_bounds _ _ _)
  have hb₂ : SameBounds h₀ h₂ := hb₁.trans (setWord_bounds _ _ _)
  have hother₁ : ∀ k, (∀ p ∈ objects, k ≠ p + 1) → h₁.words k = h₀.words k := by
    intro k hk
    rw [← hm.same k hk]
    simp [h₁, MemoryChunk.setWord, hk e he]
  have hother₂ : ∀ k, (∀ p ∈ objects, k ≠ p + 1) → h₂.words k = h₀.words k := by
    intro k hk
    rw [← hother₁ k hk]
    simp [h₂, MemoryChunk.setWord, hk e he]
  have hs₁' : Objects h₁ objects := hs.congr hb₁ fun p hp => hother₁ p fun _ hq => hs.header_ne hp hq
  have hs₂ : Objects h₂ objects := hs.congr hb₂ fun p hp => hother₂ p fun _ hq => hs.header_ne hp hq
  refine ⟨h₁, h₂, ?_, ?_, ?_, ?_⟩
  · have hcontent := (hs₁.object hsm).content
    have haddress := (hs₁.object hsm).getForwardAddress
    have hmake := (hs₁.object he).mapForward makeDequeuedBit
    have hnext := (hs₁'.object hsm).next
    rw [hm.bounds.begin] at hcontent haddress hmake
    rw [hb₁.begin, hother₁ s fun _ hq => hs.header_ne hsm hq, ← hplace'] at hnext
    have hvalue : getForwardBits (h.words (s + 1)) = contentWord h₀ e :=
      hm.slots 0 s e (by simpa using hslot) rfl
    simp only [queueDequeue, slotAddress, hplace, hcontent, haddress, hvalue, hs.aligned he,
      Option.bind_eq_bind, Option.bind_some, makeDequeued, hmake]
    rw [show h.setWord (e + 1) _ = h₁ from rfl, hnext]
    rfl
  · have hmark := (hs₁'.object he).mapForward setMarkBit
    rw [hb₁.begin] at hmark
    exact hmark
  · have hheader := (hs₂.object he).header
    rw [hb₂.begin] at hheader
    exact hheader
  · have hnot : e ∉ queue := by
      have := hm.nodup
      rw [List.nodup_append] at this
      exact (List.nodup_cons.mp this.2.1).1
    have hword : ∀ p, h₂.words (p + 1) =
        if p = e then setMarkBit (makeDequeuedBit (h.words (e + 1))) else h.words (p + 1) := by
      intro p
      simp only [h₂, h₁, setWord_forward]
      split <;> simp_all
    refine ⟨hb₂, hother₂, fun p hp => ?_, fun p hp => ?_, fun i s' e' hs' he' => ?_, ?_, ?_, ?_,
      hm.tails⟩
    · rw [hword]
      by_cases heq : p = e
      · simp [heq]
      · rw [if_neg heq, hm.marked p hp]
        simp [heq]
    · rw [hword]
      by_cases heq : p = e
      · simp [heq, hnot]
      · rw [if_neg heq, hm.enqueued p hp]
        simp [heq]
    · have hfwd : getForwardBits (h₂.words (s' + 1)) = getForwardBits (h.words (s' + 1)) := by
        rw [hword]
        split
        · rename_i heq
          simp [heq]
        · rfl
      rw [hfwd]
      refine hm.slots (i + 1) s' e' ?_ (by simpa using he')
      rw [← hs']
      congr 1
      simp only [List.length_append, List.length_singleton]
      omega
    · have := hm.nodup
      simpa using this
    · intro p hp
      exact hm.live p (by simpa using hp)
    · rw [hm.logged]
      simp

/-! ### The loops -/

theorem slotAddress_inj (hs : Objects h₀ objects) {n m : ℕ} (hn : n ≤ m) (hm : m ≤ objects.length) :
    slotAddress h₀ objects n = slotAddress h₀ objects m ↔ n = m := by
  rw [← hs.tiles.place_inj hn hm, slotAddress, slotAddress]
  omega

/-- A field that is a pointer: its object is in the queue or marked afterwards. -/
theorem MarkState.visit {c k : ℕ} (hwf : WellFormed h₀ objects)
    (hR : Closed (PointsTo h₀ objects) R) (hm : MarkState h₀ objects R prior done queue h log)
    (hc : c ∈ objects) (hcR : c ∈ R) (hf : IsField h₀ c k) :
    ∃ h' log' more, markFieldLog ((h, slotAddress h₀ objects (done.length + queue.length)), log)
        (h₀.begin + k) =
        some ((h', slotAddress h₀ objects (done.length + (queue ++ more).length)), log') ∧
      MarkState h₀ objects R prior done (queue ++ more) h' log' ∧
      ∀ q ∈ objects, h₀.words k = contentWord h₀ q → q ∈ prior ++ done ++ (queue ++ more) := by
  have hs := hwf.toObjects
  have hs₁ := hm.layout hs
  have hload : h.load (h₀.begin + k) = some (h₀.words k) := by
    have := (hs₁.object hc).inside
    rw [← hm.bounds.begin, load_add, hm.field hs hc hf]
    have := hf.2
    rw [hm.header hs hc] at *
    omega
  cases hvalid : isValidHeapPointer h₀ (h₀.words k) with
  | false =>
    have hmf : markField (h, slotAddress h₀ objects (done.length + queue.length)) (h₀.begin + k) =
        some (h, slotAddress h₀ objects (done.length + queue.length)) := by
      simp [markField, hload, isValidHeapPointer_congr hm.bounds, hvalid]
    refine ⟨h, log, [], ?_, by rw [List.append_nil]; exact hm, fun q hq heq => ?_⟩
    · simp [markFieldLog, hmf]
    · rw [heq, hs.contentWord_valid hq] at hvalid
      cases hvalid
  | true =>
    obtain ⟨q, hq, hvq⟩ := hwf.fields c hc k hf hvalid
    have hmarked := (hs₁.object hq).isMarked
    have henqueued := (hs₁.object hq).isEnqueued
    rw [hm.bounds.begin] at hmarked henqueued
    have hqR : q ∈ R := hR c hcR q ⟨hq, k, hf, hvq⟩
    by_cases hold : q ∈ prior ++ done ++ queue
    · have hbits : (getMarkBit (h.words (q + 1)) || isEnqueuedBit (h.words (q + 1))) = true := by
        rcases List.mem_append.mp hold with hmem | hmem
        · rw [(hm.marked q hq).mpr hmem, Bool.true_or]
        · rw [(hm.enqueued q hq).mpr hmem, Bool.or_true]
      have hmf : markField (h, slotAddress h₀ objects (done.length + queue.length)) (h₀.begin + k) =
          some (h, slotAddress h₀ objects (done.length + queue.length)) := by
        rw [markField, hload]
        simp only [Option.bind_eq_bind, Option.bind_some, isValidHeapPointer_congr hm.bounds,
          hvq, hs.contentWord_valid hq, hs.aligned hq, hmarked, henqueued, hbits, Bool.not_true,
          Bool.false_eq_true, if_false, if_true, Option.pure_def]
      refine ⟨h, log, [], ?_, by rw [List.append_nil]; exact hm, fun q' hq' heq => ?_⟩
      · simp [markFieldLog, hmf]
      · rw [hs.contentWord_inj hq' hq (heq.symm.trans hvq), List.append_nil]
        exact hold
    · have hbits : (getMarkBit (h.words (q + 1)) || isEnqueuedBit (h.words (q + 1))) = false := by
        rw [Bool.or_eq_false_iff, Bool.eq_false_iff, Bool.eq_false_iff, Ne, Ne, hm.marked q hq,
          hm.enqueued q hq, ← not_or, ← List.mem_append]
        exact hold
      obtain ⟨h', henq, hm'⟩ := hm.enqueue hs hq hqR hold
      have hmf : markField (h, slotAddress h₀ objects (done.length + queue.length)) (h₀.begin + k) =
          some (h', slotAddress h₀ objects (done.length + queue.length + 1)) := by
        rw [markField, hload]
        simp only [Option.bind_eq_bind, Option.bind_some, isValidHeapPointer_congr hm.bounds,
          hvq, hs.contentWord_valid hq, hs.aligned hq, hmarked, henqueued, hbits, Bool.not_true,
          Bool.false_eq_true, if_false, henq]
      have hmoved : slotAddress h₀ objects (done.length + queue.length + 1) ≠
          slotAddress h₀ objects (done.length + queue.length) := by
        rw [ne_comm, Ne, slotAddress_inj hs (Nat.le_succ _) (hm.room hq hold)]
        omega
      refine ⟨h', _, [q], ?_, hm', fun q' hq' heq => ?_⟩
      · rw [List.length_append, List.length_singleton, ← Nat.add_assoc, markFieldLog, hmf]
        simp only [Option.bind_eq_bind, Option.bind_some, hmoved, if_false, hload, hvq, hs.aligned hq]
        rfl
      · rw [hs.contentWord_inj hq' hq (heq.symm.trans hvq)]
        simp

/-- After the loop over the fields of an object, what it points to is in the queue or marked. -/
theorem MarkState.fields {c : ℕ} (hwf : WellFormed h₀ objects)
    (hR : Closed (PointsTo h₀ objects) R) (hm : MarkState h₀ objects R prior done queue h log)
    (hc : c ∈ objects) (hcR : c ∈ R) :
    ∃ h' log' more, forPtrFields (fun s => s.1.1) markFieldLog (h₀.begin + c)
        ((h, slotAddress h₀ objects (done.length + queue.length)), log) =
        some ((h', slotAddress h₀ objects (done.length + (queue ++ more).length)), log') ∧
      MarkState h₀ objects R prior done (queue ++ more) h' log' ∧
      ∀ q, PointsTo h₀ objects c q → q ∈ prior ++ done ++ (queue ++ more) := by
  have hs := hwf.toObjects
  let P : ℕ → (MemoryChunk × ℕ) × QueueLog → Prop := fun k s =>
    ∃ more, MarkState h₀ objects R prior done (queue ++ more) s.1.1 s.2 ∧
      s.1.2 = slotAddress h₀ objects (done.length + (queue ++ more).length) ∧
      ∀ j, IsField h₀ c j → j < k → ∀ q ∈ objects, h₀.words j = contentWord h₀ q →
        q ∈ prior ++ done ++ (queue ++ more)
  have hloop : FieldLoop (fun s => s.1.1) markFieldLog h₀ c P := by
    refine ⟨hs.object hc, hs.span, ?_, ?_, ?_, ?_⟩
    · rintro k s ⟨more, hm, -, -⟩
      exact hm.bounds
    · rintro k s ⟨more, hm, -, -⟩
      exact hm.header hs hc
    · rintro k s hf ⟨more, hm, htail, hseen⟩ hv
      refine ⟨more, hm, htail, fun j hj hlt q hq heq => ?_⟩
      rcases Nat.lt_succ_iff_lt_or_eq.mp hlt with hlt | rfl
      · exact hseen j hj hlt q hq heq
      · rw [hm.field hs hc hf, heq, unboxed_contentWord] at hv
        cases hv
    · rintro k ⟨⟨h', tail⟩, log'⟩ hf ⟨more, hm, htail, hseen⟩ -
      obtain rfl : tail = _ := htail
      obtain ⟨h'', log'', new, hrun, hm', hnew⟩ := hm.visit hwf hR hc hcR hf
      rw [List.append_assoc queue] at hrun hm' hnew
      refine ⟨_, hrun, more ++ new, hm', rfl, fun j hj hlt q hq heq => ?_⟩
      rcases Nat.lt_succ_iff_lt_or_eq.mp hlt with hlt | rfl
      · rw [← List.append_assoc queue, ← List.append_assoc]
        exact List.mem_append_left _ (hseen j hj hlt q hq heq)
      · exact hnew q hq heq
  obtain ⟨⟨⟨h', tail⟩, log'⟩, k, hk, hrun, more, hm', htail, hseen⟩ := hloop.run (s := ((h,
    slotAddress h₀ objects (done.length + queue.length)), log)) ⟨[], by rw [List.append_nil]; exact hm,
      by rw [List.append_nil], fun j hj hlt => absurd hj.1 (Nat.not_le.mpr hlt)⟩
  obtain rfl : tail = _ := htail
  exact ⟨h', log', more, hrun, hm', fun q ⟨hq, j, hj, heq⟩ =>
    hseen j hj (Nat.lt_of_lt_of_le hj.2 hk) q hq heq⟩

/-- Every object that one of `scanned` points to is among `seen`. -/
def Scanned (h₀ : MemoryChunk) (objects scanned seen : List ℕ) : Prop :=
  ∀ p ∈ scanned, ∀ q, PointsTo h₀ objects p q → q ∈ seen

/-- The loop of `mark` ends with an empty queue. -/
theorem MarkState.loop (hwf : WellFormed h₀ objects) (hR : Closed (PointsTo h₀ objects) R) :
    ∀ {fuel : ℕ} {done queue : List ℕ} {h : MemoryChunk} {log : QueueLog},
      objects.length < done.length + fuel → MarkState h₀ objects R prior done queue h log →
      Scanned h₀ objects (prior ++ done) (prior ++ done ++ queue) →
      ∃ h' log' more, markLoopLog fuel h (slotAddress h₀ objects done.length)
          (slotAddress h₀ objects (done.length + queue.length)) log = some (h', log') ∧
        MarkState h₀ objects R prior (done ++ queue ++ more) [] h' log' ∧
        Scanned h₀ objects (prior ++ (done ++ queue ++ more)) (prior ++ (done ++ queue ++ more)) := by
  have hs := hwf.toObjects
  intro fuel
  -- by induction on the fuel: every turn marks one more object
  induction fuel with
  | zero =>
    intro done queue h log hfuel hm
    have := hm.length_le
    omega
  | succ fuel ih =>
    intro done queue h log hfuel hm hscan
    rw [markLoopLog]
    cases queue with
    | nil =>
      refine ⟨h, log, [], ?_, by simpa using hm, by simpa using hscan⟩
      simp
    | cons e rest =>
      have hle := hm.length_le
      rw [List.length_cons] at hle
      obtain ⟨he, heR⟩ := hm.live e (by simp)
      have hne : slotAddress h₀ objects done.length ≠
          slotAddress h₀ objects (done.length + (e :: rest).length) := by
        rw [Ne, slotAddress_inj hs (Nat.le_add_right _ _) (by rw [List.length_cons]; omega),
          List.length_cons]
        omega
      obtain ⟨h₁, h₂, hdeq, hmark, hheader, hm₁⟩ := hm.dequeue hs
      obtain ⟨h₃, log₁, more, hfields, hm₂, hseen⟩ := hm₁.fields hwf hR he heR
      have htail : done.length + (e :: rest).length = (done ++ [e]).length + rest.length := by
        simp only [List.length_cons, List.length_append, List.length_nil]
        omega
      have hscan' : Scanned h₀ objects (prior ++ (done ++ [e]))
          (prior ++ (done ++ [e]) ++ (rest ++ more)) := by
        intro p hp q hpq
        rw [← List.append_assoc] at hp
        rcases List.mem_append.mp hp with hp | hp
        · have := hscan p hp q hpq
          simp only [List.mem_append, List.mem_cons] at this ⊢
          tauto
        · rw [List.mem_singleton.mp hp] at hpq
          exact hseen q hpq
      obtain ⟨h', log', more', hloop, hm', hclosed⟩ := ih (by
        rw [List.length_append, List.length_singleton]; omega) hm₂ hscan'
      have hall : done ++ [e] ++ (rest ++ more) ++ more' = done ++ e :: rest ++ (more ++ more') := by
        simp
      rw [hall] at hm' hclosed
      refine ⟨h', log', more ++ more', ?_, hm', hclosed⟩
      rw [if_neg hne, hdeq]
      simp only [Option.bind_eq_bind, Option.bind_some, hmark, hheader]
      rw [htail, hfields, Option.bind_some]
      simpa using hloop

/-- When the queue is empty the objects marked for this root join those of the earlier ones. -/
theorem MarkState.settle (hm : MarkState h₀ objects R prior done [] h log) :
    MarkState h₀ objects R (prior ++ done) [] [] h log where
  bounds := hm.bounds
  same := hm.same
  marked := by simpa using hm.marked
  enqueued := hm.enqueued
  slots := fun i s e _ he => by simp at he
  nodup := by simpa using hm.nodup
  live := by simpa using hm.live
  logged := by simpa using hm.logged
  tails := hm.tails

/-- `mark` marks the object of a root and what it leads to. -/
theorem MarkState.mark (hwf : WellFormed h₀ objects) (hR : Closed (PointsTo h₀ objects) R)
    (hm : MarkState h₀ objects R prior [] [] h log) (hclosed : Scanned h₀ objects prior prior)
    {v : Word} (hv : ValidWord h₀ objects v)
    (hvR : ∀ p ∈ objects, v = contentWord h₀ p → p ∈ R) :
    ∃ h' log' more, markLog h v log = some (h', log') ∧
      MarkState h₀ objects R (prior ++ more) [] [] h' log' ∧
      Scanned h₀ objects (prior ++ more) (prior ++ more) ∧
      ∀ p ∈ objects, v = contentWord h₀ p → p ∈ prior ++ more := by
  have hs := hwf.toObjects
  have hs₁ := hm.layout hs
  cases hvalid : isValidHeapPointer h₀ v with
  | false =>
    refine ⟨h, log, [], ?_, by rw [List.append_nil]; exact hm, by rw [List.append_nil]; exact hclosed,
      fun p hp heq => ?_⟩
    · simp [markLog, isValidHeapPointer_congr hm.bounds, hvalid]
    · rw [heq, hs.contentWord_valid hp] at hvalid
      cases hvalid
  | true =>
    obtain ⟨r, hr, rfl⟩ := hv hvalid
    have hmarked := (hs₁.object hr).isMarked
    rw [hm.bounds.begin] at hmarked
    by_cases hold : r ∈ prior
    · have hbit : getMarkBit (h.words (r + 1)) = true := (hm.marked r hr).mpr (by simpa using hold)
      refine ⟨h, log, [], ?_, by rw [List.append_nil]; exact hm, by rw [List.append_nil]; exact hclosed,
        fun p hp heq => ?_⟩
      · simp [markLog, isValidHeapPointer_congr hm.bounds, hvalid, hs.aligned hr, hmarked, hbit]
      · rw [hs.contentWord_inj hp hr heq.symm, List.append_nil]
        exact hold
    · have hbit : getMarkBit (h.words (r + 1)) = false := by
        rw [Bool.eq_false_iff, Ne, hm.marked r hr]
        simpa using hold
      obtain ⟨h₁, henq, hm₁⟩ := hm.enqueue hs hr (hvR r hr rfl) (by simpa using hold)
      have hscan : Scanned h₀ objects (prior ++ []) (prior ++ [] ++ ([] ++ [r])) := by
        intro p hp q hpq
        rw [List.append_nil] at hp ⊢
        exact List.mem_append_left _ (hclosed p hp q hpq)
      have hfuel : objects.length < ([] : List ℕ).length + h₁.fuel := by
        have hlen := hs.tiles.length_le
        have := hs.begin_le
        have := hs.current_le
        have hspan := hs.span
        rw [MemoryChunk.fuel, hm₁.bounds.size, List.length_nil]
        omega
      obtain ⟨h', log', more, hloop, hm', hclosed'⟩ := MarkState.loop hwf hR hfuel hm₁ hscan
      have hstart : slotAddress h₀ objects 0 = h₀.begin := by
        rw [slotAddress, place_zero hs.tiles]
        omega
      simp only [List.length_nil, List.length_append, List.length_singleton, Nat.zero_add,
        Nat.add_zero, hstart] at henq hloop
      refine ⟨h', log', [r] ++ more, ?_, hm'.settle, hclosed', fun p hp heq => ?_⟩
      · simp [markLog, isValidHeapPointer_congr hm.bounds, hvalid, hs.aligned hr, hmarked, hbit,
          hm.bounds.begin, henq, hm₁.bounds.begin, hloop]
      · rw [hs.contentWord_inj hp hr heq.symm]
        simp

/-- Marking root after root. -/
theorem MarkState.markWords {ram : ℕ → Word} (hwf : WellFormed h₀ objects)
    (hR : Closed (PointsTo h₀ objects) R) :
    ∀ {roots prior : List ℕ} {h : MemoryChunk} {log : QueueLog},
      MarkState h₀ objects R prior [] [] h log → Scanned h₀ objects prior prior →
      (∀ a ∈ roots, ValidWord h₀ objects (ram a)) →
      (∀ a ∈ roots, ∀ p ∈ objects, ram a = contentWord h₀ p → p ∈ R) →
      ∃ h' log' more, markWordsLog ram h roots log = some (h', log') ∧
        MarkState h₀ objects R (prior ++ more) [] [] h' log' ∧
        Scanned h₀ objects (prior ++ more) (prior ++ more) ∧
        ∀ a ∈ roots, ∀ p ∈ objects, ram a = contentWord h₀ p → p ∈ prior ++ more
  | [], prior, h, log, hm, hclosed, _, _ => by
    refine ⟨h, log, [], rfl, by rw [List.append_nil]; exact hm, by rw [List.append_nil]; exact hclosed,
      fun a ha => absurd ha List.not_mem_nil⟩
  | a :: roots, prior, h, log, hm, hclosed, hvalid, hroots => by
    obtain ⟨h₁, log₁, more, hmark, hm₁, hclosed₁, hseen⟩ :=
      hm.mark hwf hR hclosed (hvalid a (List.mem_cons_self ..)) (hroots a (List.mem_cons_self ..))
    obtain ⟨h', log', more', hrest, hm', hclosed', hseen'⟩ := MarkState.markWords hwf hR hm₁ hclosed₁
      (fun b hb => hvalid b (List.mem_cons_of_mem _ hb))
      (fun b hb => hroots b (List.mem_cons_of_mem _ hb))
    rw [List.append_assoc] at hm' hclosed' hseen'
    refine ⟨h', log', more ++ more', ?_, hm', hclosed', fun b hb p hp heq => ?_⟩
    · rw [markWordsLog, hmark]
      exact hrest
    · rcases List.mem_cons.mp hb with rfl | hb
      · rw [← List.append_assoc]
        exact List.mem_append_left _ (hseen p hp heq)
      · exact hseen' b hb p hp heq

end Queue

/-! ### Reachability -/

/-- The objects reachable from the roots at these addresses. -/
def Live (h : MemoryChunk) (objects : List ℕ) (ram : ℕ → Word) (roots : List ℕ) : Set ℕ :=
  Reachable (PointsTo h objects) {p | p ∈ objects ∧ ∃ a ∈ roots, ram a = contentWord h p}

/-- What marking makes of a well-formed heap `h`. -/
structure Marked (h : MemoryChunk) (objects : List ℕ) (live : Set ℕ) (h' : MemoryChunk) : Prop where
  bounds : SameBounds h h'
  same : ∀ k, (∀ p ∈ objects, k ≠ p + 1) → h'.words k = h.words k
  marked : ∀ p ∈ objects, getMarkBit (h'.words (p + 1)) = true ↔ p ∈ live
  dequeued : ∀ p ∈ objects, isEnqueuedBit (h'.words (p + 1)) = false

/-- The state before the first root. -/
theorem WellFormed.markState {h : MemoryChunk} {objects : List ℕ} (hwf : WellFormed h objects)
    (R : Set ℕ) : MarkState h objects R [] [] [] h [] where
  bounds := .refl h
  same := fun _ _ => rfl
  marked := fun p hp => by simp [hwf.unmarked p hp]
  enqueued := fun p hp => by simp [hwf.dequeued p hp]
  slots := fun i s e _ he => by simp at he
  nodup := List.nodup_nil
  live := fun p hp => absurd hp List.not_mem_nil
  logged := rfl
  tails := fun x hx => absurd hx List.not_mem_nil

/-- Marking any sequence of roots in a well-formed heap ends, and marks exactly the objects that the
    roots reach. On the way the tail of the queue stays at or below `heap.current`, and each object is
    enqueued at most once. -/
theorem mark_reaches {h : MemoryChunk} {objects : List ℕ} {ram : ℕ → Word} {roots : List ℕ}
    (hwf : WellFormed h objects) (hroots : ∀ a ∈ roots, ValidWord h objects (ram a)) :
    ∃ h' log, markWords ram h roots = some h' ∧ markWordsLog ram h roots [] = some (h', log) ∧
      Marked h objects (Live h objects ram roots) h' ∧
      (log.map Prod.fst).Nodup ∧ ∀ x ∈ log, x.2 ≤ h.current := by
  have hR : Closed (PointsTo h objects) (Live h objects ram roots) := closed_reachable
  obtain ⟨h', log, seen, hrun, hm, hclosed, hseen⟩ :=
    MarkState.markWords hwf hR (hwf.markState _) (fun p hp => absurd hp List.not_mem_nil) hroots
      fun a ha p hp heq => subset_reachable ⟨hp, a, ha, heq⟩
  rw [List.nil_append] at hm hclosed hseen
  have hlive : ∀ p, p ∈ seen ↔ p ∈ Live h objects ram roots := by
    refine fun p => ⟨fun hp => (hm.live p (by simpa using hp)).2, fun hp => ?_⟩
    have hsub : Live h objects ram roots ⊆ {p | p ∈ seen} :=
      Closed.reachable_subset (fun p hp q hpq => hclosed p hp q hpq)
        fun q ⟨hq, a, ha, heq⟩ => hseen a ha q hq heq
    exact hsub hp
  refine ⟨h', log, markWordsLog_erase hrun, hrun, ⟨hm.bounds, hm.same, fun p hp => ?_, fun p hp => ?_⟩,
    ?_, hm.tails⟩
  · rw [hm.marked p hp, List.append_nil, hlive]
  · rw [Bool.eq_false_iff, Ne, hm.enqueued p hp]
    exact List.not_mem_nil
  · rw [hm.logged]
    refine List.Nodup.map_on (fun a _ b _ heq => by omega) (by simpa using hm.nodup)

/-- Two arrays that point to each other, and an empty one that ends at `heap.current`. -/
def cyclicHeap : MemoryChunk where
  begin := 16
  end_ := 32
  current := 24
  size := 16
  words k := [11, 0, ptr 21, 11, 0, ptr 18, 3, 0].getD k 0

theorem cyclicHeap_wellFormed : WellFormed cyclicHeap [0, 3, 6] where
  tiles := ⟨rfl, by decide, rfl, by decide, rfl, by decide, rfl⟩
  begin_le := by decide
  current_le := by decide
  span := by decide
  fits := by decide
  unmarked := by decide
  dequeued := by decide
  fields := by
    intro p hp k ⟨hlo, hhi⟩ _
    simp only [List.mem_cons, List.not_mem_nil, or_false] at hp
    rcases hp with rfl | rfl | rfl
    · obtain rfl : k = 2 := Nat.le_antisymm (Nat.le_of_lt_succ hhi) hlo
      exact ⟨3, by decide, by decide⟩
    · obtain rfl : k = 5 := Nat.le_antisymm (Nat.le_of_lt_succ hhi) hlo
      exact ⟨0, by decide, by decide⟩
    · exact absurd (Nat.lt_of_le_of_lt hlo hhi) (by decide)

/-- One root points into the cycle, one to the empty array. -/
theorem mark_reaches_cyclicHeap :
    ∃ h' log, markWords (fun a => if a = 0 then ptr 21 else ptr 24) cyclicHeap [0, 1] = some h' ∧
      markWordsLog (fun a => if a = 0 then ptr 21 else ptr 24) cyclicHeap [0, 1] [] = some (h', log) ∧
      Marked cyclicHeap [0, 3, 6] (Live cyclicHeap [0, 3, 6] (fun a => if a = 0 then ptr 21 else ptr 24)
        [0, 1]) h' ∧ (log.map Prod.fst).Nodup ∧ ∀ x ∈ log, x.2 ≤ cyclicHeap.current := by
  refine mark_reaches cyclicHeap_wellFormed fun a ha _ => ?_
  rcases List.mem_cons.mp ha with rfl | ha
  · exact ⟨3, by decide, by decide⟩
  · rw [List.mem_singleton.mp ha]
    exact ⟨6, by decide, by decide⟩

end Lama

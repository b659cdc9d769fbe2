import PlvmHomeworks.Tools.CallReturn
import PlvmHomeworks.Tools.Tended

/-! The slots that the collector scans, in whole runs: the instructions that allocate keep them sound too. -/

namespace Lama
open Outcome Runs

variable {im : Image} {out : Word → Prop} {e : Env} {f : Bytefile} {s s' : State} {os : List HeapObject}
  {w : Word} {inst : Inst} {a n : ℕ}

/-! ### Requests -/

/-- `CLOSURE` pushes sound words. -/
theorem Rooted.pushLocations : ∀ {ls : List LocationEntry} {s s' : State}, Rooted im out os s →
    CapturesTaken im out e s ls → pushLocations im e s ls = .ok s' → Rooted im out os s'
  | [], s, s', h, _, hp => by
    cases hp
    exact h
  | l :: ls, s, s', h, ht, hp => by
    obtain ⟨a, ha, hp⟩ := bind_eq_ok.mp hp
    obtain ⟨w, hw, hp⟩ := bind_eq_ok.mp hp
    obtain ⟨s₁, hs₁, hp⟩ := bind_eq_ok.mp hp
    have hone : Lama.pushLocations im e s [l] = .ok s₁ :=
      bind_eq_ok.mpr ⟨a, ha, bind_eq_ok.mpr ⟨w, hw, bind_eq_ok.mpr ⟨s₁, hs₁, rfl⟩⟩⟩
    exact (h.pushed (h.loaded (ht.1 a ha) hw) hs₁).pushLocations (ht.2 s₁ hone) hp

/-- The type of the object that an instruction builds. -/
def Inst.builds : Inst → LamaType
  | .sexp _ _ => .sexp
  | .closure _ _ => .closure
  | .barray _ => .array
  | _ => .string

/-- The state of a request, and its extra roots: the text that is copied, and a printed value. -/
structure Requesting (im : Image) (out : Word → Prop) (os : List HeapObject) (type : LamaType)
    (r : AllocRequest) : Prop where
  rooted : Rooted im out os r.state
  extra : ∀ a ∈ r.extraRoots, a = im.bstringRoot ∨ SoundIn out r.state.mem.heap os (r.state.mem.ram a)
  nodup : r.extraRoots.Nodup
  tag : r.tag = type.tag
  bytes : ∀ len : ℕ, r.len = len → len < 2 ^ 28 → r.bytes = objBytes type len

theorem Rooted.requesting {r : AllocRequest} (h : Rooted im out os s) (ht : TakesSound im out e s inst)
    (hr : allocRequest im e f s inst = .ok (some r)) : Requesting im out os inst.builds r := by
  cases inst
  case string pos =>
    obtain ⟨chars, -, hr⟩ := bind_eq_ok.mp hr
    cases hr
    refine ⟨h.setRoot (Or.inl rfl), fun a ha => Or.inl (List.mem_singleton.mp ha), List.nodup_singleton _,
      rfl, fun len hlen hlt => ?_⟩
    change unboxedLen chars.length = len at hlen
    show toSize (8 + unboxedLen chars.length + 1) = 8 + len + 1
    unfold toSize
    omega
  case sexp pos n =>
    obtain ⟨chars, -, hr⟩ := bind_eq_ok.mp hr
    obtain ⟨hash, -, hr⟩ := bind_eq_ok.mp hr
    cases hr
    refine ⟨h, fun a ha => absurd ha List.not_mem_nil, List.nodup_nil, rfl, fun len hlen hlt => ?_⟩
    change n = len at hlen
    show toSize (8 + 4 * (n + 1)) = 8 + 4 * (len + 1)
    unfold toSize
    omega
  case closure entry ls =>
    obtain ⟨t, hp, hr⟩ := bind_eq_ok.mp hr
    cases hr
    refine ⟨h.pushLocations ht hp, fun a ha => absurd ha List.not_mem_nil, List.nodup_nil, rfl,
      fun len hlen hlt => ?_⟩
    change (ls.length : ℤ) + 1 = len at hlen
    show toSize (8 + 4 * (ls.length + 1)) = 8 + 4 * len
    unfold toSize
    omega
  case barray n =>
    cases hr
    refine ⟨h, fun a ha => absurd ha List.not_mem_nil, List.nodup_nil, rfl, fun len hlen hlt => ?_⟩
    change n = len at hlen
    show toSize (8 + 4 * n) = 8 + 4 * len
    unfold toSize
    omega
  case lstring =>
    obtain ⟨q, hp, hr⟩ := bind_eq_ok.mp hr
    obtain ⟨rfl, hword, h₁⟩ := h.popped hp
    cases hr
    have hdiffer := im.roots_differ
    refine ⟨(h₁.setRoot (a := im.lstringRoot) (w := s.mem.ram (s.top + 1)) (Or.inr rfl)).setRoot (Or.inl rfl),
      fun a ha => ?_, by simp [hdiffer.symm, allocString], rfl, fun len hlen hlt => ?_⟩
    · rcases List.mem_cons.mp ha with rfl | ha
      · refine Or.inr ?_
        show SoundIn out s.mem.heap os (((s.mem.setRam im.lstringRoot (s.mem.ram (s.top + 1))).setRam
          im.bstringRoot e.stringBuf).ram im.lstringRoot)
        rw [show ((s.mem.setRam im.lstringRoot (s.mem.ram (s.top + 1))).setRam
          im.bstringRoot e.stringBuf).ram im.lstringRoot = s.mem.ram (s.top + 1) from
            (if_neg hdiffer.symm).trans (if_pos rfl)]
        exact hword
      · exact Or.inl (List.mem_singleton.mp ha)
    · change unboxedLen e.printed.length = len at hlen
      show toSize (8 + unboxedLen e.printed.length + 1) = 8 + len + 1
      unfold toSize
      omega
  all_goals cases hr

/-! ### The new object -/

/-- The last object, at the offset `n`, is being built; this is its header. -/
structure Building (im : Image) (out : Word → Prop) (os : List HeapObject) (n : ℕ) (x : Word) (s : State) :
    Prop extends Rooted im out os s where
  header : s.mem.heap.words n = x
  built : ∃ o ∈ os, o.offset = n
  others : ∀ o ∈ os, o.offset = n ∨ o.offset + objectWords (s.mem.heap.words o.offset) ≤ n

/-- What the collector is given as roots. -/
theorem Requesting.validRoots {type : LamaType} {r : AllocRequest} (h : Requesting im out os type r)
    (htext : im.bstringRoot ∈ r.extraRoots →
      isValidHeapPointer r.state.mem.heap (r.state.mem.ram im.bstringRoot) = false) :
    ValidRoots r.state.mem (os.map HeapObject.offset) (r.state.roots im r.extraRoots) := by
  obtain ⟨⟨free, hr⟩, -, havoids, -⟩ := h.rooted.heap
  refine ⟨fun a ha => ?_, fun a ha => ?_, h.nodup, ?_, fun a ha => ?_⟩
  · obtain ⟨hlo, hhi⟩ := mem_region.mp ha
    exact (h.rooted.slots a hlo hhi).valid hr havoids
  · rcases h.extra a ha with rfl | hsound
    · intro hvalid
      rw [htext ha] at hvalid
      cases hvalid
    · exact hsound.valid hr havoids
  · rw [show r.state.mem.ram (r.state.roots im r.extraRoots).stackBottom = 0 from h.rooted.bottom]
    exact not_valid_zero hr.pos
  · rw [h.rooted.customData a ha]
    exact not_valid_zero hr.pos

/-- `alloc_*` leaves an object with a header and zeros behind the others. -/
theorem Requesting.allocated {type : LamaType} {r : AllocRequest} {p : ℕ} {t : State}
    (h : Requesting im out os type r) (hs : Servable im out e r) (ha : allocObject im e r = .ok (p, t)) :
    ∃ n os' len, p = t.mem.heap.begin + n ∧ len < 2 ^ 28 ∧ Building im out os' n (headerWord type len) t := by
  obtain ⟨⟨hpos, hlt⟩, hroom, htext⟩ := hs
  obtain ⟨len, hlen⟩ := Int.eq_ofNat_of_zero_le hpos
  have hlen' : len < 2 ^ 28 := by omega
  have hbytes := h.bytes len hlen hlen'
  obtain ⟨m, hdata, rfl⟩ := (allocObject_eq_ok h.tag hlen hbytes).mp ha
  obtain ⟨m₁, m₂, halloc, h₂, h₃⟩ := allocData_ok hdata
  rw [hbytes] at hroom
  obtain ⟨n, os', rfl, hr, hbeside, havoids, hfields, hslots, hothers⟩ :=
    h.rooted.heap.request rfl (h.validRoots htext) hroom halloc
  obtain rfl := hr.headed hlen' h₂ h₃
  have hheap := SoundHeap.headed hlen' hr h.rooted.zero hbeside havoids hfields
  have hpos := (h.rooted.heap.filled).elim fun _ hr => hr.pos
  have hzero : ∀ a, r.state.mem.ram a = 0 → m₁.ram a = 0 := fun a ha => by
    rw [hothers a (by rw [ha]; exact not_valid_zero hpos), ha]
  refine ⟨n, os' ++ [(⟨n, type, len⟩ : HeapObject)], len, rfl, hlen',
    ⟨hheap, h.rooted.low, h.rooted.high, h.rooted.zero, fun a hlo hhi => ?_,
    fun a ha => hzero a (h.rooted.customData a ha), hzero _ h.rooted.bottom⟩, if_pos rfl,
    ⟨_, List.mem_append_right _ (List.mem_singleton_self _), rfl⟩, fun o ho => ?_⟩
  · exact (hslots a (mem_region.mpr ⟨hlo, hhi⟩) (h.rooted.slots a hlo hhi)).congr rfl
      fun _ ho => List.mem_append_left _ ho
  · rcases List.mem_append.mp ho with ho | ho
    · have hends := hr.ends ho
      have hbounds := hr.tiles.bounds (List.mem_map_of_mem (f := HeapObject.offset) ho)
      have hother : (m₁.setWord n (headerWord type len)).heap.words o.offset = m₁.heap.words o.offset :=
        if_neg (by omega)
      unfold wordsAt at hbounds
      rw [State.withMem_mem, hother]
      exact Or.inr hbounds.2.1
    · exact Or.inl (by rw [List.mem_singleton.mp ho])

section Building
variable {x : Word} {k : ℕ}

theorem Building.content (h : Building im out os n x s) :
    SoundIn out s.mem.heap os (ptr (s.mem.heap.begin + n + headerSize)) := by
  obtain ⟨o, ho, rfl⟩ := h.built
  exact Or.inr (Or.inr ⟨o, ho, rfl⟩)

/-- A word of the content is written, a sound one if it is a field. -/
theorem Building.store (h : Building im out os n x s) (hk : n + headerSize ≤ k)
    (hw : n + firstField x ≤ k → k < n + objectWords x → SoundIn out s.mem.heap os w)
    (hs : storeHeap s (s.mem.heap.begin + k) w = .ok s') :
    s'.mem.heap.begin = s.mem.heap.begin ∧ Building im out os n x s' := by
  obtain rfl := storeHeap_at hs
  unfold headerSize at hk
  obtain ⟨free, hr⟩ := h.heap.filled
  have hother : ∀ j, j ≤ n + 1 → (s.mem.heap.setWord k w).words j = s.mem.heap.words j :=
    fun j hj => if_neg (by omega)
  have hle : ∀ o ∈ os, o.offset ≤ n := fun o ho => by
    have := h.others o ho
    omega
  have hends : ∀ o ∈ os, o.offset + 1 ≤ n + 1 := fun o ho => Nat.succ_le_succ (hle o ho)
  refine ⟨rfl, h.toRooted.withHeap (h.heap.setWord (fun o ho => ?_) fun o ho hfield => ?_) rfl, ?_, h.built,
    fun o ho => ?_⟩
  · have := hends o ho
    omega
  · rcases h.others o ho with heq | hbelow
    · obtain ⟨hlo, hhi⟩ := hfield
      rw [heq, h.header] at hlo hhi
      exact hw hlo hhi
    · have := hfield.2
      omega
  · rw [State.withHeap_heap, hother n (by omega), h.header]
  · rw [State.withHeap_heap, hother o.offset (by have := hle o ho; omega)]
    exact h.others o ho

/-- The characters of a string are in none of its fields. -/
theorem Building.storeWords {len : ℕ} (hlen : len < 2 ^ 29) : ∀ {ws : List Word} {k : ℕ} {s s' : State},
    Building im out os n (headerWord .string len) s → n + headerSize ≤ k →
      storeWords (s.mem.heap.begin + k) ws s = .ok s' →
      s'.mem.heap.begin = s.mem.heap.begin ∧ Building im out os n (headerWord .string len) s'
  | [], k, s, s', h, _, hs => by
    cases hs
    exact ⟨rfl, h⟩
  | w :: ws, k, s, s', h, hk, hs => by
    obtain ⟨s₁, h₁, hs⟩ := bind_eq_ok.mp hs
    have hfirst : firstField (headerWord .string len) = objectWords (headerWord .string len) := by
      rw [firstField, headerWord_tag hlen, ofTag_eq_some_iff.mpr rfl]
    obtain ⟨hbegin, hb⟩ := h.store hk (fun hlo hhi => absurd hhi (by omega)) h₁
    rw [Nat.add_assoc, ← hbegin] at hs
    obtain ⟨hbegin', hb'⟩ := hb.storeWords hlen (by omega) hs
    exact ⟨hbegin'.trans hbegin, hb'⟩

/-- The operands are sound, and become fields. -/
theorem Building.popInto {lo : ℕ} : ∀ {cnt : ℕ} {s s' : State}, Building im out os n x s →
    popInto im (s.mem.heap.begin + n + headerSize) lo cnt s = .ok s' →
      s'.mem.heap.begin = s.mem.heap.begin ∧ Building im out os n x s'
  | 0, s, s', h, hp => by
    cases hp
    exact ⟨rfl, h⟩
  | cnt + 1, s, s', h, hp => by
    obtain ⟨q, hpop, hp⟩ := bind_eq_ok.mp hp
    obtain ⟨rfl, hword, h₁⟩ := h.toRooted.popped hpop
    obtain ⟨s₂, hs, hp⟩ := bind_eq_ok.mp hp
    have hd : Building im out os n x (s.drop 1) := ⟨h₁, h.header, h.built, h.others⟩
    rw [show s.mem.heap.begin + n + headerSize + lo + cnt =
      (s.drop 1).mem.heap.begin + (n + headerSize + lo + cnt) by rw [State.drop_mem]; omega] at hs
    obtain ⟨hbegin, h₂⟩ := hd.store (by omega) (fun _ _ => hword) hs
    rw [show s.mem.heap.begin = s₂.mem.heap.begin from hbegin.symm] at hp ⊢
    exact h₂.popInto hp

/-- The object is pushed. -/
theorem Building.pushed (h : Building im out os n x s)
    (hp : vstackPush im s (ptr (s.mem.heap.begin + n + headerSize)) = .ok s') : Rooted im out os s' :=
  h.toRooted.pushed h.content hp

end Building

/-- The object is filled and pushed. -/
theorem Building.finished {len : ℕ} (hlen : len < 2 ^ 28)
    (h : Building im out os n (headerWord inst.builds len) s) (hi : inst.allocates = true)
    (ha : afterAlloc im e f (s.mem.heap.begin + n) s inst = .ok s') : Rooted im out os s' := by
  have hlen' : len < 2 ^ 29 := by omega
  -- behind the tag or the entry
  have hhead : ∀ {type : LamaType}, type = .sexp ∨ type = .closure →
      firstField (headerWord type len) = 3 := by
    rintro type htype
    rw [firstField, headerWord_tag hlen', ofTag_eq_some_iff.mpr rfl]
    rcases htype with rfl | rfl <;> rfl
  cases inst
  case string pos =>
    obtain ⟨chars, -, ha⟩ := bind_eq_ok.mp ha
    obtain ⟨s₁, h₁, ha⟩ := bind_eq_ok.mp ha
    rw [Nat.add_assoc] at h₁
    obtain ⟨hbegin, hb⟩ := Building.storeWords hlen' h (Nat.le_refl _) h₁
    rw [← hbegin] at ha
    exact hb.pushed ha
  case sexp pos m =>
    obtain ⟨chars, -, ha⟩ := bind_eq_ok.mp ha
    obtain ⟨tag, -, ha⟩ := bind_eq_ok.mp ha
    obtain ⟨s₁, h₁, ha⟩ := bind_eq_ok.mp ha
    obtain ⟨s₂, h₂, ha⟩ := bind_eq_ok.mp ha
    obtain ⟨s₃, h₃, ha⟩ := bind_eq_ok.mp ha
    have hno : ∀ {w h'}, n + firstField (headerWord (Inst.sexp pos m).builds len) ≤ n + headerSize →
        n + headerSize < n + objectWords (headerWord (Inst.sexp pos m).builds len) → SoundIn out h' os w :=
      fun hlo _ => by
        rw [show firstField (headerWord (Inst.sexp pos m).builds len) = 3 from hhead (Or.inl rfl)] at hlo
        unfold headerSize at hlo
        omega
    rw [Nat.add_assoc] at h₁
    obtain ⟨hbegin, hb⟩ := h.store (Nat.le_refl _) hno h₁
    rw [← hbegin] at h₂ h₃ ha
    obtain ⟨hbegin', hb'⟩ := hb.popInto h₂
    rw [← hbegin', Nat.add_assoc] at h₃
    obtain ⟨hbegin'', hb''⟩ := hb'.store (Nat.le_refl _) hno h₃
    rw [← hbegin', ← hbegin''] at ha
    exact hb''.pushed ha
  case closure entry ls =>
    obtain ⟨s₁, h₁, ha⟩ := bind_eq_ok.mp ha
    obtain ⟨s₂, h₂, ha⟩ := bind_eq_ok.mp ha
    rw [Nat.add_assoc] at h₁
    obtain ⟨hbegin, hb⟩ := h.store (Nat.le_refl _) (fun hlo _ => by
      rw [show firstField (headerWord (Inst.closure entry ls).builds len) = 3 from hhead (Or.inr rfl)] at hlo
      unfold headerSize at hlo
      omega) h₁
    rw [← hbegin] at h₂ ha
    obtain ⟨hbegin', hb'⟩ := hb.popInto h₂
    rw [← hbegin'] at ha
    exact hb'.pushed ha
  case barray m =>
    obtain ⟨s₁, h₁, ha⟩ := bind_eq_ok.mp ha
    obtain ⟨hbegin, hb⟩ := h.popInto h₁
    rw [← hbegin] at ha
    exact hb.pushed ha
  case lstring =>
    obtain ⟨s₁, h₁, ha⟩ := bind_eq_ok.mp ha
    rw [Nat.add_assoc] at h₁
    obtain ⟨hbegin, hb⟩ := Building.storeWords hlen' h (Nat.le_refl _) h₁
    rw [← hbegin] at ha
    exact hb.pushed ha
  all_goals exact Bool.noConfusion hi

/-! ### A turn -/

/-- An allocating instruction. -/
theorem Rooted.allocates {q : State × Option (Option ℤ)} (h : Rooted im out os s)
    (ht : Tended im out e f s inst) (hi : inst.allocates = true) (hx : exec im e f s inst = .ok q) :
    ∃ os', Rooted im out os' q.1 := by
  rw [exec_allocates hi] at hx
  obtain ⟨o, ho, hx⟩ := bind_eq_ok.mp hx
  obtain ⟨r, rfl, -⟩ := allocRequest_ok h.high hi ho
  obtain ⟨⟨p, t⟩, halloc, hx⟩ := bind_eq_ok.mp hx
  obtain ⟨s', hafter, hx⟩ := bind_eq_ok.mp hx
  cases hx
  obtain ⟨n, os', len, rfl, hlen, hb⟩ := (h.requesting ht.takes ho).allocated (ht.requests _ ho r rfl) halloc
  exact ⟨os', hb.finished hlen hi hafter⟩

/-- The slots that a return takes back hold sound words. -/
theorem Rooted.returned {q : State × Option ℤ} (h : Rooted im out os s)
    (ht : ∀ a ∈ region (s.frame.resultSlot + 1) (s.top + 1), SoundWord out s.mem.heap (s.mem.ram a))
    (hx : cstackEnd im s = .ok q) : Rooted im out os q.1 := by
  obtain ⟨hroom, -, hlo, hhi, rfl⟩ := cstackEnd_ok h.high hx
  have hword := h.slots _ (Nat.lt_succ_self _) hroom
  have hb := im.bottom_lt
  have hstored := h.setSlot (a := s.frame.resultSlot) ⟨Nat.le_of_lt hlo, hhi⟩ fun _ => hword
  refine (hstored.moveTop (s.frame.resultSlot - 1) (by omega) (by omega)
    fun a ha ha' => ?_).congr rfl rfl
  show SoundIn out s.mem.heap os (if a = s.frame.resultSlot then _ else _)
  by_cases hresult : a = s.frame.resultSlot
  · rw [if_pos hresult]
    exact hword
  · rw [if_neg hresult]
    exact h.soundWord (ht a (mem_region.mpr ⟨by omega, Nat.lt_succ_of_le ha'⟩))

/-- An instruction keeps the scanned slots sound. -/
theorem Rooted.exec {q : State × Option (Option ℤ)} (h : Rooted im out os s) (ht : Tended im out e f s inst)
    (hx : exec im e f s inst = .ok q) : ∃ os', Rooted im out os' q.1 := by
  by_cases hi : inst.allocates = true
  · exact h.allocates ht hi hx
  rw [Bool.not_eq_true] at hi
  cases inst
  case jmp target =>
    cases hx
    exact ⟨os, h⟩
  case cjmpz target =>
    obtain ⟨p, hp, hx⟩ := bind_eq_ok.mp hx
    cases hx
    obtain ⟨rfl, -, h₁⟩ := h.popped hp
    exact ⟨os, h₁⟩
  case cjmpnz target =>
    obtain ⟨p, hp, hx⟩ := bind_eq_ok.mp hx
    cases hx
    obtain ⟨rfl, -, h₁⟩ := h.popped hp
    exact ⟨os, h₁⟩
  case end_ =>
    obtain ⟨r, hr, hx⟩ := bind_eq_ok.mp hx
    cases hx
    exact ⟨os, h.returned ht.takes hr⟩
  case ret =>
    obtain ⟨r, hr, hx⟩ := bind_eq_ok.mp hx
    cases hx
    exact ⟨os, h.returned ht.takes hr⟩
  case callc returnIp argc =>
    obtain ⟨closure, -, hx⟩ := bind_eq_ok.mp hx
    obtain ⟨p, -, hx⟩ := bind_eq_ok.mp hx
    obtain ⟨entry, -, hx⟩ := bind_eq_ok.mp hx
    obtain ⟨s₁, h₁, hx⟩ := bind_eq_ok.mp hx
    obtain ⟨-, -, rfl⟩ := cstackCall_ok h₁
    cases hx
    exact ⟨os, h.congr rfl rfl⟩
  case call returnIp offset argc =>
    obtain ⟨s₁, h₁, hx⟩ := bind_eq_ok.mp hx
    obtain ⟨-, -, rfl⟩ := cstackCall_ok h₁
    cases hx
    exact ⟨os, h.congr rfl rfl⟩
  all_goals first
    | exact Bool.noConfusion hi
    | exact ⟨os, h.execPlain ht (exec_execPlain (Or.inl rfl) hi rfl hx).2⟩
    | exact ⟨os, h.execPlain ht (exec_execPlain (Or.inr rfl) hi rfl hx).2⟩

/-- A turn keeps the scanned slots sound. -/
theorem TendedTurn.rooted (ht : TendedTurn im out f s s') (h : ∃ os, Rooted im out os s) :
    ∃ os, Rooted im out os s' := by
  obtain ⟨e, inst, next, ⟨ip, hip, hread⟩, htended, hstep⟩ := ht
  obtain ⟨os, h⟩ := h
  rw [step, hip] at hstep
  simp only [hread, ok_bind] at hstep
  obtain ⟨⟨t, jump⟩, hx, hstep⟩ := bind_eq_ok.mp hstep
  cases hstep
  obtain ⟨os', h'⟩ := h.exec htended hx
  exact ⟨os', h'.congr rfl rfl⟩

/-! ### Runs -/

/-- `NULL` points out of every heap, and `__init` maps the first one beside the virtual stack, where no word
    of `out` points to. -/
structure MapsBeside (im : Image) (out : Word → Prop) (heapBegin : ℕ) : Prop where
  zero : out 0
  pos : 0 < heapBegin
  fits : heapBegin + minimumHeapCapacity < 2 ^ 30
  beside : heapBegin + minimumHeapCapacity ≤ im.vstack ∨ im.bottom ≤ heapBegin
  avoids : Avoids out heapBegin (heapBegin + minimumHeapCapacity)

theorem rooted_init {heapBegin : ℕ} {ip : ℤ} (hmaps : MapsBeside im out heapBegin)
    (hinit : interpreteInit im f heapBegin ip = .ok s) : Rooted im out [] s := by
  obtain ⟨hzero, hpos, hfits, hbeside, havoids⟩ := hmaps
  obtain ⟨u, hcount, hinit⟩ := bind_eq_ok.mp hinit
  cases hinit
  rw [ensure_eq_ok] at hcount
  have hb := im.bottom_lt
  have hbottom : im.bottom = im.vstack + vstackSize := rfl
  have htop : ptrAdd (im.bottom - 1) (-(toSize f.globalAreaSize : ℤ)) =
      im.bottom - 1 - toSize f.globalAreaSize := by
    have hvstack := im.vstack_pos
    have := ptrAdd_eq (p := im.bottom - 1) (n := -(toSize f.globalAreaSize : ℤ)) (by omega) (by omega)
    omega
  have hreserved : Reserved (initHeap heapBegin) [] 0 0 :=
    ⟨rfl, by simp, by simp, by simp, fun _ _ _ => rfl, hpos, rfl, Nat.le_add_right _ _, rfl, hfits⟩
  refine ⟨⟨⟨0, hreserved⟩, hbeside, havoids, by simp⟩, ?_, ?_, hzero, fun _ _ _ => Or.inr (Or.inl hzero),
    fun _ _ => rfl, rfl⟩
  · show im.vstack ≤ ptrAdd (im.bottom - 1) (-(toSize f.globalAreaSize : ℤ)) + 1
    omega
  · exact ptrAdd_lt _ _

/-- In a run whose turns have what they rely on, the scanned slots are sound. -/
theorem rooted_of_reachable {heapBegin : ℕ} {ip : ℤ} {s₀ : State} (hmaps : MapsBeside im out heapBegin)
    (hinit : interpreteInit im f heapBegin ip = .ok s₀) (hrun : s ∈ Reachable (TendedTurn im out f) {s₀}) :
    ∃ os, Rooted im out os s := by
  refine Closed.reachable_subset (S := {t : State | ∃ os, Rooted im out os t}) (fun t ht u hu => hu.rooted ht)
    (fun t ht => ?_) hrun
  rw [Set.mem_singleton_iff.mp ht]
  exact ⟨[], rooted_init hmaps hinit⟩

section Computed
variable [DecidablePred out] [∀ begin end_, Decidable (Avoids out begin end_)]

/-- A turn, computed; it stops where the turn does not have what it relies on. -/
def tendedTurn (im : Image) (out : Word → Prop) [DecidablePred out]
    [∀ begin end_, Decidable (Avoids out begin end_)] (f : Bytefile) (s : State) (e : Env) :
    Except Stop State := do
  let (inst, _) ← orStop (s.fetch f) .exit
  ensure (Tended im out e f s inst) .exit
  step im f e s

theorem tendedTurn_ok (h : tendedTurn im out f s e = .ok s') : TendedTurn im out f s s' := by
  obtain ⟨⟨inst, next⟩, hfetch, h⟩ := bind_eq_ok.mp h
  obtain ⟨u, ht, h⟩ := bind_eq_ok.mp h
  rw [orStop_eq_ok] at hfetch
  rw [ensure_eq_ok] at ht
  exact ⟨e, inst, next, State.executes_iff.mpr hfetch, ht, h⟩

/-- The run from the start that takes this from outside. -/
def tendedRun (im : Image) (out : Word → Prop) [DecidablePred out]
    [∀ begin end_, Decidable (Avoids out begin end_)] (f : Bytefile) (heapBegin : ℕ) (ip : ℤ)
    (es : List Env) : Except Stop State := do
  let s ← interpreteInit im f heapBegin ip
  es.foldlM (tendedTurn im out f) s

/-- What a computed run shows. -/
theorem exists_reachable {α : Type} {heapBegin : ℕ} {ip : ℤ} {es : List Env} {obs : State → α} {x : α}
    (h : (tendedRun im out f heapBegin ip es).map obs = .ok x) :
    ∃ s₀ s, interpreteInit im f heapBegin ip = .ok s₀ ∧ s ∈ Reachable (TendedTurn im out f) {s₀} ∧
      obs s = x := by
  obtain ⟨s, hrun, hobs⟩ := exists_of_map_eq_ok h
  obtain ⟨s₀, hinit, hrun⟩ := bind_eq_ok.mp hrun
  have hturn : ∀ s e s', tendedTurn im out f s e = .ok s' → True ∧ TendedTurn im out f s s' :=
    fun _ _ _ h => ⟨trivial, tendedTurn_ok h⟩
  have hreach : Reach (TendedTurn im out f) (fun _ => True) s₀ s := reach_of_foldlM hturn hrun
  exact ⟨s₀, s, hinit, ⟨s₀, rfl, Relation.ReflTransGen.mono (fun _ _ h => h.2) _ _ hreach⟩, hobs⟩

end Computed

/-- A loop of the called body chains four arrays: the second moves the heap, the fourth needs another
    collection. -/
def chainArrays : List UInt8 :=
  82 :: intBytes 0 ++ intBytes 0 ++ 86 :: intBytes 19 ++ intBytes 0 ++ 22 ::
    82 :: intBytes 0 ++ intBytes 2 ++ 16 :: intBytes 4 ++ 65 :: intBytes 0 ++ 24 ::
    33 :: intBytes 0 ++ 33 :: intBytes 1 ++ 116 :: intBytes 2 ++ 65 :: intBytes 1 ++ 24 ::
    33 :: intBytes 0 ++ 16 :: intBytes 1 ++ 2 :: 65 :: intBytes 0 ++ 81 :: intBytes 39 ++
    33 :: intBytes 1 ++ [22]

/-- A called body leaves two arrays in slots that the next call reserves, after a collection. -/
def staleLocal : List UInt8 :=
  82 :: intBytes 0 ++ intBytes 0 ++ 86 :: intBytes 49 ++ intBytes 0 ++ 24 ::
    16 :: intBytes 7 ++ 16 :: intBytes 7 ++ 16 :: intBytes 7 ++ 116 :: intBytes 3 ++
    86 :: intBytes 69 ++ intBytes 0 ++ 22 ::
    82 :: intBytes 0 ++ intBytes 3 ++ 116 :: intBytes 0 ++ 116 :: intBytes 0 ++ 22 ::
    82 :: intBytes 0 ++ intBytes 4 ++ 116 :: intBytes 0 ++ [22]

/-- Turns in which `mremap` leaves the heap where it is. -/
def stayingEnv : Env := { sampleEnv with mremap := some sampleHeap }

/-- A closure takes the address of its captured value, and then builds an array. -/
def capturedAddress : List UInt8 :=
  82 :: intBytes 0 ++ intBytes 1 ++ 84 :: intBytes 29 ++ intBytes 1 ++ 1 :: intBytes 0 ++
    85 :: intBytes 0 ++ 22 ::
    83 :: intBytes 0 ++ intBytes 0 ++ 51 :: intBytes 0 ++ 116 :: intBytes 0 ++ [22]

/-- The address that `LDA` pushes is inside the closure. -/
example : (programRun sampleImage (program 0 capturedAddress) { sampleEnv with closureSize := 1 } 5).map
    (fun states => (states.drop 5).map fun s => (s.fetch (program 0 capturedAddress),
      decide (s.mem.heap.end_ < s.mem.heap.current + bytesToWords 8), decide (s.top + 2 < sampleImage.bottom),
      decide (Markable s.mem.heap (s.mem.ram (s.top + 2))))) =
      .ok [(some (.barray 0, 48), true, true, false)] := by decide +kernel

end Lama

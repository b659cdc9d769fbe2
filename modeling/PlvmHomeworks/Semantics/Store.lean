import PlvmHomeworks.Library.Transparency
import PlvmHomeworks.Semantics.Vm
import PlvmHomeworks.Tools.Construction

/-! The store of the abstract machine in the heap of the runtime.

    The objects of the store that the heap still has lie there one after another, each at its place, and
    a collection changes the places. What a request finds out of the way stays what it was. -/

namespace Lama
open Outcome

/-- Where the objects of the store lie; an object that has been reclaimed is nowhere. -/
abbrev Place := ℕ → Option ℕ

/-- The word is the value. -/
def Denotes (h : MemoryChunk) (place : Place) : Val → Word → Prop
  | .int n, w => w = box (BitVec.ofInt 32 n) ∧ -2 ^ 30 ≤ n ∧ n < 2 ^ 30
  | .null, w => w = 0
  | .ref id, w => ∃ p, place id = some p ∧ w = contentWord h p

/-- The word is the value of a slot; one that was not set holds some value. -/
def SlotHolds (h : MemoryChunk) (place : Place) : Option Val → Word → Prop
  | some v, w => Denotes h place v w
  | none, w => ∃ v, Denotes h place v w

/-- The object with these words for its fields. -/
def Obj.aggregate (o : Obj) (ws : List Word) : Aggregate :=
  match o.kind with
  | .sexp hash => .sexp hash ws
  | .array => .array ws
  | .closure entry => .closure entry ws

/-- The object lies at `p`. -/
def ObjAt (h : MemoryChunk) (place : Place) (o : Obj) (p : ℕ) : Prop :=
  ∃ ws, List.Forall₂ (Denotes h place) o.fields ws ∧ Represents h p (o.aggregate ws)

/-- The objects of the heap are objects of the store, each at its place. -/
structure StoreAt (h : MemoryChunk) (objects : List ℕ) (place : Place) (store : List Obj) : Prop where
  placed : ∀ id p, place id = some p → p ∈ objects ∧ ∃ o, store[id]? = some o ∧ ObjAt h place o p
  apart : ∀ id id' p, place id = some p → place id' = some p → id = id'
  onto : ∀ p ∈ objects, ∃ id, place id = some p

variable {h h' : MemoryChunk} {objects : List ℕ} {place place' : Place} {store : List Obj} {p q : ℕ}
  {A : Aggregate} {v : Val} {w : Word} {o : Obj} {live : Set ℕ}

@[simp] theorem Obj.aggregate_fields (o : Obj) (ws : List Word) : (o.aggregate ws).fields = ws := by
  unfold Obj.aggregate
  split <;> rfl

@[simp] theorem Obj.aggregate_type (o : Obj) (ws : List Word) : (o.aggregate ws).type = o.type := by
  cases o with
  | mk kind fields => cases kind <;> rfl

@[simp] theorem Obj.aggregate_withFields (o : Obj) (ws ws' : List Word) :
    (o.aggregate ws).withFields ws' = o.aggregate ws' := by
  unfold Obj.aggregate
  split <;> rfl

theorem Obj.aggregate_map (o : Obj) (ws : List Word) (move : Word → Word) :
    (o.aggregate ws).map move = o.aggregate (ws.map move) := by
  rw [Aggregate.map, Obj.aggregate_fields, Obj.aggregate_withFields]

theorem Obj.aggregate_len (o : Obj) {ws : List Word} (hlen : o.fields.length = ws.length) :
    (o.aggregate ws).len = o.len := by
  cases o with
  | mk kind fields => cases kind <;> simp_all [Obj.aggregate, Obj.len, Aggregate.len, Aggregate.fields]

/-! ### Values -/

theorem Denotes.congr (hd : Denotes h place v w) (hb : h'.begin = h.begin) : Denotes h' place v w := by
  cases v with
  | int n => exact hd
  | null => exact hd
  | ref id =>
    obtain ⟨p, hp, rfl⟩ := hd
    exact ⟨p, hp, by rw [contentWord, contentWord, hb]⟩

/-- New places, and no other ones for what had one. -/
theorem Denotes.mono (hd : Denotes h place v w) (hp : ∀ id p, place id = some p → place' id = some p) :
    Denotes h place' v w := by
  cases v with
  | int n => exact hd
  | null => exact hd
  | ref id =>
    obtain ⟨p, hid, rfl⟩ := hd
    exact ⟨p, hp id p hid, rfl⟩

theorem SlotHolds.imp {slot : Option Val} (hs : SlotHolds h place slot w)
    (hd : ∀ v, Denotes h place v w → Denotes h' place' v w) : SlotHolds h' place' slot w := by
  cases slot with
  | some v => exact hd v hs
  | none =>
    obtain ⟨v, hv⟩ := hs
    exact ⟨v, hd v hv⟩

/-- The collector can follow a word that is a value. -/
theorem Denotes.valid (hd : Denotes h place v w) (hs : StoreAt h objects place store)
    (hpos : 0 < h.begin) : ValidWord h objects w := by
  intro hvalid
  cases v with
  | int n =>
    rw [hd.1, not_valid_of_unboxed (unboxed_box _)] at hvalid
    cases hvalid
  | null =>
    rw [show w = 0 from hd, not_valid_zero hpos] at hvalid
    cases hvalid
  | ref id =>
    obtain ⟨p, hp, rfl⟩ := hd
    exact ⟨p, (hs.placed id p hp).1, rfl⟩

theorem SlotHolds.valid {slot : Option Val} (hd : SlotHolds h place slot w)
    (hs : StoreAt h objects place store) (hpos : 0 < h.begin) : ValidWord h objects w := by
  cases slot with
  | some v => exact Denotes.valid hd hs hpos
  | none =>
    obtain ⟨v, hv⟩ := hd
    exact hv.valid hs hpos

/-! ### Objects -/

theorem Represents.firstField (hr : Represents h p A) :
    firstField (h.words p) = headerSize + A.first := by
  have htag := ofTag_eq_some_iff.mpr hr.tag
  have hwords := hr.words
  cases A <;> simp only [Lama.firstField, htag, Aggregate.type] <;> rfl

/-- The fields are words of the object. -/
theorem Represents.isField (hr : Represents h p A) {i : ℕ} (hi : i < A.fields.length) :
    IsField h p (p + (headerSize + A.first + i)) := by
  have hlen := A.contents_length
  refine ⟨?_, ?_⟩
  · rw [hr.firstField]
    omega
  · rw [hr.words]
    omega

theorem Represents.field_of (hr : Represents h p A) {k : ℕ} (hk : IsField h p k) :
    ∃ i : ℕ, ∃ w, A.fields[i]? = some w ∧ h.words k = w := by
  obtain ⟨hlo, hhi⟩ := hk
  rw [hr.firstField] at hlo
  rw [hr.words] at hhi
  have hlen := A.contents_length
  obtain ⟨i, rfl⟩ := Nat.exists_eq_add_of_le hlo
  have hi : i < A.fields.length := by omega
  refine ⟨i, A.fields[i], List.getElem?_eq_getElem hi, ?_⟩
  rw [← (hr.field (List.getElem?_eq_getElem hi)).1, contentAt]
  congr 1
  omega

/-- An object depends on its own words. -/
theorem Represents.congr (hr : Represents h p A) (hb : h'.begin = h.begin) (hend : h.end_ ≤ h'.end_)
    (hwords : ∀ k, p ≤ k → k < p + objectWords (h.words p) → h'.words k = h.words k) :
    Represents h' p A := by
  have hpos := hr.object.pos
  have hsize := hr.words
  have hinside := hr.inside
  refine ⟨hr.proper, hr.len_lt, ?_, fun i w hi => ?_, by rw [hb]; omega⟩
  · rw [hwords p (Nat.le_refl _) (by omega), hr.header]
  · have hlt := (List.getElem?_eq_some_iff.mp hi).1
    rw [← hr.contents i w hi, contentAt, contentAt, hwords _ (by unfold headerSize; omega) (by omega)]

theorem ObjAt.congr (ho : ObjAt h place o p) (hb : h'.begin = h.begin) (hend : h.end_ ≤ h'.end_)
    (hplace : ∀ id p, place id = some p → place' id = some p)
    (hwords : ∀ k, p ≤ k → k < p + objectWords (h.words p) → h'.words k = h.words k) :
    ObjAt h' place' o p := by
  obtain ⟨ws, hfields, hr⟩ := ho
  exact ⟨ws, hfields.imp fun v w hd => (hd.congr hb).mono hplace, hr.congr hb hend hwords⟩

/-- The fields of the objects are values. -/
theorem StoreAt.fields (hs : StoreAt h objects place store) (hpos : 0 < h.begin) :
    ∀ p ∈ objects, ∀ k, IsField h p k → ValidWord h objects (h.words k) := by
  intro p hp k hk
  obtain ⟨id, hid⟩ := hs.onto p hp
  obtain ⟨-, o, -, ws, hfields, hr⟩ := hs.placed id p hid
  obtain ⟨i, w, hi, heq⟩ := hr.field_of hk
  rw [Obj.aggregate_fields] at hi
  obtain ⟨hlt, rfl⟩ := List.getElem?_eq_some_iff.mp hi
  have hlt' : i < o.fields.length := by rw [hfields.length_eq]; exact hlt
  rw [heq]
  exact (hfields.get hlt' hlt).valid hs hpos

/-! ### A collection -/

theorem Represents.bytes (hr : Represents h p A) :
    objectBytes (h.words p) = 8 + 4 * A.contents.length := by
  rw [objectBytes, hr.tag, ofTag_eq_some_iff.mpr rfl, hr.lenOf]
  cases A <;> simp only [Aggregate.type, Aggregate.len, Aggregate.contents, Aggregate.fields, objBytes,
    List.length_cons]

theorem Aggregate.withFields_header (A : Aggregate) {ws : List Word} (hlen : ws.length = A.fields.length) :
    (A.withFields ws).header = A.header := by
  rw [Aggregate.header, Aggregate.header, A.withFields_len ws hlen, A.withFields_type]

/-- The image of an object is the object of the redirected fields. -/
theorem ObjectImage.represents (himage : ObjectImage h objects live h' p q) (hr : Represents h p A)
    (hinside : h'.begin + q + objectWords (h.words p) ≤ h'.end_) :
    Represents h' q (A.map (redirect h objects live h'.begin)) := by
  have hlen : (A.fields.map (redirect h objects live h'.begin)).length = A.fields.length :=
    List.length_map ..
  have hcontents : (A.map (redirect h objects live h'.begin)).contents.length = A.contents.length := by
    rw [Aggregate.map, Aggregate.contents_length, Aggregate.contents_length, Aggregate.withFields_first,
      Aggregate.withFields_fields, hlen]
  refine ⟨(A.withFields_proper _).mpr hr.proper, ?_, ?_, fun i w hi => ?_, ?_⟩
  · rw [Aggregate.map, A.withFields_len _ hlen]
    exact hr.len_lt
  · rw [himage.header, hr.header, Aggregate.map, A.withFields_header hlen]
  · have hlt : i < A.contents.length := by
      rw [← hcontents]
      exact (List.getElem?_eq_some_iff.mp hi).1
    by_cases hfirst : i < A.first
    · -- the head
      have hhead : (A.map (redirect h objects live h'.begin)).contents[i]? = A.contents[i]? := by
        cases A with
        | array fields => exact absurd hfirst (Nat.not_lt_zero i)
        | sexp hash fields =>
          obtain rfl : i = 0 := Nat.lt_one_iff.mp hfirst
          rfl
        | closure entry fields =>
          obtain rfl : i = 0 := Nat.lt_one_iff.mp hfirst
          rfl
      rw [hhead] at hi
      rw [← hr.contents i w hi, contentAt, contentAt, Nat.add_assoc, Nat.add_assoc]
      refine himage.word (by unfold headerSize; omega) ?_ fun hf => ?_
      · rw [hr.bytes]
        unfold headerSize
        omega
      · have hlo := hf.1
        rw [hr.firstField] at hlo
        omega
    · obtain ⟨j, rfl⟩ := Nat.exists_eq_add_of_le (Nat.le_of_not_lt hfirst)
      have hj : j < A.fields.length := by
        have := A.contents_length
        omega
      have hget := Aggregate.contents_get (A.map (redirect h objects live h'.begin)) j
      rw [Aggregate.map, Aggregate.withFields_first, Aggregate.withFields_fields] at hget
      rw [Aggregate.map, hget, List.getElem?_map, List.getElem?_eq_getElem hj, Option.map_some,
        Option.some.injEq] at hi
      have hfield := himage.fields _ (hr.isField hj)
      rw [contentAt, Nat.add_assoc, ← Nat.add_assoc headerSize, hfield, ← hi,
        ← (hr.field (List.getElem?_eq_getElem hj)).1, contentAt]
      congr 2
      omega
  · rw [hcontents]
    rw [hr.words] at hinside
    omega

open scoped Classical in
/-- The places after a collection. -/
noncomputable def movedPlace (m : Memory) (objects : List ℕ) (roots : Roots) (place : Place) : Place :=
  fun id => (place id).bind fun p =>
    if p ∈ liveObjects m objects roots then
      some (newOffset m.heap objects (liveObjects m objects roots) p)
    else none

section Collect
variable {m m' : Memory} {roots : Roots} {begin size : ℕ}

theorem movedPlace_eq_some {id : ℕ} : movedPlace m objects roots place id = some q ↔
    ∃ p, place id = some p ∧ p ∈ liveObjects m objects roots ∧
      newOffset m.heap objects (liveObjects m objects roots) p = q := by
  rw [movedPlace, Option.bind_eq_some_iff]
  refine exists_congr fun p => and_congr_right fun _ => ?_
  by_cases hlive : p ∈ liveObjects m objects roots
  · rw [if_pos hlive, Option.some.injEq, and_iff_right hlive]
  · rw [if_neg hlive]
    exact iff_of_false nofun fun h => hlive h.1

variable (hs : Objects m.heap objects) (hc : Compacted m objects roots begin size m')
  (hstore : StoreAt m.heap objects place store)
include hs hc hstore

/-- A value whose object survives is redirected. -/
theorem Denotes.collected (hpos : 0 < m.heap.begin) (hd : Denotes m.heap place v w)
    (hlive : ∀ id p, v = .ref id → place id = some p → p ∈ liveObjects m objects roots) :
    Denotes m'.heap (movedPlace m objects roots place) v (moved m objects roots begin w) := by
  cases v with
  | int n =>
    obtain ⟨rfl, hrange⟩ := hd
    rw [moved, redirect_other (not_valid_of_unboxed (unboxed_box _))]
    exact ⟨rfl, hrange⟩
  | null =>
    obtain rfl : w = 0 := hd
    rw [moved, redirect_other (not_valid_zero hpos)]
    rfl
  | ref id =>
    obtain ⟨p, hp, rfl⟩ := hd
    exact ⟨_, movedPlace_eq_some.mpr ⟨p, hp, hlive id p rfl hp, rfl⟩,
      moved_content hs hc (hstore.placed id p hp).1⟩

/-- The survivors are objects of the store, at their new places. -/
theorem StoreAt.collected (hpos : 0 < m.heap.begin) {objects' : List ℕ}
    (hobjects : ∀ q, q ∈ objects' ↔ ∃ p ∈ objects, p ∈ liveObjects m objects roots ∧
      newOffset m.heap objects (liveObjects m objects roots) p = q) :
    StoreAt m'.heap objects' (movedPlace m objects roots place) store where
  placed id q hid := by
    obtain ⟨p, hp, hlive, rfl⟩ := movedPlace_eq_some.mp hid
    obtain ⟨hmem, o, ho, ws, hfields, hr⟩ := hstore.placed id p hp
    refine ⟨(hobjects _).mpr ⟨p, hmem, hlive, rfl⟩, o, ho, ws.map (moved m objects roots begin), ?_, ?_⟩
    · rw [List.forall₂_map_right_iff, List.forall₂_iff_get]
      refine ⟨hfields.length_eq, fun i hi hi' => ?_⟩
      refine (hfields.get hi hi').collected hs hc hstore hpos fun id' p' hv hp' => ?_
      -- the object of a field of a live object is live
      have hd := hfields.get hi hi'
      rw [hv] at hd
      obtain ⟨p'', hp'', hword⟩ := hd
      obtain rfl : p' = p'' := Option.some.inj (hp'.symm.trans hp'')
      have hi'' : i < (o.aggregate ws).fields.length := by rwa [Obj.aggregate_fields]
      refine closed_liveObjects p hlive p' ⟨(hstore.placed id' p' hp').1, _, hr.isField hi'', ?_⟩
      have hget : (o.aggregate ws).fields[i]? = some (ws.get ⟨i, hi'⟩) := by
        rw [Obj.aggregate_fields]
        exact List.getElem?_eq_getElem hi'
      rw [← hword, ← (hr.field hget).1, contentAt]
      congr 1
      omega
    · have himage := hc.images p hmem hlive
      have hroom := hc.room
      have hcurrent := hc.current
      have hbegin := hc.begin_eq
      have hle : newOffset m.heap objects (liveObjects m objects roots) p +
          objectWords (m.heap.words p) ≤ liveWords m.heap objects (liveObjects m objects roots) :=
        (hs.tiles.target_le hmem hlive).2
      have himaged := himage.represents hr (by omega)
      rwa [Obj.aggregate_map, hbegin] at himaged
  apart id id' q hid hid' := by
    obtain ⟨p, hp, hlive, rfl⟩ := movedPlace_eq_some.mp hid
    obtain ⟨p', hp', hlive', heq⟩ := movedPlace_eq_some.mp hid'
    have hsame := hc.newOffset_inj (hstore.placed id p hp).1 hlive (hstore.placed id' p' hp').1 hlive'
      heq.symm
    subst hsame
    exact hstore.apart id id' p hp hp'
  onto q hq := by
    obtain ⟨p, hmem, hlive, rfl⟩ := (hobjects q).mp hq
    obtain ⟨id, hid⟩ := hstore.onto p hmem
    exact ⟨id, movedPlace_eq_some.mpr ⟨p, hid, hlive, rfl⟩⟩

end Collect

/-! ### A request -/

/-- What a request for `size` words finds out of the way is what it was: at new places perhaps, with the
    root words redirected. -/
structure Kept (m : Memory) (roots : Roots) (place : Place) (m' : Memory) (place' : Place) : Prop where
  slots : ∀ a ∈ scannedRoots roots, ∀ slot, SlotHolds m.heap place slot (m.ram a) →
    SlotHolds m'.heap place' slot (m'.ram a)
  others : ∀ a, a ∉ scannedRoots roots → m'.ram a = m.ram a

/-- The heap, between two steps of the interpreter. -/
structure HeapHolds (h : MemoryChunk) (os : List HeapObject) (place : Place) (store : List Obj) : Prop
    where
  filled : ∃ free, Reserved h os free 0
  objects : StoreAt h (os.map HeapObject.offset) place store

/-- What a request relies on: addresses do not run out, and where `mremap` puts a heap that has to grow
    there is room for it beside the virtual stack. -/
structure Granted (im : Image) (h : MemoryChunk) (mremap : Option ℕ) (size : ℕ) : Prop where
  address : h.current + size < 2 ^ 30
  grows : ¬ h.current + size ≤ h.end_ → ∃ begin, mremap = some begin ∧ 0 < begin ∧
    begin + h.grown size < 2 ^ 30 ∧ ∀ a, begin ≤ a → a < begin + h.grown size → ¬ im.inStack a

/-- The objects behind a block that was taken from the free end are where they were. -/
theorem StoreAt.bump {os : List HeapObject} {free size : ℕ} (hr : Reserved h os free 0)
    (hs : StoreAt h (os.map HeapObject.offset) place store) :
    StoreAt (h.bump size) (os.map HeapObject.offset) place store where
  placed id p hid := by
    obtain ⟨hp, o, ho, hat⟩ := hs.placed id p hid
    refine ⟨hp, o, ho, hat.congr rfl (Nat.le_refl _) (fun _ _ h => h) fun k _ hk => if_neg ?_⟩
    have hbounds := (hr.layout.tiles.bounds hp).2.1
    omega
  apart := hs.apart
  onto := hs.onto

section Request
variable {m : Memory} {os : List HeapObject} {roots : Roots} {mremap : Option ℕ} {type : LamaType}
  {len : ℕ}

/-- A collection for a request. -/
theorem StoreAt.request {begin size : ℕ} {free : ℕ} (hr : Reserved m.heap os free 0)
    (hs : StoreAt m.heap (os.map HeapObject.offset) place store)
    (hc : Collectable ⟨m, os⟩ roots begin size) (hextra : roots.extraRoots = []) :
    ∃ n m', gcAlloc roots (some begin) size m = some (some (m'.heap.begin + n), m') ∧
      Reserved m'.heap (HeapState.survivors ⟨m, os⟩ roots) n size ∧
      StoreAt m'.heap ((HeapState.survivors ⟨m, os⟩ roots).map HeapObject.offset)
        (movedPlace m (os.map HeapObject.offset) roots place) store ∧
      Kept m roots place m' (movedPlace m (os.map HeapObject.offset) roots place) := by
  have hwf := Reserved.wellFormed (s := ⟨m, os⟩) hr hc
  have hlayout := hwf.toObjects
  obtain ⟨n, m', hrun, hreserved⟩ := Reserved.collect (s := ⟨m, os⟩) hr hc
  obtain ⟨m₂, hrun₂, hcompacted, -, -⟩ := gcAlloc_compacts hwf hc.valid hc.fits
  obtain ⟨m₃, hrun₃, hiff⟩ := gc_preserves hwf hc.valid hc.fits
  rw [hrun] at hrun₂ hrun₃
  obtain rfl : m' = m₂ := congrArg Prod.snd (Option.some.inj hrun₂)
  obtain rfl : m' = m₃ := congrArg Prod.snd (Option.some.inj hrun₃)
  have hcollected := hiff.mpr fun a ha => by
    rw [hextra] at ha
    exact absurd ha List.not_mem_nil
  refine ⟨n, m', hrun, hreserved, ?_, fun a ha slot hslot => ?_, hcollected.others⟩
  · refine hs.collected hlayout hcompacted hr.pos fun q => ?_
    rw [HeapState.survivors, List.map_map]
    simp only [List.mem_map, List.mem_filter, decide_eq_true_eq, Function.comp_apply]
    constructor
    · rintro ⟨o, ⟨ho, hlive⟩, rfl⟩
      exact ⟨o.offset, List.mem_map_of_mem ho, hlive, rfl⟩
    · rintro ⟨p, hp, hlive, rfl⟩
      obtain ⟨o, ho, rfl⟩ := HeapState.mem_offsets hp
      exact ⟨o, ⟨ho, hlive⟩, rfl⟩
  · -- the object of a root word survives
    have hvalue : ∀ v, Denotes m.heap place v (m.ram a) →
        Denotes m'.heap (movedPlace m (os.map HeapObject.offset) roots place) v (m'.ram a) := by
      intro v hd
      rw [hcollected.redirected a ha]
      refine hd.collected hlayout hcompacted hs hr.pos fun id p hv hp => ?_
      rw [hv] at hd
      obtain ⟨p', hp', hword⟩ := hd
      obtain rfl : p = p' := Option.some.inj (hp.symm.trans hp')
      have hmem := (hs.placed id p hp).1
      obtain ⟨q, hq, hqlive, heq⟩ := hc.valid.live ha (by
        rw [hword]
        exact hlayout.contentWord_valid hmem)
      rwa [hlayout.contentWord_inj hmem hq (hword.symm.trans heq)]
    cases slot with
    | some v => exact hvalue v hslot
    | none =>
      obtain ⟨v, hv⟩ := hslot
      exact ⟨v, hvalue v hv⟩

theorem kept_bump (size : ℕ) : Kept m roots place { m with heap := m.heap.bump size } place :=
  ⟨fun _ _ _ hslot => hslot.imp fun _ hd => hd.congr rfl, fun _ _ => rfl⟩

/-- A request that there is room for. -/
theorem StoreAt.request_room {bytes free size : ℕ} (hsize : bytesToWords bytes = size)
    (hr : Reserved m.heap os free 0) (hs : StoreAt m.heap (os.map HeapObject.offset) place store)
    (hlt : m.heap.current + size < 2 ^ 30) (hroom : m.heap.current + size ≤ m.heap.end_) :
    ∃ m', alloc roots mremap bytes m = some (some (m'.heap.begin + free), m') ∧
      Reserved m'.heap os free size ∧
      StoreAt m'.heap (os.map HeapObject.offset) place store ∧ Kept m roots place m' place := by
  have hcur : m.heap.current = m.heap.begin + free := by rw [hr.current, Nat.add_zero]
  have halloc : alloc roots mremap bytes m =
      some (some ((m.heap.bump size).begin + free), { m with heap := m.heap.bump size }) := by
    rw [alloc_eq (by rw [hsize]; exact hlt), hsize, if_pos hroom, hcur, bump_begin]
  exact ⟨{ m with heap := m.heap.bump size }, halloc, hr.bump hroom, hs.bump hr, kept_bump _⟩

/-- `alloc` finds a block, and keeps the values of the root words. -/
theorem HeapHolds.request {im : Image} {bytes size : ℕ} (hsize : bytesToWords bytes = size)
    (hh : HeapHolds m.heap os place store) (hplaced : HeapPlaced im m.heap)
    (hv : ValidRoots m (os.map HeapObject.offset) roots) (hextra : roots.extraRoots = [])
    (hg : Granted im m.heap mremap size) :
    ∃ n m' os' place', alloc roots mremap bytes m = some (some (m'.heap.begin + n), m') ∧
      HeapPlaced im m'.heap ∧ Reserved m'.heap os' n size ∧
      StoreAt m'.heap (os'.map HeapObject.offset) place' store ∧ Kept m roots place m' place' := by
  obtain ⟨⟨free, hr⟩, hstore⟩ := hh
  by_cases hroom : m.heap.current + size ≤ m.heap.end_
  · obtain ⟨m', halloc, hreserved, hrest⟩ := StoreAt.request_room hsize hr hstore hg.address hroom
    refine ⟨free, m', os, place, halloc, ?_, hreserved, hrest⟩
    rw [alloc_eq (by rw [hsize]; exact hg.address), hsize, if_pos hroom] at halloc
    obtain rfl := congrArg Prod.snd (Option.some.inj halloc)
    exact ⟨hplaced.apart, hplaced.fits⟩
  · obtain ⟨begin, hmremap, hmapped, hend, hapart⟩ := hg.grows hroom
    have hlive := hr.liveWords_le (liveObjects m (os.map HeapObject.offset) roots)
    have hfits : FitsAt m (os.map HeapObject.offset) roots begin size := by
      unfold MemoryChunk.grown at hend
      unfold FitsAt
      simp only [extraRoomHeapCoefficient, minimumHeapCapacity] at hend ⊢
      omega
    have hc : Collectable ⟨m, os⟩ roots begin size := ⟨hstore.fields hr.pos, hv, hmapped, hfits⟩
    obtain ⟨n, m', hrun, hreserved, hrest⟩ := StoreAt.request hr hstore hc hextra
    -- the heap is not larger than was granted
    obtain ⟨m₂, hrun₂, hcompacted, ⟨hspan, hfits'⟩, -⟩ :=
      gcAlloc_compacts (Reserved.wellFormed (s := ⟨m, os⟩) hr hc) hv hfits
    rw [hrun, Option.some.injEq, Prod.mk.injEq, Option.some.injEq] at hrun₂
    obtain ⟨hn, rfl⟩ := hrun₂
    obtain ⟨live, hp, hsizes⟩ := gcAlloc_size (by rw [hextra]; exact List.nodup_nil) hrun
    have hlive' : live = liveWords m.heap (os.map HeapObject.offset)
        (liveObjects m (os.map HeapObject.offset) roots) := Nat.add_left_cancel (hp.symm.trans hn)
    have hgrown : m'.heap.size ≤ m.heap.grown size := by
      rw [hsizes, nextHeapPseudoSize, MemoryChunk.grown]
      simp only [extraRoomHeapCoefficient, minimumHeapCapacity]
      omega
    refine ⟨n, m', _, _, ?_, ⟨fun a hlo hhi => ?_, hfits'⟩, hreserved, hrest⟩
    · rw [alloc_eq (by rw [hsize]; exact hg.address), hsize, if_neg hroom, hmremap]
      exact hrun
    · rw [hcompacted.begin_eq] at hlo
      exact hapart a hlo (by omega)

end Request

/-! ### A new object -/

theorem Aggregate.bytes (A : Aggregate) : objBytes A.type A.len = 8 + 4 * A.contents.length := by
  cases A <;> simp only [Aggregate.type, Aggregate.len, Aggregate.contents, Aggregate.fields, objBytes,
    List.length_cons]

/-- The words of an aggregate, from its header on. -/
def Aggregate.block (A : Aggregate) : List Word := A.header :: 0 :: A.contents

/-- The store with one more object. -/
noncomputable def Place.extend (place : Place) (id p : ℕ) : Place := Function.update place id (some p)

/-- The other objects keep their places. -/
theorem StoreAt.extend (hs : StoreAt h objects place store) (id q : ℕ) (hid : place id = some q) :
    place.extend store.length p id = some q := by
  obtain ⟨-, o, ho, -⟩ := hs.placed id q hid
  have hlt := (List.getElem?_eq_some_iff.mp ho).1
  rw [Place.extend, Function.update_of_ne (by omega), hid]

section Build
variable {os : List HeapObject} {n : ℕ} {ws : List Word}

/-- The words of the object are written into the block that was found for it. -/
theorem Reserved.write (hlen : A.len < 2 ^ 28)
    (hr : Reserved h os n (bytesToWords (8 + 4 * A.contents.length))) :
    Reserved (h.setWords n A.block) (os ++ [⟨n, A.type, A.len⟩])
      (n + bytesToWords (8 + 4 * A.contents.length)) 0 := by
  rw [← A.bytes] at hr ⊢
  have hsize := two_le_bytesToWords A.type hlen
  have hbuilt := hr.build hlen
  have hzero := hr.zero
  have hcur := hbuilt.current
  refine hbuilt.congr (fun o ho => ?_) (fun k _ hk => absurd hk (by omega)) rfl hcur hbuilt.room rfl rfl
  rcases List.mem_append.mp ho with ho | ho
  · have hends := hr.ends ho
    rw [setWords_below (by omega), setWords_below (by omega)]
    exact ⟨(if_neg (by omega)).symm, (if_neg (by omega)).symm⟩
  · obtain rfl := List.mem_singleton.mp ho
    have hclear : (h.setWord n (headerWord A.type A.len)).words (n + 1) = h.words (n + 1) :=
      if_neg (by omega)
    refine ⟨?_, ?_⟩
    · rw [← A.header_eq]
      exact (setWords_get (i := 0) rfl).trans (if_pos rfl).symm
    · rw [hclear, hzero _ (by omega) (by omega)]
      exact setWords_get (i := 1) rfl

/-- An object built from values is an object of the store. -/
theorem HeapHolds.build (o : Obj) (hlen : (o.aggregate ws).len < 2 ^ 28)
    (hproper : (o.aggregate ws).Proper)
    (hr : Reserved h os n (bytesToWords (8 + 4 * (o.aggregate ws).contents.length)))
    (hs : StoreAt h (os.map HeapObject.offset) place store)
    (hfields : List.Forall₂ (Denotes h place) o.fields ws) :
    HeapHolds (h.setWords n (o.aggregate ws).block) (os ++ [⟨n, (o.aggregate ws).type, (o.aggregate ws).len⟩])
      (place.extend store.length n) (store ++ [o]) := by
  have hsize : bytesToWords (8 + 4 * (o.aggregate ws).contents.length) =
      2 + (o.aggregate ws).contents.length := by
    have := (o.aggregate ws).contents_le
    rw [bytesToWords_eq (by omega) (by omega)]
    omega
  have hroom : h.begin + n + headerSize + (o.aggregate ws).contents.length ≤ h.end_ := by
    have hcur := hr.current
    have := hr.room
    unfold headerSize
    omega
  have hmono := hs.extend (p := n)
  have hends : ∀ p ∈ os.map HeapObject.offset, p + objectWords (h.words p) ≤ n := fun p hp =>
    (hr.tiles.bounds hp).2.1
  have hnew : ObjAt (h.setWords n (o.aggregate ws).block) (place.extend store.length n) o n :=
    ⟨ws, hfields.imp fun _ _ hd => (hd.congr rfl).mono hmono,
      represents_setWords hproper (by omega) hroom⟩
  have hmem : ∀ p, p ∈ (os ++ [(⟨n, (o.aggregate ws).type, (o.aggregate ws).len⟩ : HeapObject)]).map
      HeapObject.offset ↔ p ∈ os.map HeapObject.offset ∨ p = n := fun p => by
    rw [List.map_append, List.mem_append, List.map_singleton, List.mem_singleton]
  refine ⟨⟨_, hr.write hlen⟩, ?_, ?_, ?_⟩
  · intro id p hid
    rw [Place.extend, Function.update_apply] at hid
    split at hid
    · next heq =>
      cases hid
      exact ⟨(hmem n).mpr (Or.inr rfl), o, by rw [heq, List.getElem?_concat_length], hnew⟩
    · obtain ⟨hp, o', ho', hat⟩ := hs.placed id p hid
      refine ⟨(hmem p).mpr (Or.inl hp), o', ?_, hat.congr rfl (Nat.le_refl _) hmono fun k _ hk => ?_⟩
      · rw [List.getElem?_append_left (List.getElem?_eq_some_iff.mp ho').1, ho']
      · exact setWords_below (Nat.lt_of_lt_of_le hk (hends p hp))
  · intro id id' p hid hid'
    have hlow : ∀ id, place id = some n → False := fun id hid => by
      have hle := hends n (hs.placed id n hid).1
      have := (hr.tiles.bounds (hs.placed id n hid).1).2.2
      unfold wordsAt at this
      omega
    rw [Place.extend, Function.update_apply] at hid hid'
    split at hid
    · next heq =>
      cases hid
      split at hid'
      · next heq' => rw [heq, heq']
      · exact (hlow _ hid').elim
    · split at hid'
      · cases hid'
        exact (hlow _ hid).elim
      · exact hs.apart id id' p hid hid'
  · intro p hp
    rcases (hmem p).mp hp with hp | rfl
    · obtain ⟨id, hid⟩ := hs.onto p hp
      exact ⟨id, hmono id p hid⟩
    · exact ⟨store.length, by rw [Place.extend, Function.update_self]⟩

end Build

/-! ### A store into a field -/

section Field
variable {os : List HeapObject} {ws : List Word} {id i : ℕ}

theorem Obj.set_aggregate (o : Obj) (i : ℕ) (v : Val) (ws : List Word) :
    (o.set i v).aggregate ws = o.aggregate ws := rfl

theorem HeapHolds.setField (hh : HeapHolds h os place store) (hid : place id = some p)
    (hws : List.Forall₂ (Denotes h place) o.fields ws) (hr : Represents h p (o.aggregate ws))
    (hi : i < o.fields.length) (hd : Denotes h place v w) :
    HeapHolds (h.setWord (p + headerSize + ((o.aggregate ws).first + i)) w) os place
      (store.set id (o.set i v)) := by
  obtain ⟨⟨free, hreserved⟩, hs⟩ := hh
  have hp := (hs.placed id p hid).1
  have hi' : i < (o.aggregate ws).fields.length := by rwa [Obj.aggregate_fields, ← hws.length_eq]
  obtain ⟨-, hinside⟩ := hr.field (List.getElem?_eq_getElem hi')
  obtain ⟨k, hk⟩ : ∃ k, k = p + headerSize + ((o.aggregate ws).first + i) := ⟨_, rfl⟩
  have hblock : p + headerSize ≤ k ∧ k < p + objectWords (h.words p) := by omega
  rw [← hk]
  -- the word belongs to this object alone
  have hother : ∀ q ∈ os.map HeapObject.offset, q ≠ p → ∀ j, q ≤ j → j < q + objectWords (h.words q) →
      (h.setWord k w).words j = h.words j := fun q hq hne j hlo hhi => by
    refine if_neg fun heq => hne ?_
    subst heq
    refine hreserved.tiles.eq_of_mem_block hq hp ⟨hlo, hhi⟩ ⟨?_, hblock.2⟩
    omega
  have hheads : ∀ q ∈ os.map HeapObject.offset, (h.setWord k w).words q = h.words q ∧
      (h.setWord k w).words (q + 1) = h.words (q + 1) := fun q hq => by
    by_cases hqp : q = p
    · subst hqp
      unfold headerSize at hblock
      exact ⟨if_neg (by omega), if_neg (by omega)⟩
    · have hpos := (hreserved.tiles.bounds hq).2.2
      obtain ⟨o', ho', rfl⟩ := List.mem_map.mp hq
      have htwo := (hreserved.ends ho').2
      obtain ⟨hlen, hheader⟩ := hreserved.header o' ho'
      have hwords : objectWords (h.words o'.offset) = o'.size := by
        rw [hheader, headerWord_words hlen]
        rfl
      exact ⟨hother _ hq hqp _ (Nat.le_refl _) (by omega), hother _ hq hqp _ (by omega) (by omega)⟩
  refine ⟨⟨free, ?_⟩, ?_, hs.apart, hs.onto⟩
  · refine hreserved.congr (fun o' ho' => hheads _ (List.mem_map_of_mem ho')) ?_ rfl hreserved.current
      hreserved.room rfl rfl
    exact fun j _ hj => absurd hj (by omega)
  · intro id' q hid'
    obtain ⟨hq, o', ho', hat⟩ := hs.placed id' q hid'
    by_cases hqp : q = p
    · subst hqp
      obtain rfl := hs.apart id' id q hid' hid
      refine ⟨hq, o.set i v, ?_, ws.set i w, ?_, ?_⟩
      · rw [List.getElem?_set_self (List.getElem?_eq_some_iff.mp ho').1]
      · refine List.Forall₂.imp (fun _ _ hd => Denotes.congr hd rfl) ?_
        rw [List.forall₂_iff_get]
        have hlen := hws.length_eq
        refine ⟨by simp only [Obj.set, List.length_set, hlen], fun j hj hj' => ?_⟩
        simp only [Obj.set, List.length_set] at hj hj'
        simp only [Obj.set, List.get_eq_getElem, List.getElem_set]
        by_cases hij : i = j
        · rw [if_pos hij, if_pos hij]
          exact hd
        · rw [if_neg hij, if_neg hij]
          exact hws.get hj hj'
      · have hset := hr.set w hi'
        rw [Aggregate.set, Obj.aggregate_fields, Obj.aggregate_withFields, ← hk] at hset
        rwa [Obj.set_aggregate]
    · refine ⟨hq, o', ?_, hat.congr rfl (Nat.le_refl _) (fun _ _ h => h) (hother q hq hqp)⟩
      have hne : id ≠ id' := fun heq => by
        subst heq
        exact hqp (Option.some.inj (hid'.symm.trans hid))
      rw [List.getElem?_set_ne hne, ho']

end Field

end Lama

import PlvmHomeworks.Lib.Holders
import PlvmHomeworks.StringPtr.Members

/-! Who owns a CString.

    Below saturation the counter of a CString is one less than the number of StringPtrs that point to
    it; null_string is saturated from the start. Each special member keeps this, and a CString is
    deleted in the operation in which its only owner lets it go. -/

namespace StringPtr
open Holders

variable {L : ℕ} {s t : State} {c d : ℕ} {x y : CString} {p this other : Place}

/-- The StringPtrs that point to the CString. -/
abbrev owners (s : State) (c : ℕ) : Set Place := holders s.cstr c

/-- What every special member keeps. -/
structure Inv (L : ℕ) (s : State) : Prop where
  null : ∃ x, s.strings nullString = some x ∧ x.refCount L = REF_COUNT_SATURATION L
  born : ∀ c x, s.strings c = some x → c < s.next
  alive : ∀ p c, s.cstr p = some c → ∃ x, s.strings c = some x
  counts : ∀ c x, s.strings c = some x → x.refCount L ≠ REF_COUNT_SATURATION L →
    (owners s c).encard = (x.refCount L).toNat + 1
  once : s.deleted.Nodup
  gone : ∀ c, c ∈ s.deleted ↔ c < s.next ∧ s.strings c = none

/-- A CString that is still there has been there all along, and has kept its address. -/
structure Kept (L : ℕ) (s t : State) : Prop where
  next_le : s.next ≤ t.next
  old : ∀ c < s.next, ∀ y, t.strings c = some y → ∃ x, s.strings c = some x ∧ y.cStr L = x.cStr L

theorem Kept.refl (L : ℕ) (s : State) : Kept L s s := ⟨le_rfl, fun _ _ y hy => ⟨y, hy, rfl⟩⟩

theorem Kept.trans {u : State} (h : Kept L s t) (h' : Kept L t u) : Kept L s u := by
  refine ⟨h.next_le.trans h'.next_le, fun c hc z hz => ?_⟩
  obtain ⟨y, hy, hzy⟩ := h'.old c (hc.trans_le h.next_le) z hz
  obtain ⟨x, hx, hyx⟩ := h.old c hc y hy
  exact ⟨x, hx, hzy.trans hyx⟩

/-- What a special member that makes the StringPtrs point as f says does to the CStrings: it deletes
    those of the list, each of which has had one owner. -/
structure Effect (L : ℕ) (s : State) (f : Place → Option ℕ) (dels : List ℕ) (t : State) : Prop where
  inv : Inv L t
  kept : Kept L s t
  cstr : t.cstr = f
  deleted : t.deleted = s.deleted ++ dels
  sole : ∀ c ∈ dels, ∃ p, owners s c = {p}

theorem Effect.trans {u : State} {f g : Place → Option ℕ} {ds es : List ℕ}
    (h : Effect L s f ds u) (h' : Effect L u g es t)
    (hsole : ∀ c ∈ es, (∃ p, owners u c = {p}) → ∃ p, owners s c = {p}) :
    Effect L s g (ds ++ es) t where
  inv := h'.inv
  kept := h.kept.trans h'.kept
  cstr := h'.cstr
  deleted := by rw [h'.deleted, h.deleted, List.append_assoc]
  sole c hc := by
    rcases List.mem_append.mp hc with hc | hc
    · exact h.sole c hc
    · exact hsole c hc (h'.sole c hc)

/-- The counter of one CString changes with its owners. -/
theorem Inv.count (h : Inv L s) {f : Place → Option ℕ} (hx : s.strings c = some x)
    (haddr : y.cStr L = x.cStr L) (hnull : c = nullString → y.refCount L = REF_COUNT_SATURATION L)
    (halive : ∀ p d, f p = some d → ∃ z, s.strings d = some z)
    (hcount : y.refCount L ≠ REF_COUNT_SATURATION L →
      (holders f c).encard = (y.refCount L).toNat + 1)
    (hother : ∀ d, d ≠ c → d ≠ nullString → (holders f d).encard = (owners s d).encard) :
    Effect L s f [] { s.put c y with cstr := f } := by
  have hself : ∀ {d z}, (s.put c y).strings d = some z → d = c ∧ z = y ∨
      d ≠ c ∧ s.strings d = some z := fun {d z} hz => by
    by_cases hd : d = c
    · subst hd
      exact .inl ⟨rfl, (Option.some.inj (State.put_self.symm.trans hz)).symm⟩
    · exact .inr ⟨hd, (State.put_of_ne hd).symm.trans hz⟩
  have hsome : ∀ {d z}, s.strings d = some z → ∃ z', (s.put c y).strings d = some z' :=
    fun {d z} hz => by
      by_cases hd : d = c
      · subst hd
        exact ⟨y, State.put_self⟩
      · exact ⟨z, (State.put_of_ne hd).trans hz⟩
  refine ⟨⟨?_, fun d z hz => ?_, fun p d hp => ?_, fun d z hz hne => ?_, h.once, fun d => ?_⟩,
    ⟨le_rfl, fun d _ z hz => ?_⟩, rfl, (List.append_nil _).symm, by simp⟩
  · obtain ⟨z, hz, hsat⟩ := h.null
    obtain ⟨z', hz'⟩ := hsome hz
    refine ⟨z', hz', ?_⟩
    rcases hself hz' with ⟨hc, rfl⟩ | ⟨-, hold⟩
    · exact hnull hc.symm
    · rw [Option.some.inj (hold.symm.trans hz)]
      exact hsat
  · rcases hself hz with ⟨rfl, -⟩ | ⟨-, hold⟩
    · exact h.born d x hx
    · exact h.born d z hold
  · obtain ⟨z, hz⟩ := halive p d hp
    exact hsome hz
  · rcases hself hz with ⟨rfl, rfl⟩ | ⟨hd, hold⟩
    · exact hcount hne
    · rw [← h.counts d z hold hne]
      refine hother d hd ?_
      rintro rfl
      obtain ⟨z', hz', hsat⟩ := h.null
      rw [hold, Option.some.injEq] at hz'
      exact hne (hz' ▸ hsat)
  · refine (h.gone d).trans (and_congr_right fun _ => ?_)
    by_cases hd : d = c
    · subst hd
      simp [State.put_self, hx]
    · simp [State.put_of_ne hd]
  · rcases hself hz with ⟨rfl, rfl⟩ | ⟨-, hold⟩
    · exact ⟨x, hx, haddr⟩
    · exact ⟨z, hold, rfl⟩

/-- References move, and all counters stay. -/
theorem Inv.move (h : Inv L s) {f : Place → Option ℕ}
    (halive : ∀ p d, f p = some d → ∃ z, s.strings d = some z)
    (hsame : ∀ d, d ≠ nullString → (holders f d).encard = (owners s d).encard) :
    Effect L s f [] { s with cstr := f } := by
  obtain ⟨x, hx, hsat⟩ := h.null
  have heffect := h.count (y := x) hx rfl (fun _ => hsat) halive (fun hne => absurd hsat hne)
    fun d _ hd => hsame d hd
  rw [State.put_eq_self hx] at heffect
  exact heffect

/-- A StringPtr is made to point to a CString that exists. -/
theorem alive_update (h : Inv L s) (hx : s.strings c = some x) (p : Place) (d : ℕ)
    (hp : Function.update s.cstr this (some c) p = some d) : ∃ z, s.strings d = some z := by
  by_cases hpt : p = this
  · subst hpt
    rw [Function.update_self, Option.some.injEq] at hp
    exact ⟨x, hp ▸ hx⟩
  · rw [Function.update_of_ne hpt] at hp
    exact h.alive p d hp

theorem construct_effect (h : Inv L s) (hthis : s.cstr this = none) :
    Effect L s (Function.update s.cstr this (some nullString)) [] (construct this s) := by
  obtain ⟨x, hx, -⟩ := h.null
  refine h.move (alive_update h hx) fun d hd => ?_
  rw [holders_keep (by simp [hthis]) (by simpa using Ne.symm hd)]

theorem copyConstruct_effect (h : Inv L s) (hthis : s.cstr this = none)
    (hother : s.cstr other = some c) : ∃ t, copyConstruct L this other s = .ok t ∧
      Effect L s (Function.update s.cstr this (some c)) [] t := by
  obtain ⟨x, hx⟩ := h.alive other c hother
  have hcopy : copyConstruct L this other s =
      .ok ((s.store this (some c)).put c (x.incRefCount L)) := by
    rw [copyConstruct, State.load_eq hother]
    exact State.incRefCount_eq L hx
  refine ⟨_, hcopy, h.count hx CString.cStr_incRefCount (fun hc => ?_) (alive_update h hx)
    (fun hne => ?_) fun d hd _ => ?_⟩
  · obtain ⟨z, hz, hsat⟩ := h.null
    rw [← hc, hx, Option.some.injEq] at hz
    rw [CString.incRefCount_saturated (hz ▸ hsat), hz, hsat]
  · have hlt : x.refCount L ≠ REF_COUNT_SATURATION L := fun hsat => by
      rw [CString.incRefCount_saturated hsat] at hne
      exact hne hsat
    rw [encard_take (by simp [hthis]), h.counts c x hx hlt, CString.refCount_incRefCount hlt]
    push_cast
    rfl
  · rw [holders_keep (by simp [hthis]) (by simpa using Ne.symm hd)]

theorem moveConstruct_effect (h : Inv L s) (hthis : s.cstr this = none)
    (hother : s.cstr other = some c) : ∃ t, moveConstruct this other s = .ok t ∧
      Effect L s (Function.update (Function.update s.cstr this (some c)) other (some nullString))
        [] t := by
  obtain ⟨x, hx⟩ := h.alive other c hother
  obtain ⟨z, hz, -⟩ := h.null
  have hmove : moveConstruct this other s =
      .ok ((s.store this (some c)).store other (some nullString)) := by
    rw [moveConstruct, State.load_eq hother]
    rfl
  refine ⟨_, hmove, h.move (fun p d hp => ?_) fun d hd => ?_⟩
  · by_cases hpo : p = other
    · subst hpo
      rw [Function.update_self, Option.some.injEq] at hp
      exact ⟨z, hp ▸ hz⟩
    · rw [Function.update_of_ne hpo] at hp
      exact alive_update h hx p d hp
  · rw [← hother]
    exact encard_move (by simp [hthis]) (by simpa using Ne.symm hd)

theorem swap_effect (h : Inv L s) (hthis : s.cstr this = some c) (hsptr : s.cstr .sptr = some d) :
    ∃ t, swap this s = .ok t ∧
      Effect L s (Function.update (Function.update s.cstr this (some d)) .sptr (some c)) [] t := by
  obtain ⟨x, hx⟩ := h.alive this c hthis
  obtain ⟨y, hy⟩ := h.alive .sptr d hsptr
  have hswap : swap this s = .ok ((s.store this (some d)).store .sptr (some c)) := by
    rw [swap, State.load_eq hthis, State.load_eq hsptr]
    rfl
  refine ⟨_, hswap, h.move (fun p e hp => ?_) fun e _ => ?_⟩
  · by_cases hps : p = .sptr
    · subst hps
      rw [Function.update_self, Option.some.injEq] at hp
      exact ⟨x, hp ▸ hx⟩
    · rw [Function.update_of_ne hps] at hp
      exact alive_update h hy p e hp
  · rw [← hthis, ← hsptr]
    exact encard_swap

/-- A new CString has one owner, and a counter of 0 unless it is made from nullptr. -/
theorem constructFrom_effect (h : Inv L s) (hthis : s.cstr this = none) {str : Option Word}
    (hstr : Aligned L str) :
    Effect L s (Function.update s.cstr this (some s.next)) [] (constructFrom L this str s) := by
  have hold : ∀ {d z}, s.strings d = some z → d ≠ s.next := fun hz => ne_of_lt (h.born _ _ hz)
  have hnew : (s.newCString L str).strings s.next = some (CString.construct L str) :=
    Function.update_self ..
  have hkeep : ∀ {d}, d ≠ s.next → (s.newCString L str).strings d = s.strings d :=
    fun hd => Function.update_of_ne hd ..
  have hnone : holders s.cstr s.next = ∅ := holders_eq_empty_iff.mpr fun p hp => by
    obtain ⟨z, hz⟩ := h.alive p s.next hp
    exact hold hz rfl
  refine ⟨⟨?_, fun d z hz => ?_, fun p d hp => ?_, fun d z hz hne => ?_, h.once, fun d => ?_⟩,
    ⟨Nat.le_succ _, fun d hd z hz => ⟨z, (hkeep (ne_of_lt hd)).symm.trans hz, rfl⟩⟩, rfl,
    (List.append_nil _).symm, by simp⟩
  · obtain ⟨z, hz, hsat⟩ := h.null
    exact ⟨z, (hkeep (hold hz)).trans hz, hsat⟩
  · by_cases hd : d = s.next
    · exact hd ▸ Nat.lt_succ_self _
    · exact (h.born d z ((hkeep hd).symm.trans hz)).trans (Nat.lt_succ_self _)
  · by_cases hpt : p = this
    · subst hpt
      have hself : Function.update s.cstr p (some s.next) p = some d := hp
      rw [Function.update_self, Option.some.injEq] at hself
      exact ⟨_, hself ▸ hnew⟩
    · obtain ⟨z, hz⟩ := h.alive p d ((Function.update_of_ne hpt ..).symm.trans hp)
      exact ⟨z, (hkeep (hold hz)).trans hz⟩
  · by_cases hd : d = s.next
    · subst hd
      obtain rfl := Option.some.inj (hnew.symm.trans hz)
      have hzero : (CString.construct L str).refCount L = 0 := by
        cases str with
        | none => exact absurd (and_mask_of_le (BitVec.le_refl _)) hne
        | some block => exact hstr block rfl
      have htake : (holders (Function.update s.cstr this (some s.next)) s.next).encard = 1 := by
        rw [holders_take, hnone]
        simp
      rw [hzero]
      exact htake
    · have hnot : s.cstr this ≠ some d := by simp [hthis]
      rw [← h.counts d z ((hkeep hd).symm.trans hz) hne]
      exact congrArg Set.encard (holders_keep hnot (by simpa using Ne.symm hd))
  · refine (h.gone d).trans ?_
    by_cases hd : d = s.next
    · subst hd
      simp [constructFrom, State.store, hnew]
    · have hlt : d < s.next ↔ d < s.next + 1 := by omega
      exact and_congr hlt (by rw [← hkeep hd]; rfl)

/-- The only owner of a CString lets it go. -/
theorem delete_effect (h : Inv L s) (hL : 1 ≤ L) (hx : s.strings c = some x)
    (hzero : x.refCount L = 0) (hthis : s.cstr this = some c) :
    Effect L s (Function.update s.cstr this none) [c]
      { s with
        strings := Function.update s.strings c none
        deleted := s.deleted ++ [c]
        cstr := Function.update s.cstr this none } := by
  have hne : x.refCount L ≠ REF_COUNT_SATURATION L := fun hsat =>
    saturation_ne_zero hL (hsat.symm.trans hzero)
  have hcount := h.counts c x hx hne
  rw [hzero] at hcount
  obtain ⟨p, hp⟩ := Set.encard_eq_one.mp (hcount.trans (by simp))
  have hmem : this ∈ owners s c := hthis
  obtain rfl : this = p := by simpa [hp] using hmem
  have hother : ∀ {q d}, Function.update s.cstr this none q = some d →
      s.cstr q = some d ∧ d ≠ c := fun {q d} hq => by
    by_cases hqt : q = this
    · subst hqt
      simp at hq
    · rw [Function.update_of_ne hqt] at hq
      refine ⟨hq, fun hd => hqt ?_⟩
      have hown : q ∈ owners s c := hd ▸ hq
      simpa [hp] using hown
  have hkeep : ∀ {d z}, Function.update s.strings c none d = some z →
      d ≠ c ∧ s.strings d = some z := fun {d z} hz => by
    by_cases hd : d = c
    · subst hd
      simp at hz
    · exact ⟨hd, (Function.update_of_ne hd ..).symm.trans hz⟩
  refine ⟨⟨?_, fun d z hz => h.born d z (hkeep hz).2, fun q d hq => ?_, fun d z hz hsat => ?_, ?_,
    fun d => ?_⟩, ⟨le_rfl, fun d _ z hz => ⟨z, (hkeep hz).2, rfl⟩⟩, rfl, rfl,
    fun d hd => ⟨this, by rw [List.mem_singleton.mp hd, hp]⟩⟩
  · obtain ⟨z, hz, hsat⟩ := h.null
    have hc : nullString ≠ c := by
      rintro rfl
      rw [hx, Option.some.injEq] at hz
      exact hne (hz ▸ hsat)
    exact ⟨z, (Function.update_of_ne hc ..).trans hz, hsat⟩
  · obtain ⟨hq, hd⟩ := hother hq
    obtain ⟨z, hz⟩ := h.alive q d hq
    exact ⟨z, (Function.update_of_ne hd ..).trans hz⟩
  · obtain ⟨hd, hz⟩ := hkeep hz
    rw [← h.counts d z hz hsat]
    exact congrArg Set.encard (holders_keep (by simpa [hthis] using Ne.symm hd) (by simp))
  · refine List.nodup_append.mpr ⟨h.once, by simp, fun d hd e he => ?_⟩
    rw [List.mem_singleton.mp he]
    rintro rfl
    rw [((h.gone d).mp hd).2] at hx
    cases hx
  · by_cases hd : d = c
    · subst hd
      simpa using h.born d x hx
    · simpa [hd] using h.gone d

theorem destroy_effect (h : Inv L s) (hL : 1 ≤ L) (hthis : s.cstr this = some c) :
    ∃ t dels, destroy L this s = .ok t ∧ dels ⊆ [c] ∧
      Effect L s (Function.update s.cstr this none) dels t := by
  obtain ⟨x, hx⟩ := h.alive this c hthis
  have hdestroy : destroy L this s =
      (if x.refCount L = 0 then s.delete c else s.decRefCount L c) >>= fun s =>
        .ok (s.store this none) := by
    rw [destroy, State.load_eq hthis]
    simp only [Outcome.ok_bind, State.release_eq L hx]
    rfl
  have halive : ∀ p d, Function.update s.cstr this none p = some d →
      ∃ z, s.strings d = some z := fun p d hp => by
    by_cases hpt : p = this
    · subst hpt
      simp at hp
    · exact h.alive p d ((Function.update_of_ne hpt ..).symm.trans hp)
  have hother : ∀ d, d ≠ c → d ≠ nullString →
      (holders (Function.update s.cstr this none) d).encard = (owners s d).encard :=
    fun d hd _ => congrArg Set.encard (holders_keep (by simpa [hthis] using Ne.symm hd) (by simp))
  rw [hdestroy]
  by_cases hzero : x.refCount L = 0
  · rw [if_pos hzero, State.delete_eq hx]
    exact ⟨_, [c], rfl, by simp, delete_effect h hL hx hzero hthis⟩
  · rw [if_neg hzero]
    by_cases hsat : x.refCount L = REF_COUNT_SATURATION L
    · rw [State.decRefCount_eq L hx (CString.decRefCount_saturated hzero hsat)]
      exact ⟨_, [], rfl, by simp,
        h.count hx rfl (fun _ => hsat) halive (fun hne => absurd hsat hne) hother⟩
    · obtain ⟨y, hy, hcount⟩ := CString.refCount_decRefCount hzero hsat
      rw [State.decRefCount_eq L hx hy]
      refine ⟨_, [], rfl, by simp, h.count hx (CString.cStr_decRefCount hy) (fun hc => ?_) halive
        (fun _ => ?_) hother⟩
      · obtain ⟨z, hz, hnull⟩ := h.null
        rw [← hc, hx, Option.some.injEq] at hz
        exact absurd (hz ▸ hnull) hsat
      · have hdrop := encard_drop (v := none) hthis (by simp)
        rw [h.counts c x hx hsat, ← hcount] at hdrop
        push_cast at hdrop
        exact ENat.add_left_injective_of_ne_top ENat.one_ne_top hdrop

/-- The second half of an assignment: the local variable takes the old CString with it. -/
theorem swap_destroy_effect {u : State} (hL : 1 ≤ L) (hthis : s.cstr this = some c)
    (hsptr : s.cstr .sptr = none) (h : Effect L s (Function.update s.cstr .sptr (some d)) [] u) :
    ∃ t dels, (swap this u >>= destroy L .sptr) = .ok t ∧
      Effect L s (Function.update s.cstr this (some d)) dels t := by
  have hne : this ≠ .sptr := by
    rintro rfl
    rw [hsptr] at hthis
    cases hthis
  have huthis : u.cstr this = some c := by rw [h.cstr, Function.update_of_ne hne, hthis]
  obtain ⟨v, hv, hvEffect⟩ := swap_effect h.inv huthis (by rw [h.cstr, Function.update_self])
  have hvsptr : v.cstr .sptr = some c := by rw [hvEffect.cstr, Function.update_self]
  have hvother : ∀ {q}, q ≠ this → q ≠ .sptr → v.cstr q = s.cstr q := fun hq hqs => by
    rw [hvEffect.cstr, h.cstr, Function.update_of_ne hqs, Function.update_of_ne hq,
      Function.update_of_ne hqs]
  obtain ⟨t, dels, ht, hdels, htEffect⟩ := destroy_effect hvEffect.inv hL hvsptr
  refine ⟨t, dels, by rw [hv]; exact ht, ?_⟩
  have hfinal := (h.trans hvEffect (by simp)).trans htEffect fun e he ⟨p, hp⟩ => ⟨this, ?_⟩
  · have hf : Function.update v.cstr .sptr none = Function.update s.cstr this (some d) := by
      funext q
      by_cases hqs : q = .sptr
      · subst hqs
        rw [Function.update_self, Function.update_of_ne (Ne.symm hne), hsptr]
      · rw [Function.update_of_ne hqs]
        by_cases hq : q = this
        · subst hq
          rw [hvEffect.cstr, Function.update_of_ne hne, Function.update_self, Function.update_self]
        · rw [hvother hq hqs, Function.update_of_ne hq]
    rw [hf] at hfinal
    exact hfinal
  · -- the only owner of the old CString is the local variable now, and was this before
    obtain rfl : e = c := List.mem_singleton.mp (hdels he)
    have hmem : Place.sptr ∈ owners v e := hvsptr
    rw [hp, Set.mem_singleton_iff] at hmem
    ext q
    refine ⟨fun hq => ?_, fun hq => (Set.mem_singleton_iff.mp hq) ▸ hthis⟩
    by_contra hqt
    have hqs : q ≠ .sptr := by
      rintro rfl
      exact absurd (hsptr.symm.trans hq) (by simp)
    have hown : q ∈ owners v e := (hvother hqt hqs).trans hq
    rw [hp, Set.mem_singleton_iff] at hown
    exact hqs (hown.trans hmem.symm)

theorem assign_effect (h : Inv L s) (hL : 1 ≤ L) (hthis : s.cstr this = some c)
    (hsptr : s.cstr .sptr = none) {str : Option Word} (hstr : Aligned L str) :
    ∃ t dels, assign L this str s = .ok t ∧
      Effect L s (Function.update s.cstr this (some s.next)) dels t :=
  swap_destroy_effect hL hthis hsptr (constructFrom_effect h hsptr hstr)

theorem copyAssign_effect (h : Inv L s) (hL : 1 ≤ L) (hthis : s.cstr this = some c)
    (hsptr : s.cstr .sptr = none) (hother : s.cstr other = some d) :
    ∃ t dels, copyAssign L this other s = .ok t ∧
      Effect L s (Function.update s.cstr this (some d)) dels t := by
  by_cases heq : this = other
  · subst heq
    refine ⟨s, [], if_pos rfl, h, .refl L s, ?_, (List.append_nil _).symm, by simp⟩
    rw [← hother, Function.update_eq_self]
  · obtain ⟨u, hu, hEffect⟩ := copyConstruct_effect h hsptr hother
    obtain ⟨t, dels, ht, htEffect⟩ := swap_destroy_effect hL hthis hsptr hEffect
    refine ⟨t, dels, (if_neg heq).trans ?_, htEffect⟩
    rw [hu]
    exact ht

/-- A move assignment destroys what is there and makes a StringPtr of the other one. -/
theorem moveAssign_eq (hne : this ≠ other) :
    moveAssign L this other s = destroy L this s >>= moveConstruct this other := by
  rw [moveAssign, if_neg hne, destroy]
  cases hload : s.load this with
  | error e => rfl
  | ok c =>
    simp only [Outcome.ok_bind]
    cases s.release L c with
    | error e => rfl
    | ok u =>
      have hother : (u.store this none).load other = u.load other :=
        congrArg (Outcome.orStop · Fault.deadObject) (Function.update_of_ne (Ne.symm hne) ..)
      simp only [Outcome.ok_bind, Outcome.pure_eq_ok, moveConstruct, hother]
      cases u.load other with
      | error e => rfl
      | ok d => simp [State.store, Function.update_idem]

theorem moveAssign_effect (h : Inv L s) (hL : 1 ≤ L) (hthis : s.cstr this = some c)
    (hother : s.cstr other = some d) (hne : this ≠ other) :
    ∃ t dels, moveAssign L this other s = .ok t ∧
      Effect L s (Function.update (Function.update s.cstr this (some d)) other (some nullString))
        dels t := by
  obtain ⟨u, dels, hu, -, huEffect⟩ := destroy_effect h hL hthis
  have huthis : u.cstr this = none := by rw [huEffect.cstr, Function.update_self]
  have huother : u.cstr other = some d := by
    rw [huEffect.cstr, Function.update_of_ne (Ne.symm hne), hother]
  obtain ⟨t, ht, htEffect⟩ := moveConstruct_effect huEffect.inv huthis huother
  rw [huEffect.cstr, Function.update_idem] at htEffect
  refine ⟨t, dels ++ [], ?_, huEffect.trans htEffect (by simp)⟩
  rw [moveAssign_eq hne, hu]
  exact ht

end StringPtr

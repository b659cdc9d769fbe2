import PlvmHomeworks.NonBlockingPool.Ownership

/-! Attribution of faults by the lock-free registry.

    alloc_handler loads the begin of a slot and then its end. In between the slot may pass to another
    pool, and before an add has stored its end the slot still has the end of the last pool. Where the
    handler finds its address below an end that the pool of the loaded begin has stored, what it
    reports is right, and it never overlooks a pool that is registered during its whole run. -/

namespace NonBlockingPool

variable {s t : State} {i j k q q' : ℕ}

/-- The handler begins a run. -/
def StartsRun : Event → Prop
  | .fault _ => True
  | _ => False

/-- The add of the pool has returned, its remove has not yet stored. -/
def Registered (s : State) (q : ℕ) : Prop := ∃ k, s.life q = .live k ∨ s.life q = .leaving k

/-- At some moment of the handler's run, P held. -/
abbrev During (P : State → Prop) (es : List Event) : Prop :=
  Events.Since step init StartsRun P es

/-- A pool with these addresses was registered during the whole run of the handler: its add returned
    before, and its remove has not begun. -/
def Throughout (q : ℕ) (r : Region) (es : List Event) : Prop :=
  ¬ During (fun u => ¬ ((∃ k, u.life q = .live k) ∧ u.region q = r)) es

/-- What the handler makes of the fault after the events of a run. -/
structure Attributed (es : List Event) (s : State) : Prop where
  reported : ∀ p b, s.handler = .reported p b →
    During (fun u => ∃ q, Registered u q ∧ (u.region q).begin = b ∧ (u.region q).Contains p) es
  found : ∀ p b, s.handler = .reported p b → ∀ q r, r.Contains p → Throughout q r es → b = r.begin
  forwarded : ∀ p, s.handler = .forwarded p → ∀ q r, r.Contains p → ¬ Throughout q r es

/-- Where the handler finds its address below the end of a slot, the end was stored by the pool whose
    begin it has loaded. -/
def SamePool (s : State) : Event → Prop
  | .handle =>
    match s.handler with
    | .loaded p i _ pool => p < (s.knownPools i).end_ → s.endBy i = pool
    | _ => True
  | _ => True

instance (s : State) (e : Event) : Decidable (SamePool s e) := by
  unfold SamePool
  split
  · cases s.handler <;> infer_instance
  · infer_instance

/-- What one step makes of a pool. -/
inductive Life.Next : Life → Life → Prop
  | same (l : Life) : Next l l
  | call : Next .fresh .adding
  | take (k : ℕ) : Next .adding (.taken k)
  | refuse : Next .adding .gone
  | store (k : ℕ) : Next (.taken k) (.live k)
  | remove (k : ℕ) : Next (.live k) (.leaving k)
  | clear (k : ℕ) : Next (.leaving k) .gone

theorem life_goto (s : State) (i : ℕ) (pc : Pc) {l l' : Life} (hq : s.life q = l)
    (hnext : l.Next l') (q' : ℕ) : (s.life q').Next ((s.goto i pc q l').life q') := by
  rcases s.goto_life i pc q l' q' with ⟨rfl, heq⟩ | ⟨-, heq⟩ <;> rw [heq]
  · rw [hq]
    exact hnext
  · exact .same _

theorem life_step {e : Event} (h : Inv s) (hstep : step s e = some t) (q' : ℕ) :
    (s.life q').Next (t.life q') := by
  cases e with
  | add i q r =>
    obtain ⟨⟨-, hfresh, -⟩, rfl⟩ := Option.ite_some_none_eq_some.mp hstep
    exact life_goto (s.map i q r) i _ hfresh .call q'
  | remove i q =>
    simp only [step] at hstep
    split at hstep
    next k hlive =>
      obtain ⟨-, rfl⟩ := Option.ite_some_none_eq_some.mp hstep
      exact life_goto s i _ hlive (.remove k) q'
    next => cases hstep
  | fault p =>
    simp only [step] at hstep
    split at hstep
    · cases hstep
    · obtain rfl := Option.some.inj hstep
      exact .same _
  | handle =>
    obtain ⟨handler, rfl⟩ := handle_cases hstep
    exact .same _
  | go i =>
    have hjob := h.jobs.job i
    simp only [step] at hstep
    cases hpc : s.pc i <;> simp only [next, hpc] at hstep hjob
    case out => cases hstep
    case scan q k =>
      split at hstep
      next =>
        obtain rfl := Option.some.inj hstep
        exact life_goto (s.setBegin k (s.region q).begin (some q)) i _ (hjob q _ rfl) (.take k) q'
      next =>
        split at hstep <;> obtain rfl := Option.some.inj hstep <;>
          exact life_goto s i _ (hjob q _ rfl) (.same _) q'
    case store q k =>
      obtain rfl := Option.some.inj hstep
      exact life_goto (s.setEnd k (s.region q).end_ (some q)) i _ (hjob q _ rfl) (.store k) q'
    case failed q =>
      obtain rfl := Option.some.inj hstep
      exact life_goto s i _ (hjob q _ rfl) .refuse q'
    case clear q k =>
      obtain rfl := Option.some.inj hstep
      exact life_goto ((s.passScans k).setBegin k 0 none) i _ (hjob q _ rfl) (.clear k) q'
    case unmap q =>
      obtain rfl := Option.some.inj hstep
      exact life_goto { s with mapped := s.mapped.erase q } i _ (hjob q _ rfl) (.same _) q'

theorem Life.Next.ne_fresh {l l' : Life} (h : l.Next l') (hl : l ≠ .fresh) : l' ≠ .fresh := by
  cases h <;> first | exact hl | simp

/-- A pool keeps the addresses it was mapped to, and only the handler's own steps change what it
    knows. -/
theorem frame_step {e : Event} (hstep : step s e = some t) :
    (∀ q, s.life q ≠ .fresh → t.region q = s.region q) ∧
      (e = .handle ∨ StartsRun e ∨ t.handler = s.handler) := by
  cases e with
  | add i q r =>
    obtain ⟨⟨-, hfresh, -⟩, rfl⟩ := Option.ite_some_none_eq_some.mp hstep
    refine ⟨fun q' hq' => Function.update_of_ne (fun heq => hq' ?_) .., .inr (.inr rfl)⟩
    rw [heq, hfresh]
  | remove i q =>
    simp only [step] at hstep
    split at hstep
    next =>
      obtain ⟨-, rfl⟩ := Option.ite_some_none_eq_some.mp hstep
      exact ⟨fun _ _ => rfl, .inr (.inr rfl)⟩
    next => cases hstep
  | fault p =>
    refine ⟨fun q _ => ?_, .inr (.inl trivial)⟩
    simp only [step] at hstep
    split at hstep <;> cases hstep
    rfl
  | handle =>
    obtain ⟨handler, rfl⟩ := handle_cases hstep
    exact ⟨fun _ _ => rfl, .inl rfl⟩
  | go i =>
    simp only [step] at hstep
    cases hpc : s.pc i <;> simp only [next, hpc] at hstep
    case out => cases hstep
    case scan q k =>
      split at hstep
      · cases hstep
        exact ⟨fun _ _ => rfl, .inr (.inr rfl)⟩
      · split at hstep <;> cases hstep <;> exact ⟨fun _ _ => rfl, .inr (.inr rfl)⟩
    all_goals
      cases hstep
      exact ⟨fun _ _ => rfl, .inr (.inr rfl)⟩

theorem scan_of_startsRun {e : Event} (hstep : step s e = some t) (he : StartsRun e) :
    ∃ p, t.handler = .scan p 0 := by
  cases e with
  | fault p =>
    simp only [step] at hstep
    split at hstep
    · cases hstep
    · obtain rfl := Option.some.inj hstep
      exact ⟨p, rfl⟩
  | _ => exact he.elim

/-- What the handler knows of the pool whose begin it has loaded: the pool was registered at some
    moment of the run, or it has not stored its end yet. -/
def Loaded (es : List Event) (s : State) : Prop :=
  ∀ p i b pool, s.handler = .loaded p i b pool → ∃ q, pool = some q ∧ s.life q ≠ .fresh ∧
    b = (s.region q).begin ∧ b ≤ p ∧ ((∃ k, s.life q = .taken k) ∨
      During (fun u => Registered u q ∧ u.region q = s.region q) es)

/-- What the handler reports was registered. -/
def Reported (es : List Event) (s : State) : Prop :=
  ∀ p b, s.handler = .reported p b →
    During (fun u => ∃ q, Registered u q ∧ (u.region q).begin = b ∧ (u.region q).Contains p) es

section
variable {es : List Event} {e : Event}

/-- A step of another thread: the pool may store its end, and is then registered. -/
theorem loaded_keep (h : Inv s) (hs : Events.exec step init (es ++ [e]) = some t)
    (hstep : step s e = some t) (he : ¬ StartsRun e) (hhandler : t.handler = s.handler)
    (hloaded : Loaded es s) : Loaded (es ++ [e]) t := by
  intro p i b pool hb
  obtain ⟨q, hpool, hfresh, hbegin, hle, hq⟩ := hloaded p i b pool (hhandler ▸ hb)
  have hregion : t.region q = s.region q := (frame_step hstep).1 q hfresh
  have hnext := life_step h hstep q
  refine ⟨q, hpool, hnext.ne_fresh hfresh, hregion ▸ hbegin, hle, ?_⟩
  rcases hq with ⟨k, hk⟩ | hduring
  · rw [hk] at hnext
    generalize hl : t.life q = l at hnext
    cases hnext with
    | same => exact .inl ⟨k, rfl⟩
    | store => exact .inr (Events.Since.now hs ⟨⟨k, .inl hl⟩, rfl⟩)
  · rw [hregion]
    exact .inr (hduring.snoc he)

/-- A step of the handler. -/
theorem loaded_handle (h : Inv s) (hs : Events.exec step init es = some s)
    (hok : SamePool s .handle) (hstep : handle s = some t) (hloaded : Loaded es s) :
    Loaded (es ++ [.handle]) t ∧ Reported (es ++ [.handle]) t := by
  have he : ¬ StartsRun .handle := id
  unfold handle at hstep
  split at hstep
  next p i hscan =>
    dsimp only at hstep
    split at hstep
    next hi =>
      split at hstep <;> obtain rfl := Option.some.inj hstep
      next hb =>
        refine ⟨fun p' i' b' pool' heq => ?_, fun p' b' heq => (by cases heq)⟩
        obtain ⟨rfl, rfl, rfl, rfl⟩ := Handler.loaded.inj heq
        obtain ⟨q, hq⟩ := h.slots.begun i hb.1
        obtain ⟨-, hbegin, hby⟩ := h.slots.owned q i hq
        refine ⟨q, hby, Life.ne_fresh hq, hbegin, hb.2, ?_⟩
        have hnow : Registered s q → During (fun u => Registered u q ∧ u.region q = s.region q)
            (es ++ [.handle]) := fun hreg => (Events.Since.now hs ⟨hreg, rfl⟩).snoc he
        cases hlife : s.life q with
        | taken k => exact .inl ⟨k, rfl⟩
        | live k => exact .inr (hnow ⟨k, .inl hlife⟩)
        | leaving k => exact .inr (hnow ⟨k, .inr hlife⟩)
        | _ =>
          rw [hlife] at hq
          cases hq
      next => exact ⟨fun _ _ _ _ heq => (by cases heq), fun _ _ heq => (by cases heq)⟩
    next =>
      obtain rfl := Option.some.inj hstep
      exact ⟨fun _ _ _ _ heq => (by cases heq), fun _ _ heq => (by cases heq)⟩
  next p i b pool hb =>
    dsimp only at hstep
    split at hstep <;> obtain rfl := Option.some.inj hstep
    next hend =>
      refine ⟨fun _ _ _ _ heq => (by cases heq), fun p' b' heq => ?_⟩
      obtain ⟨rfl, rfl⟩ := Handler.reported.inj heq
      obtain ⟨q, rfl, -, hbegin, hle, hq⟩ := hloaded p i b pool hb
      have hby : s.endBy i = some q := by
        have hsame : p < (s.knownPools i).end_ → s.endBy i = some q := by
          simpa only [SamePool, hb] using hok
        exact hsame hend.2
      obtain ⟨hends, hfinished⟩ := h.slots.ended i q hby
      rcases hq with ⟨k, hk⟩ | hduring
      · rw [hk] at hfinished
        cases hfinished
      · refine (hduring.snoc he).mono fun u hu => ⟨q, hu.1, ?_, ?_, ?_⟩
        · rw [hu.2, hbegin]
        · rw [hu.2, ← hbegin]
          exact hle
        · rw [hu.2, ← hends]
          exact hend.2
    next => exact ⟨fun _ _ _ _ heq => (by cases heq), fun _ _ heq => (by cases heq)⟩
  next => cases hstep

end

theorem Throughout.now {r : Region} {es : List Event} (h : Throughout q r es)
    (hs : Events.exec step init es = some s) : (∃ k, s.life q = .live k) ∧ s.region q = r := by
  by_contra hnot
  exact h (Events.Since.now hs hnot)

theorem Throughout.of_snoc {r : Region} {es : List Event} {e : Event}
    (h : Throughout q r (es ++ [e])) (he : ¬ StartsRun e) : Throughout q r es :=
  fun hsince => h (hsince.snoc he)

/-- The handler has yet to look at the slot k of a pool with begin b, or it is about to load its
    end. -/
def Handler.Ahead (p k b : ℕ) : Handler → Prop
  | .scan p' i => p' = p → i ≤ k
  | .loaded p' i b' _ => p' = p → i ≤ k ∧ (i = k → b' = b)
  | .forwarded p' => p' ≠ p
  | _ => True

/-- The handler does not pass a pool that is registered during its whole run. -/
def Ahead (es : List Event) (s : State) : Prop :=
  ∀ q r p k, r.Contains p → Throughout q r es → s.life q = .live k → s.handler.Ahead p k r.begin

/-- A step of the handler with a live pool around its address: it stops at the slot of the pool, if
    it has not stopped before. -/
theorem ahead_handle {r : Region} {p : ℕ} (h : Slots s) (hlive : s.life q = .live k)
    (hregion : s.region q = r) (hp : r.Contains p) (hstep : handle s = some t)
    (hahead : s.handler.Ahead p k r.begin) : t.handler.Ahead p k r.begin := by
  have hslot : (s.life q).slot = some k := by rw [hlive]; rfl
  obtain ⟨hlt, hbegin, -⟩ := h.owned q k hslot
  rw [hregion] at hbegin
  have hpos : 0 < r.begin := hregion ▸ h.positive q (Life.ne_fresh hslot)
  have hend : (s.knownPools k).end_ = r.end_ := by
    rw [← hregion]
    exact (h.ended k q (h.stored q k hslot (by rw [hlive]; rfl))).1
  unfold handle at hstep
  split at hstep
  next p' i hscan =>
    rw [hscan] at hahead
    dsimp only at hstep
    split at hstep
    next hi =>
      split at hstep <;> obtain rfl := Option.some.inj hstep
      next hb =>
        intro heq
        refine ⟨hahead heq, ?_⟩
        rintro rfl
        exact hbegin
      next hb =>
        rintro rfl
        have hle : i ≤ k := hahead rfl
        have hne : i ≠ k := by
          rintro rfl
          exact hb ⟨by omega, hbegin ▸ hp.1⟩
        omega
    next hi =>
      obtain rfl := Option.some.inj hstep
      rintro rfl
      have hle : i ≤ k := hahead rfl
      omega
  next p' i b pool hloaded =>
    rw [hloaded] at hahead
    dsimp only at hstep
    split at hstep <;> obtain rfl := Option.some.inj hstep
    next => trivial
    next hb =>
      rintro rfl
      obtain ⟨hle, hsame⟩ := hahead rfl
      have hne : i ≠ k := by
        rintro rfl
        refine hb ⟨?_, ?_⟩
        · rw [hsame rfl]
          exact hp.1
        · rw [hend]
          exact hp.2
      omega
  next => cases hstep

theorem ahead_step {es : List Event} {e : Event} (h : Inv s)
    (hs : Events.exec step init es = some s) (hstep : step s e = some t)
    (ht : Events.exec step init (es ++ [e]) = some t) (hahead : Ahead es s) :
    Ahead (es ++ [e]) t := by
  intro q r p k hp hthrough hlive
  -- the pool keeps its slot while the handler runs
  have hold : ¬ StartsRun e → s.life q = .live k ∧ s.region q = r ∧ s.handler.Ahead p k r.begin :=
    fun he => by
      have hthrough' := hthrough.of_snoc he
      obtain ⟨⟨k', hlive'⟩, hregion⟩ := hthrough'.now hs
      have hnext := life_step h hstep q
      rw [hlive, hlive'] at hnext
      cases hnext
      exact ⟨hlive', hregion, hahead q r p k hp hthrough' hlive'⟩
  by_cases he : StartsRun e
  · obtain ⟨p', hscan⟩ := scan_of_startsRun hstep he
    rw [hscan]
    exact fun _ => Nat.zero_le k
  · obtain ⟨hlive', hregion, hbefore⟩ := hold he
    rcases (frame_step hstep).2 with rfl | hstarts | hsame
    · exact ahead_handle h.slots hlive' hregion hp hstep hbefore
    · exact absurd hstarts he
    · rw [hsame]
      exact hbefore

theorem Region.Disjoint.not_contains {r r' : Region} {p : ℕ} (h : r.Disjoint r')
    (hp : r.Contains p) : ¬ r'.Contains p := by
  intro hp'
  obtain ⟨hlow, hhigh⟩ := hp
  obtain ⟨hlow', hhigh'⟩ := hp'
  rcases h with h | h <;> omega

/-- Two registered pools around one address are one pool. -/
theorem Registered.unique {p : ℕ} (h : Slots s) (hq : Registered s q) (hq' : Registered s q')
    (hp : (s.region q).Contains p) (hp' : (s.region q').Contains p) : q = q' := by
  have hmapped : ∀ {q}, Registered s q → q ∈ s.mapped := fun ⟨k, hk⟩ =>
    h.mapped _ (by rcases hk with hk | hk <;> rw [hk] <;> rfl)
  by_contra hne
  exact (h.disjoint q (hmapped hq) q' (hmapped hq') hne).not_contains hp hp'

/-- A pool that was registered during the run of the handler and holds its address is the one that
    was registered throughout. -/
theorem Throughout.unique {r : Region} {es : List Event} {p b : ℕ} (h : Throughout q r es)
    (hp : r.Contains p)
    (hreported : During (fun u => ∃ q, Registered u q ∧ (u.region q).begin = b ∧
      (u.region q).Contains p) es) : b = r.begin := by
  obtain ⟨before, after, u, hes, hexec, hafter, q', hq', hbegin, hp'⟩ := hreported
  have hu : (∃ k, u.life q = .live k) ∧ u.region q = r := by
    by_contra hnot
    exact h ⟨before, after, u, hes, hexec, hafter, hnot⟩
  obtain ⟨⟨k, hlive⟩, hregion⟩ := hu
  have hslots := (Inv.run (Events.run_of_exec_true hexec)).slots
  obtain rfl : q' = q :=
    Registered.unique hslots hq' ⟨k, .inl hlive⟩ hp' (hregion ▸ hp)
  rw [← hbegin, hregion]

/-- What every run keeps of the handler. -/
structure Handling (es : List Event) (s : State) : Prop where
  inv : Inv s
  loaded : Loaded es s
  reported : Reported es s
  ahead : Ahead es s

theorem Handling.init : Handling [] init where
  inv := Inv.init
  loaded _ _ _ _ heq := by cases heq
  reported _ _ heq := by cases heq
  ahead _ _ _ _ _ _ hlive := by cases hlive

theorem Handling.step {es : List Event} {e : Event} (h : Handling es s)
    (hs : Events.exec NonBlockingPool.step NonBlockingPool.init es = some s) (hok : SamePool s e)
    (hstep : NonBlockingPool.step s e = some t) : Handling (es ++ [e]) t := by
  have ht : Events.exec NonBlockingPool.step NonBlockingPool.init (es ++ [e]) = some t := by
    simp [Events.exec_append, hs, Events.exec, hstep]
  have hahead : Ahead (es ++ [e]) t := ahead_step h.inv hs hstep ht h.ahead
  have hinv : Inv t := h.inv.step hstep
  by_cases he : StartsRun e
  · obtain ⟨p, hscan⟩ := scan_of_startsRun hstep he
    exact ⟨hinv, fun _ _ _ _ heq => (by cases hscan.symm.trans heq),
      fun _ _ heq => (by cases hscan.symm.trans heq), hahead⟩
  · rcases (frame_step hstep).2 with rfl | hstarts | hsame
    · obtain ⟨hloaded, hreported⟩ := loaded_handle h.inv hs hok hstep h.loaded
      exact ⟨hinv, hloaded, hreported, hahead⟩
    · exact absurd hstarts he
    · exact ⟨hinv, loaded_keep h.inv ht hstep he hsame h.loaded,
        fun p b heq => (h.reported p b (hsame ▸ heq)).snoc he, hahead⟩

/-- Where the handler takes no end but that of the pool it has begun with, it reports a pool that was
    registered during its run, and every fault in a pool that is registered throughout is put down to
    that pool. -/
theorem fault_attributed {es : List Event} (h : Events.Run step SamePool init es s) :
    Attributed es s := by
  have hhandling : Handling es s := h.history .init fun _ _ _ _ hrun ha hok hstep =>
    ha.step hrun.exec hok hstep
  refine ⟨hhandling.reported, fun p b heq q r hp hthrough => ?_, fun p heq q r hp hthrough => ?_⟩
  · exact hthrough.unique hp (hhandling.reported p b heq)
  · obtain ⟨⟨k, hlive⟩, -⟩ := hthrough.now h.exec
    have hahead := hhandling.ahead q r p k hp hthrough hlive
    rw [heq] at hahead
    exact hahead rfl

/-- A pool that keeps its slot after every event of the handler's run is registered throughout. -/
theorem throughout_of_inits {r : Region} {before after : List Event} {p : ℕ}
    (h : ∀ es ∈ after.inits, (Events.exec step init (before ++ [.fault p] ++ es)).map
      (fun u => (u.life q, u.region q)) = some (.live k, r)) :
    Throughout q r (before ++ .fault p :: after) := by
  have hstart := h [] (by simp)
  rw [List.append_nil] at hstart
  obtain ⟨u, hu, -⟩ := Option.map_eq_some_iff.mp hstart
  intro hsince
  obtain ⟨es, rest, t, rfl, ht, hnot⟩ := hsince.after_start trivial hu
  have hpool := h es (by simp)
  rw [Events.exec_append, hu, Option.bind_some, ht] at hpool
  obtain ⟨hlive, hregion⟩ := Prod.mk.inj (Option.some.inj hpool)
  exact hnot ⟨⟨k, hlive⟩, hregion⟩

/-- A fault inside a pool. -/
def inside : List Event :=
  [.add 0 0 ⟨1000, 2000⟩, .go 0, .go 0] ++ .fault 1500 :: [.handle, .handle]

/-- The fault inside a pool is put down to it. -/
theorem fault_attributed_inside : ∃ s, Events.exec step init inside = some s ∧
    s.handler = .reported 1500 1000 ∧ Throughout 0 ⟨1000, 2000⟩ inside ∧ Attributed inside s := by
  obtain ⟨s, hs⟩ : ∃ s, Events.exec step init inside = some s :=
    Option.isSome_iff_exists.mp (by decide)
  have hhandler : (Events.exec step init inside).map (fun s => s.handler) =
    some (.reported 1500 1000) := by decide
  rw [hs, Option.map_some, Option.some.injEq] at hhandler
  exact ⟨s, hs, hhandler, throughout_of_inits (k := 0) (by decide),
    fault_attributed (Events.run_of_exec hs (by decide))⟩

/-- The handler loads the begin of the first pool for a fault in the second one. The first pool is
    removed, and a third one takes its slot and stores its end there. -/
def mixed : List Event :=
  [.add 0 0 ⟨1000, 2000⟩, .go 0, .go 0, .add 0 1 ⟨2000, 3000⟩, .go 0, .go 0, .go 0] ++
    .fault 2500 :: [.handle, .remove 0 0, .go 0, .go 0, .add 0 2 ⟨4000, 5000⟩, .go 0, .go 0, .handle]

/-- The handler puts the fault down to the first pool, which never held its address, and not to the
    second one, which is registered during the whole run of the handler. -/
theorem fault_misattributed : ∃ s, Events.exec step init mixed = some s ∧
    s.handler = .reported 2500 1000 ∧ Throughout 1 ⟨2000, 3000⟩ mixed ∧ ¬ Reported mixed s ∧
    ¬ Attributed mixed s := by
  obtain ⟨s, hs⟩ : ∃ s, Events.exec step init mixed = some s :=
    Option.isSome_iff_exists.mp (by decide)
  have hhandler : (Events.exec step init mixed).map (fun s => s.handler) =
    some (.reported 2500 1000) := by decide
  rw [hs, Option.map_some, Option.some.injEq] at hhandler
  have hthrough : Throughout 1 ⟨2000, 3000⟩ mixed := throughout_of_inits (k := 1) (by decide)
  have hnot : ¬ Reported mixed s := fun hreported => by
    have hbegin : 1000 = 2000 := hthrough.unique ⟨by decide, by decide⟩ (hreported _ _ hhandler)
    exact absurd hbegin (by decide)
  exact ⟨s, hs, hhandler, hthrough, hnot, fun hattributed => hnot hattributed.reported⟩

end NonBlockingPool

import PlvmHomeworks.Mempool.Calls

/-! The fault handler of the pool registry, which looks for the pool that the address belongs to.

    The loop goes over all of known_pools and dereferences every entry up to the one that contains the
    address. Slots that no pool has had yet, and slots of removed pools, hold null pointers. -/

namespace Mempool

inductive PoolKind
  | simple | locked | lockFree
  deriving DecidableEq

/-- MemPool, as far as the handler reads it. -/
structure MemPool where
  begin_ : ℕ
  end_ : ℕ
  kind : PoolKind

/-- entry.begin <= failed_ptr && failed_ptr < entry.end. -/
def MemPool.Contains (entry : MemPool) (failedPtr : ℕ) : Prop :=
  entry.begin_ ≤ failedPtr ∧ failedPtr < entry.end_

instance (entry : MemPool) (failedPtr : ℕ) : Decidable (entry.Contains failedPtr) := by
  unfold MemPool.Contains; infer_instance

/-- The text and the count of the write for each kind; the NUL is written too. -/
def PoolKind.report : PoolKind → String × ℕ
  | .simple => ("Bad alloc in PoolAllocator\n", 28)
  | .locked => ("Bad alloc in LockedPoolAllocator\n", 34)
  | .lockFree => ("Bad alloc in LockFreePoolAllocator\n", 36)

/-- How the handler ends. -/
inductive Handled
  | exit (written : Option (String × ℕ))  -- exit(3), with what has been written before
  | fault                                 -- a null pointer is dereferenced
  deriving DecidableEq

/-- The last n rounds of the loop, from index i on: the entries that are dereferenced, and the end. -/
def scan (known : ℕ → Option ℕ) (pools : ℕ → MemPool) (failedPtr : ℕ) : ℕ → ℕ → List (Option ℕ) × Handled
  | 0, _ => ([], .exit none)
  | n + 1, i =>
    match known i with
    | none => ([none], .fault)
    | some q =>
      if (pools q).Contains failedPtr then ([some q], .exit (some (pools q).kind.report))
      else
        let (entries, handled) := scan known pools failedPtr n (i + 1)
        (some q :: entries, handled)

/-- segv_handler. Whatever the status is, pool_registry_spinlock(BAD_ALLOC) comes to its end, and it
    leaves the table alone. -/
def segvHandler (s : State) (pools : ℕ → MemPool) (failedPtr : ℕ) : List (Option ℕ) × Handled :=
  let s := if s.status = .idle then { s with status := .badAlloc } else s
  scan s.knownPools pools failedPtr POOL_LIMIT 0

/-- The handler dereferences entries of registered pools only, and where the address lies in a
    registered pool it reports the kind of that pool. -/
structure FindsOwner (s : State) (pools : ℕ → MemPool) (failedPtr : ℕ) : Prop where
  dereferences : ∀ entry ∈ (segvHandler s pools failedPtr).1, ∃ q, entry = some q ∧ s.life q = .live
  reports : ∀ q, s.life q = .live → (pools q).Contains failedPtr →
    (segvHandler s pools failedPtr).2 = .exit (some (pools q).kind.report)

/-- In front of every null entry there is one whose pool contains the address. -/
def NoGap (s : State) (pools : ℕ → MemPool) (failedPtr : ℕ) : Prop :=
  ∀ i < POOL_LIMIT, s.knownPools i = none →
    ∃ j < i, ∃ q, s.knownPools j = some q ∧ (pools q).Contains failedPtr

/-- The registered pools that contain the address have one kind. -/
def OneKind (s : State) (pools : ℕ → MemPool) (failedPtr : ℕ) : Prop :=
  ∀ q q', s.life q = .live → s.life q' = .live → (pools q).Contains failedPtr →
    (pools q').Contains failedPtr →
    (pools q).kind = (pools q').kind

variable {s : State} {known : ℕ → Option ℕ} {pools : ℕ → MemPool} {failedPtr i n : ℕ}

theorem PoolKind.report_count (kind : PoolKind) : kind.report.2 = kind.report.1.length + 1 := by
  cases kind <;> rfl

theorem PoolKind.report_injective : Function.Injective PoolKind.report := by
  intro kind kind' h
  cases kind <;> cases kind' <;> first | rfl | cases (congrArg Prod.snd h)

/-- The entry has a pool, which does not contain the address. -/
def Passed (known : ℕ → Option ℕ) (pools : ℕ → MemPool) (failedPtr j : ℕ) : Prop :=
  ∃ q, known j = some q ∧ ¬ (pools q).Contains failedPtr

/-- The loop passes entries up to an index k, where the table ends, where there is a null entry, or
    where the pool contains the address. -/
theorem scan_cases (known : ℕ → Option ℕ) (pools : ℕ → MemPool) (failedPtr n i : ℕ) : ∃ k, i ≤ k ∧
    (∀ j, i ≤ j → j < k → Passed known pools failedPtr j) ∧
    (∀ entry ∈ (scan known pools failedPtr n i).1, ∃ j, i ≤ j ∧ j ≤ k ∧ j < i + n ∧ known j = entry) ∧
    (k = i + n ∧ (scan known pools failedPtr n i).2 = .exit none ∨
      k < i + n ∧ known k = none ∧ none ∈ (scan known pools failedPtr n i).1 ∨
      k < i + n ∧ ∃ q, known k = some q ∧ (pools q).Contains failedPtr ∧
        (scan known pools failedPtr n i).2 = .exit (some (pools q).kind.report)) := by
  induction n generalizing i with
  | zero =>
    exact ⟨i, le_rfl, fun j hle hlt => by omega, fun entry h => absurd h List.not_mem_nil, .inl ⟨rfl, rfl⟩⟩
  | succ n ih =>
    rw [scan]
    -- the entry at i ends the loop, or the loop goes on behind it
    have stops : ∀ entry ∈ [known i], ∃ j, i ≤ j ∧ j ≤ i ∧ j < i + (n + 1) ∧ known j = entry := fun entry h =>
      ⟨i, le_rfl, le_rfl, by omega, (List.mem_singleton.mp h).symm⟩
    cases hentry : known i with
    | none =>
      rw [hentry] at stops
      exact ⟨i, le_rfl, fun j hle hlt => by omega, stops,
        .inr (.inl ⟨by omega, hentry, List.mem_singleton_self _⟩)⟩
    | some q =>
      rw [hentry] at stops
      by_cases hin : (pools q).Contains failedPtr
      · simp only [if_pos hin]
        exact ⟨i, le_rfl, fun j hle hlt => by omega, stops, .inr (.inr ⟨by omega, q, hentry, hin, rfl⟩)⟩
      · simp only [if_neg hin]
        obtain ⟨k, hik, hpassed, hentries, hend⟩ := ih (i + 1)
        refine ⟨k, by omega, fun j hle hlt => ?_, fun entry h => ?_, ?_⟩
        · rcases Nat.eq_or_lt_of_le hle with rfl | hlt'
          · exact ⟨q, hentry, hin⟩
          · exact hpassed j hlt' hlt
        · rcases List.mem_cons.mp h with rfl | h
          · exact ⟨i, le_rfl, by omega, by omega, hentry⟩
          · obtain ⟨j, hij, hjk, hjn, hj⟩ := hentries entry h
            exact ⟨j, by omega, hjk, by omega, hj⟩
        · rcases hend with ⟨hk, hexit⟩ | ⟨hk, hnull, hmem⟩ | ⟨hk, q', hq', hin', hexit⟩
          · exact .inl ⟨by omega, hexit⟩
          · exact .inr (.inl ⟨by omega, hnull, List.mem_cons_of_mem _ hmem⟩)
          · exact .inr (.inr ⟨by omega, q', hq', hin', hexit⟩)

/-- The lock is not what the scan looks at. -/
theorem segvHandler_eq : segvHandler s pools failedPtr = scan s.knownPools pools failedPtr POOL_LIMIT 0 := by
  unfold segvHandler
  split <;> rfl

/-- In every state that calls executed one at a time lead to, the handler dereferences registered pools
    only and reports the owner of the address if and only if no null entry stands in front of the first
    pool that contains the address, and all registered pools that contain it are of one kind. -/
theorem finds_owner_iff {calls : List Call} (h : Events.exec call init calls = some s) (pools : ℕ → MemPool)
    (failedPtr : ℕ) : FindsOwner s pools failedPtr ↔ NoGap s pools failedPtr ∧ OneKind s pools failedPtr := by
  obtain ⟨held, hs⟩ := recycled_of_exec h
  have hlive : ∀ {j q}, s.knownPools j = some q → s.life q = .live := fun hq =>
    (hs.live_iff _).mpr ((hs.known _ _).mp hq).1
  obtain ⟨k, -, hpassed, hentries, hend⟩ := scan_cases s.knownPools pools failedPtr POOL_LIMIT 0
  rw [← segvHandler_eq, Nat.zero_add] at hentries hend
  constructor
  · rintro ⟨hderef, hreports⟩
    refine ⟨fun i hi hnull => ?_, fun q q' hq hq' hin hin' => ?_⟩
    · by_contra hgap
      rcases hend with ⟨rfl, -⟩ | ⟨-, -, hmem⟩ | ⟨-, q, hq, hin, -⟩
      · obtain ⟨q, hq, -⟩ := hpassed i (Nat.zero_le i) hi
        cases hnull.symm.trans hq
      · obtain ⟨q, hq, -⟩ := hderef none hmem
        cases hq
      · rcases Nat.lt_trichotomy k i with hki | rfl | hik
        · exact hgap ⟨k, hki, q, hq, hin⟩
        · cases hnull.symm.trans hq
        · obtain ⟨q', hq', -⟩ := hpassed i (Nat.zero_le i) hik
          cases hnull.symm.trans hq'
    · have hsame := (hreports q hq hin).symm.trans (hreports q' hq' hin')
      exact PoolKind.report_injective (Option.some.inj (Handled.exit.inj hsame))
  · rintro ⟨hgap, hkind⟩
    have hnogap : ∀ {i}, i ≤ k → i < POOL_LIMIT → s.knownPools i ≠ none := by
      intro i hik hi hnull
      obtain ⟨j, hji, q, hq, hin⟩ := hgap i hi hnull
      obtain ⟨q', hq', hnot⟩ := hpassed j (Nat.zero_le j) (by omega)
      cases hq.symm.trans hq'
      exact hnot hin
    refine ⟨fun entry hmem => ?_, fun q hq hin => ?_⟩
    · obtain ⟨j, -, hjk, hj, rfl⟩ := hentries entry hmem
      obtain ⟨q, hq⟩ := Option.ne_none_iff_exists'.mp (hnogap hjk hj)
      exact ⟨q, hq, hlive hq⟩
    · have hentry := (hs.known _ q).mpr ⟨(hs.live_iff q).mp hq, rfl⟩
      have hlt : s.registerIndex q < POOL_LIMIT :=
        Nat.lt_of_lt_of_le (hs.shared.lt ((hs.live_iff q).mp hq)) hs.bound
      rcases hend with ⟨rfl, -⟩ | ⟨hk, hnull, -⟩ | ⟨-, q', hq', hin', hexit⟩
      · obtain ⟨q', hq', hnot⟩ := hpassed _ (Nat.zero_le _) hlt
        cases hentry.symm.trans hq'
        exact absurd hin hnot
      · exact absurd hnull (hnogap le_rfl hk)
      · rw [hexit, hkind q' q (hlive hq') hq hin' hin]

/-- Every pool has a page of its own. -/
def ownPages : ℕ → MemPool := fun q => ⟨4096 * q, 4096 * (q + 1), .simple⟩

theorem finds_owner_iff_reusedSlot : ∃ s, Events.exec call init reusedSlot = some s ∧
    (FindsOwner s ownPages 50000 ↔ NoGap s ownPages 50000 ∧ OneKind s ownPages 50000) := by
  obtain ⟨s, hs⟩ : ∃ s, Events.exec call init reusedSlot = some s := Option.isSome_iff_exists.mp (by decide)
  exact ⟨s, hs, finds_owner_iff hs ownPages 50000⟩

/-- A pool with another one in front of it, which is removed again. -/
def removedFirst : List Call := [.add 0 10, .add 0 11, .remove 0 10]

theorem not_findsOwner_of_null (h : none ∈ (segvHandler s pools failedPtr).1) :
    ¬ FindsOwner s pools failedPtr :=
  fun howner => by
    obtain ⟨q, hq, -⟩ := howner.dereferences none h
    cases hq

/-- A fault in the second pool makes the handler dereference the null entry of the first one, and so
    does, with one pool alone, a fault anywhere else. -/
theorem handler_faults : (∃ s, Events.exec call init removedFirst = some s ∧ s.life 11 = .live ∧
      (ownPages 11).Contains 46000 ∧ segvHandler s ownPages 46000 = ([none], .fault) ∧
      ¬ FindsOwner s ownPages 46000) ∧
    ∃ s, Events.exec call init [.add 0 10] = some s ∧ segvHandler s ownPages 8 = ([some 10, none], .fault) ∧
      ¬ FindsOwner s ownPages 8 := by
  constructor
  · have hrun : (Events.exec call init removedFirst).map
        (fun s => (s.life 11, segvHandler s ownPages 46000)) =
        some (.live, [none], .fault) := by decide
    obtain ⟨s, hs, hend⟩ := Option.map_eq_some_iff.mp hrun
    obtain ⟨hlife, hend⟩ := Prod.mk.inj hend
    exact ⟨s, hs, hlife, by decide, hend, not_findsOwner_of_null (by rw [hend]; decide)⟩
  · have hrun : (Events.exec call init [.add 0 10]).map (fun s => segvHandler s ownPages 8) =
        some ([some 10, none], .fault) := by decide
    obtain ⟨s, hs, hend⟩ := Option.map_eq_some_iff.mp hrun
    exact ⟨s, hs, hend, not_findsOwner_of_null (by rw [hend]; decide)⟩

end Mempool

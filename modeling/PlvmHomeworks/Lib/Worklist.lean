import PlvmHomeworks.Lib.Outcome
import Mathlib.Data.Finset.Card

/-! Breadth-first search with a visited set and a payload per queue entry.

    `search` pops a node with its payload, lets `visit` process the pair (it may stop the search,
    change a global state and hand on a new payload), marks the successors that are not marked yet
    and queues them with the new payload. `Searches` is the run of a search that came to its end;
    every fact below is an induction on it. -/

namespace Worklist
open Outcome

universe u v

variable {ν π σ : Type u} {ε : Type v} [DecidableEq ν]

/-- Mark the successors that are not marked and queue each of them with payload `p`. -/
def push (p : π) : List ν → List ν → List (ν × π) → List ν × List (ν × π)
  | [], vis, q => (vis, q)
  | s :: ss, vis, q =>
    if s ∈ vis then push p ss vis q else push p ss (s :: vis) (q ++ [(s, p)])

/-- The end of a search: the global state, the marked nodes, and what was dequeued, in order. -/
structure Result (ν π σ : Type u) where
  state : σ
  visited : List ν
  log : List (ν × π)

/-- The search loop; `stuck` is reported when the fuel runs out first. -/
def search (visit : σ → ν → π → Except ε (σ × π × List ν)) (stuck : ε) :
    ℕ → σ → List ν → List (ν × π) → Except ε (Result ν π σ)
  | _, st, vis, [] => .ok ⟨st, vis, []⟩
  | 0, _, _, _ :: _ => .error stuck
  | fuel + 1, st, vis, (u, p) :: q =>
    visit st u p >>= fun v =>
      search visit stuck fuel v.1 (push v.2.1 v.2.2 vis q).1 (push v.2.1 v.2.2 vis q).2 >>= fun r =>
        .ok { r with log := (u, p) :: r.log }

/-- The runs of a search that emptied its queue. -/
inductive Searches (visit : σ → ν → π → Except ε (σ × π × List ν)) :
    σ → List ν → List (ν × π) → Result ν π σ → Prop
  | done (st : σ) (vis : List ν) : Searches visit st vis [] ⟨st, vis, []⟩
  | step {st st' : σ} {vis : List ν} {u : ν} {p p' : π} {ss : List ν} {q : List (ν × π)}
      {r : Result ν π σ} :
      visit st u p = .ok (st', p', ss) →
      Searches visit st' (push p' ss vis q).1 (push p' ss vis q).2 r →
      Searches visit st vis ((u, p) :: q) { r with log := (u, p) :: r.log }

variable {visit : σ → ν → π → Except ε (σ × π × List ν)} {stuck : ε}

theorem searches_of_search : ∀ {fuel : ℕ} {st : σ} {vis : List ν} {q : List (ν × π)}
    {r : Result ν π σ}, search visit stuck fuel st vis q = .ok r → Searches visit st vis q r
  | _, st, vis, [], r, h => by
    simp only [search, Except.ok.injEq] at h
    rw [← h]; exact .done st vis
  | 0, _, _, _ :: _, _, h => by simp [search] at h
  | fuel + 1, st, vis, (u, p) :: q, r, h => by
    obtain ⟨⟨st', p', ss⟩, hv, h⟩ := bind_eq_ok.mp h
    obtain ⟨r', hr, h⟩ := bind_eq_ok.mp h
    simp only [Except.ok.injEq] at h
    rw [← h]; exact .step hv (searches_of_search hr)

/-! ### One push -/

theorem push_visited (p : π) : ∀ (ss vis : List ν) (q : List (ν × π)) (v : ν),
    v ∈ (push p ss vis q).1 ↔ v ∈ vis ∨ v ∈ ss
  | [], _, _, _ => by simp [push]
  | s :: ss, vis, q, v => by
    by_cases hs : s ∈ vis
    · rw [push, if_pos hs, push_visited p ss vis q v, List.mem_cons]
      constructor
      · rintro (h | h) <;> tauto
      · rintro (h | rfl | h) <;> tauto
    · rw [push, if_neg hs, push_visited p ss _ _ v, List.mem_cons, List.mem_cons]; tauto

theorem push_queue (p : π) : ∀ (ss vis : List ν) (q : List (ν × π)) (e : ν × π),
    e ∈ (push p ss vis q).2 → e ∈ q ∨ (e.1 ∈ ss ∧ e.1 ∉ vis ∧ e.2 = p)
  | [], _, _, _, h => Or.inl h
  | s :: ss, vis, q, e, h => by
    by_cases hs : s ∈ vis
    · rw [push, if_pos hs] at h
      rcases push_queue p ss vis q e h with h | ⟨h1, h2, h3⟩
      · exact Or.inl h
      · exact Or.inr ⟨List.mem_cons_of_mem s h1, h2, h3⟩
    · rw [push, if_neg hs] at h
      rcases push_queue p ss _ _ e h with h | ⟨h1, h2, h3⟩
      · rcases List.mem_append.mp h with h | h
        · exact Or.inl h
        · rw [List.mem_singleton.mp h]; exact Or.inr ⟨List.mem_cons_self, hs, rfl⟩
      · exact Or.inr ⟨List.mem_cons_of_mem s h1, fun hv => h2 (List.mem_cons_of_mem s hv), h3⟩

theorem queue_push (p : π) : ∀ (ss vis : List ν) (q : List (ν × π)) (e : ν × π),
    e ∈ q → e ∈ (push p ss vis q).2
  | [], _, _, _, h => h
  | s :: ss, vis, q, e, h => by
    by_cases hs : s ∈ vis
    · rw [push, if_pos hs]; exact queue_push p ss vis q e h
    · rw [push, if_neg hs]; exact queue_push p ss _ _ e (List.mem_append_left _ h)

/-- A node marked by a push is queued by it. -/
theorem push_marked_queued (p : π) : ∀ (ss vis : List ν) (q : List (ν × π)) (v : ν),
    v ∈ (push p ss vis q).1 → v ∈ vis ∨ (v, p) ∈ (push p ss vis q).2
  | [], _, _, _, h => Or.inl h
  | s :: ss, vis, q, v, h => by
    by_cases hs : s ∈ vis
    · rw [push, if_pos hs] at h ⊢; exact push_marked_queued p ss vis q v h
    · rw [push, if_neg hs] at h ⊢
      rcases push_marked_queued p ss _ _ v h with h | h
      · rcases List.mem_cons.mp h with rfl | h
        · exact Or.inr (queue_push p ss _ _ _ (by simp))
        · exact Or.inl h
      · exact Or.inr h

/-- A push keeps the queue free of duplicates and inside the marked set. -/
theorem push_nodup (p : π) : ∀ (ss vis : List ν) (q : List (ν × π)),
    (q.map Prod.fst).Nodup → (∀ e ∈ q, e.1 ∈ vis) →
    ((push p ss vis q).2.map Prod.fst).Nodup ∧ ∀ e ∈ (push p ss vis q).2, e.1 ∈ (push p ss vis q).1
  | [], _, _, hn, hq => ⟨hn, hq⟩
  | s :: ss, vis, q, hn, hq => by
    by_cases hs : s ∈ vis
    · rw [push, if_pos hs]; exact push_nodup p ss vis q hn hq
    · rw [push, if_neg hs]
      refine push_nodup p ss _ _ ?_ ?_
      · have hfresh : s ∉ q.map Prod.fst := by
          intro hmem
          obtain ⟨e, he, rfl⟩ := List.mem_map.mp hmem
          exact hs (hq e he)
        rw [List.map_append, List.nodup_append]
        refine ⟨hn, by simp, ?_⟩
        rintro a ha b hb rfl
        simp only [List.map_cons, List.map_nil, List.mem_singleton] at hb
        exact hfresh (hb ▸ ha)
      · intro e he
        rcases List.mem_append.mp he with he | he
        · exact List.mem_cons_of_mem s (hq e he)
        · rw [List.mem_singleton.mp he]; exact List.mem_cons_self

/-! ### A whole search -/

theorem Searches.visited_mono {st : σ} {vis : List ν} {q : List (ν × π)} {r : Result ν π σ}
    (h : Searches visit st vis q r) : ∀ v ∈ vis, v ∈ r.visited := by
  induction h with
  | done => exact fun v hv => hv
  | step _ _ ih => exact fun v hv => ih v ((push_visited _ _ _ _ v).mpr (Or.inl hv))

/-- Everything queued is dequeued. -/
theorem Searches.queue_logged {st : σ} {vis : List ν} {q : List (ν × π)} {r : Result ν π σ}
    (h : Searches visit st vis q r) : ∀ e ∈ q, e ∈ r.log := by
  induction h with
  | done => exact fun e he => he
  | step _ _ ih =>
    intro e he
    rcases List.mem_cons.mp he with rfl | he
    · exact List.mem_cons_self
    · exact List.mem_cons_of_mem _ (ih e (queue_push _ _ _ _ e he))

/-- A node marked in the end was marked from the start or dequeued. -/
theorem Searches.visited_logged {st : σ} {vis : List ν} {q : List (ν × π)} {r : Result ν π σ}
    (h : Searches visit st vis q r) : ∀ v ∈ r.visited, v ∈ vis ∨ ∃ p, (v, p) ∈ r.log := by
  induction h with
  | done => exact fun v hv => Or.inl hv
  | step _ hs ih =>
    intro v hv
    rcases ih v hv with h | ⟨p, h⟩
    · rcases push_marked_queued _ _ _ _ v h with h | h
      · exact Or.inl h
      · exact Or.inr ⟨_, List.mem_cons_of_mem _ (hs.queue_logged _ h)⟩
    · exact Or.inr ⟨p, List.mem_cons_of_mem _ h⟩

/-- A property of the global state that every visit keeps holds in the end. -/
theorem Searches.state_inv {I : σ → Prop}
    (hI : ∀ st u p st' p' ss, I st → visit st u p = .ok (st', p', ss) → I st')
    {st : σ} {vis : List ν} {q : List (ν × π)} {r : Result ν π σ}
    (h : Searches visit st vis q r) : I st → I r.state := by
  induction h with
  | done => exact id
  | step hv _ ih => exact fun h0 => ih (hI _ _ _ _ _ _ h0 hv)

/-- Every dequeued pair was visited without a stop, its successors are marked in the end, and what
    the visit left in the global state is still there (`R` relates earlier and later states). -/
theorem Searches.processed {R : σ → σ → Prop} (hrefl : ∀ s, R s s)
    (htrans : ∀ a b c, R a b → R b c → R a c)
    (hR : ∀ st u p st' p' ss, visit st u p = .ok (st', p', ss) → R st st')
    {st : σ} {vis : List ν} {q : List (ν × π)} {r : Result ν π σ}
    (h : Searches visit st vis q r) : ∀ e ∈ r.log, ∃ st₁ st₂ p' ss,
      visit st₁ e.1 e.2 = .ok (st₂, p', ss) ∧ (∀ s ∈ ss, s ∈ r.visited) ∧ R st₂ r.state := by
  induction h with
  | done => intro e he; cases he
  | @step st st' vis u p p' ss q r hv hs ih =>
    intro e he
    rcases List.mem_cons.mp he with rfl | he
    · refine ⟨st, st', p', ss, hv, fun s hmem => ?_, ?_⟩
      · exact hs.visited_mono s ((push_visited p' ss vis q s).mpr (Or.inr hmem))
      · exact hs.state_inv (fun a u p b p' ss h1 h2 => htrans _ _ _ h1 (hR a u p b p' ss h2))
          (hrefl st')
    · exact ih e he

/-- A property of queue entries that every visit hands on holds of everything dequeued. -/
theorem Searches.payload_inv {P : ν → π → Prop}
    (hP : ∀ st u p st' p' ss, P u p → visit st u p = .ok (st', p', ss) → ∀ s ∈ ss, P s p')
    {st : σ} {vis : List ν} {q : List (ν × π)} {r : Result ν π σ}
    (h : Searches visit st vis q r) : (∀ e ∈ q, P e.1 e.2) → ∀ e ∈ r.log, P e.1 e.2 := by
  induction h with
  | done => intro _ e he; cases he
  | @step st st' vis u p p' ss q r hv hs ih =>
    intro hq e he
    rcases List.mem_cons.mp he with rfl | he
    · exact hq _ List.mem_cons_self
    · refine ih ?_ e he
      intro e' he'
      rcases push_queue p' ss vis q e' he' with h | ⟨h1, -, h3⟩
      · exact hq e' (List.mem_cons_of_mem _ h)
      · rw [h3]; exact hP _ _ _ _ _ _ (hq _ List.mem_cons_self) hv _ h1

/-- No node is dequeued twice when the queue starts without duplicates. -/
theorem Searches.log_nodup {st : σ} {vis : List ν} {q : List (ν × π)} {r : Result ν π σ}
    (h : Searches visit st vis q r) : (q.map Prod.fst).Nodup → (∀ e ∈ q, e.1 ∈ vis) →
      (r.log.map Prod.fst).Nodup ∧ ∀ e ∈ r.log, e ∈ q ∨ e.1 ∉ vis := by
  induction h with
  | done => intro _ _; exact ⟨List.nodup_nil, fun e he => absurd he List.not_mem_nil⟩
  | @step st st' vis u p p' ss q r hv hs ih =>
    intro hn hq
    have hn' : (q.map Prod.fst).Nodup := (List.nodup_cons.mp hn).2
    have hu : u ∉ q.map Prod.fst := (List.nodup_cons.mp hn).1
    have hq' : ∀ e ∈ q, e.1 ∈ vis := fun e he => hq e (List.mem_cons_of_mem _ he)
    obtain ⟨hpn, hpv⟩ := push_nodup p' ss vis q hn' hq'
    obtain ⟨hrn, hrl⟩ := ih hpn hpv
    have horigin : ∀ e ∈ r.log, e ∈ q ∨ e.1 ∉ vis := by
      intro e he
      rcases hrl e he with h | h
      · rcases push_queue p' ss vis q e h with h | ⟨-, h, -⟩
        · exact Or.inl h
        · exact Or.inr h
      · exact Or.inr fun hv => h ((push_visited ..).mpr (Or.inl hv))
    refine ⟨List.nodup_cons.mpr ⟨?_, hrn⟩, ?_⟩
    · intro hmem
      obtain ⟨e, he, heu⟩ := List.mem_map.mp hmem
      rcases horigin e he with h | h
      · exact hu (List.mem_map.mpr ⟨e, h, heu⟩)
      · exact h (heu ▸ hq _ List.mem_cons_self)
    · intro e he
      rcases List.mem_cons.mp he with rfl | he
      · exact Or.inl List.mem_cons_self
      · rcases horigin e he with h | h
        · exact Or.inl (List.mem_cons_of_mem _ h)
        · exact Or.inr h

/-! ### The turns of a search

    A search over finitely many nodes ends, and it fails as the first of its turns that fails. -/

/-- A search from `st`, `vis` and a queue comes to visit `u` with payload `p` in the state `s`. -/
inductive Visits (visit : σ → ν → π → Except ε (σ × π × List ν)) :
    σ → List ν → List (ν × π) → σ → ν → π → Prop
  | head {st : σ} {vis : List ν} {u : ν} {p : π} {q : List (ν × π)} :
      Visits visit st vis ((u, p) :: q) st u p
  | step {st st' s : σ} {vis : List ν} {u v : ν} {p p' r : π} {ss : List ν} {q : List (ν × π)} :
      visit st u p = .ok (st', p', ss) →
      Visits visit st' (push p' ss vis q).1 (push p' ss vis q).2 s v r →
      Visits visit st vis ((u, p) :: q) s v r

/-- Two searches that agree on the turns where `Q` holds come to the same turns up to the first
    where it does not. -/
theorem Visits.congr {visit' : σ → ν → π → Except ε (σ × π × List ν)} {Q : ν → π → Prop}
    (heq : ∀ s u p, Q u p → visit s u p = visit' s u p) {st : σ} {vis : List ν} {q : List (ν × π)}
    (h : ∀ s u p, Visits visit st vis q s u p → Q u p) {s : σ} {v : ν} {r : π}
    (hv : Visits visit' st vis q s v r) : Visits visit st vis q s v r := by
  induction hv with
  | head => exact .head
  | @step st st' s vis u v p p' r ss q hturn _ ih =>
    have hturn' : visit st u p = .ok (st', p', ss) := (heq st u p (h st u p .head)).trans hturn
    exact .step hturn' (ih fun s u p hs => h s u p (.step hturn' hs))

/-- A property of queue entries that every visit hands on holds of every turn. -/
theorem Visits.payload_inv {P : ν → π → Prop}
    (hP : ∀ st u p st' p' ss, P u p → visit st u p = .ok (st', p', ss) → ∀ s ∈ ss, P s p')
    {st : σ} {vis : List ν} {q : List (ν × π)} {s : σ} {v : ν} {r : π}
    (h : Visits visit st vis q s v r) : (∀ e ∈ q, P e.1 e.2) → P v r := by
  induction h with
  | head => exact fun hq => hq _ List.mem_cons_self
  | @step st st' s vis u v p p' r ss q hturn _ ih =>
    intro hq
    refine ih fun e he => ?_
    rcases push_queue p' ss vis q e he with h | ⟨h1, -, h3⟩
    · exact hq e (List.mem_cons_of_mem _ h)
    · rw [h3]; exact hP _ _ _ _ _ _ (hq _ List.mem_cons_self) hturn _ h1

/-- A node that a push queues is no longer unmarked. -/
theorem push_measure (U : Finset ν) (p : π) : ∀ (ss vis : List ν) (q : List (ν × π)),
    (∀ s ∈ ss, s ∈ U) → (push p ss vis q).2.length + (U \ (push p ss vis q).1.toFinset).card ≤
      q.length + (U \ vis.toFinset).card
  | [], _, _, _ => Nat.le_refl _
  | s :: ss, vis, q, h => by
    have hss : ∀ t ∈ ss, t ∈ U := fun t ht => h t (List.mem_cons_of_mem s ht)
    by_cases hs : s ∈ vis
    · rw [push, if_pos hs]; exact push_measure U p ss vis q hss
    · rw [push, if_neg hs]
      refine Nat.le_trans (push_measure U p ss _ _ hss) ?_
      have hmem : s ∈ U \ vis.toFinset :=
        Finset.mem_sdiff.mpr ⟨h s List.mem_cons_self, by rwa [List.mem_toFinset]⟩
      have hcard := Finset.card_erase_add_one hmem
      rw [List.toFinset_cons, Finset.sdiff_insert, List.length_append, List.length_singleton]
      omega

/-- What is dequeued is visited. -/
theorem Searches.visits_of_logged {st : σ} {vis : List ν} {q : List (ν × π)} {r : Result ν π σ}
    (h : Searches visit st vis q r) : ∀ e ∈ r.log, ∃ s, Visits visit st vis q s e.1 e.2 := by
  induction h with
  | done => exact fun e he => absurd he List.not_mem_nil
  | @step st st' vis u p p' ss q r hv hs ih =>
    intro e he
    rcases List.mem_cons.mp he with rfl | he
    · exact ⟨st, .head⟩
    · obtain ⟨s, hs⟩ := ih e he
      exact ⟨s, .step hv hs⟩

/-- A property of queue entries that weakens with every turn holds of a turn at its number, which is
    below the number of entries and unmarked nodes. -/
theorem Visits.payload_count {P : ℕ → ν → π → Prop} {U : Finset ν} {K : ℕ}
    (hmono : ∀ k u p, P k u p → P (k + 1) u p)
    (hP : ∀ k st u p st' p' ss, k < K → P k u p → visit st u p = .ok (st', p', ss) →
      ∀ s ∈ ss, s ∈ U ∧ P (k + 1) s p')
    {st : σ} {vis : List ν} {q : List (ν × π)} {s : σ} {v : ν} {r : π}
    (h : Visits visit st vis q s v r) : ∀ k, k + q.length + (U \ vis.toFinset).card ≤ K →
      (∀ e ∈ q, P k e.1 e.2) → ∃ n, n < K ∧ P n v r := by
  induction h with
  | head =>
    intro k hk hq
    rw [List.length_cons] at hk
    exact ⟨k, by omega, hq _ List.mem_cons_self⟩
  | @step st st' s vis u v p p' r ss q hturn _ ih =>
    intro k hk hq
    rw [List.length_cons] at hk
    have hss := hP k _ _ _ _ _ _ (by omega) (hq _ List.mem_cons_self) hturn
    have hmeasure := push_measure U p' ss vis q fun x hx => (hss x hx).1
    refine ih (k + 1) (by omega) fun e he => ?_
    rcases push_queue p' ss vis q e he with h | ⟨h1, -, h3⟩
    · exact hmono _ _ _ (hq e (List.mem_cons_of_mem _ h))
    · rw [h3]
      exact (hss _ h1).2

/-- With fuel for the queue and the unmarked nodes, a search fails only as one of its turns does. -/
theorem search_errorsIn {P : ε → Prop} {U : Finset ν}
    (hU : ∀ s u p s' p' ss, visit s u p = .ok (s', p', ss) → ∀ v ∈ ss, v ∈ U) :
    ∀ {fuel : ℕ} {st : σ} {vis : List ν} {q : List (ν × π)},
      q.length + (U \ vis.toFinset).card ≤ fuel →
      (ErrorsIn P (search visit stuck fuel st vis q) ↔
        ∀ s u p, Visits visit st vis q s u p → ErrorsIn P (visit s u p))
  | fuel, st, vis, [], _ => by
    have hr : search visit stuck fuel st vis [] = .ok ⟨st, vis, []⟩ := by cases fuel <;> rfl
    rw [hr]
    exact ⟨fun _ s u p h => (nomatch h), fun _ => errorsIn_ok⟩
  | 0, st, vis, (u, p) :: q, h => by simp at h
  | fuel + 1, st, vis, (u, p) :: q, h => by
    rw [search, errorsIn_bind]
    have rest : ∀ v, visit st u p = .ok v →
        (push v.2.1 v.2.2 vis q).2.length + (U \ (push v.2.1 v.2.2 vis q).1.toFinset).card ≤ fuel := by
      rintro ⟨st', p', ss⟩ hv
      simp only [List.length_cons] at h
      exact Nat.le_trans (push_measure U p' ss vis q (hU _ _ _ _ _ _ hv)) (by omega)
    constructor
    · rintro ⟨hturn, hrest⟩ s v r (_ | ⟨hv, hs⟩)
      · exact hturn
      · have := hrest _ hv
        rw [errorsIn_bind] at this
        exact (search_errorsIn hU (rest _ hv)).mp this.1 s v r hs
    · intro hall
      refine ⟨hall _ _ _ .head, fun v hv => ?_⟩
      rw [errorsIn_bind]
      exact ⟨(search_errorsIn hU (rest _ hv)).mpr fun s w r hs => hall s w r (.step hv hs),
        fun _ _ => errorsIn_ok⟩

/-- With that fuel, a search that has a run to its end comes to it. -/
theorem Searches.search_eq {U : Finset ν}
    (hU : ∀ s u p s' p' ss, visit s u p = .ok (s', p', ss) → ∀ v ∈ ss, v ∈ U)
    {st : σ} {vis : List ν} {q : List (ν × π)} {r : Result ν π σ} (h : Searches visit st vis q r) :
    ∀ {fuel : ℕ}, q.length + (U \ vis.toFinset).card ≤ fuel →
      search visit stuck fuel st vis q = .ok r := by
  induction h with
  | done st vis =>
    rintro (_ | fuel) _ <;> rfl
  | @step st st' vis u p p' ss q r hturn _ ih =>
    intro fuel hfuel
    rw [List.length_cons] at hfuel
    have hmeasure := push_measure U p' ss vis q (hU _ _ _ _ _ _ hturn)
    obtain ⟨fuel, rfl⟩ : ∃ k, fuel = k + 1 := ⟨fuel - 1, by omega⟩
    have hrest : search visit stuck fuel st' _ _ = .ok r := ih (by omega)
    rw [search, hturn, ok_bind, hrest, ok_bind]

/-! ### What a search queues

    A search that fails has queued nodes too, so these are facts about its first turns. -/

/-- The first turns of a search: what they dequeued, and the state, the marks and the queue then. -/
inductive Turns (visit : σ → ν → π → Except ε (σ × π × List ν)) (st : σ) (vis : List ν)
    (q : List (ν × π)) : List (ν × π) → σ → List ν → List (ν × π) → Prop
  | start : Turns visit st vis q [] st vis q
  | turn {done : List (ν × π)} {st₁ st₂ : σ} {vis₁ : List ν} {u : ν} {p p' : π} {ss : List ν}
      {q₁ : List (ν × π)} :
      Turns visit st vis q done st₁ vis₁ ((u, p) :: q₁) → visit st₁ u p = .ok (st₂, p', ss) →
      Turns visit st vis q (done ++ [(u, p)]) st₂ (push p' ss vis₁ q₁).1 (push p' ss vis₁ q₁).2

/-- Beside what is in the queue from the start, only unmarked nodes of `U` are queued, each once. -/
def QueuesOnce (visit : σ → ν → π → Except ε (σ × π × List ν)) (st : σ) (vis : List ν)
    (q : List (ν × π)) (U : Set ν) : Prop :=
  ∀ done st₁ vis₁ q₁, Turns visit st vis q done st₁ vis₁ q₁ →
    ∃ new, done ++ q₁ = q ++ new ∧ (new.map Prod.fst).Nodup ∧ ∀ e ∈ new, e.1 ∈ U ∧ e.1 ∉ vis

/-- A push queues the nodes it marks, each once. -/
theorem push_new (p : π) : ∀ (ss vis : List ν) (q : List (ν × π)),
    ∃ new, (push p ss vis q).2 = q ++ new ∧ (new.map Prod.fst).Nodup ∧
      (∀ e ∈ new, e.1 ∈ ss ∧ e.1 ∉ vis) ∧
      ∀ v, v ∈ (push p ss vis q).1 ↔ v ∈ vis ∨ v ∈ new.map Prod.fst
  | [], vis, q => ⟨[], (List.append_nil q).symm, List.nodup_nil, by simp, by simp [push]⟩
  | s :: ss, vis, q => by
    by_cases hs : s ∈ vis
    · rw [push, if_pos hs]
      obtain ⟨new, hq, hn, hnew, hvis⟩ := push_new p ss vis q
      exact ⟨new, hq, hn, fun e he => ⟨List.mem_cons_of_mem s (hnew e he).1, (hnew e he).2⟩, hvis⟩
    · rw [push, if_neg hs]
      obtain ⟨new, hq, hn, hnew, hvis⟩ := push_new p ss (s :: vis) (q ++ [(s, p)])
      refine ⟨(s, p) :: new, by rw [hq, List.append_assoc]; rfl, ?_, fun e he => ?_, fun v => ?_⟩
      · refine List.nodup_cons.mpr ⟨fun hmem => ?_, hn⟩
        obtain ⟨e, he, heq⟩ := List.mem_map.mp hmem
        exact (hnew e he).2 (heq ▸ List.mem_cons_self)
      · rcases List.mem_cons.mp he with rfl | he
        · exact ⟨List.mem_cons_self, hs⟩
        · obtain ⟨h1, h2⟩ := hnew e he
          exact ⟨List.mem_cons_of_mem s h1, fun hv => h2 (List.mem_cons_of_mem s hv)⟩
      · rw [hvis, List.mem_cons, List.map_cons, List.mem_cons]
        tauto

/-- A search whose turns find successors in `U` queues each node of `U` at most once. -/
theorem queuesOnce_of {U : Set ν} {st : σ} {vis : List ν} {q : List (ν × π)}
    (hU : ∀ s u p s' p' ss, visit s u p = .ok (s', p', ss) → ∀ v ∈ ss, v ∈ U) :
    QueuesOnce visit st vis q U := by
  intro done st₁ vis₁ q₁ h
  -- the marked nodes are those marked from the start and those queued since
  suffices key : ∃ new, done ++ q₁ = q ++ new ∧ (new.map Prod.fst).Nodup ∧
      (∀ e ∈ new, e.1 ∈ U ∧ e.1 ∉ vis) ∧ ∀ v, v ∈ vis₁ ↔ v ∈ vis ∨ v ∈ new.map Prod.fst by
    obtain ⟨new, hq, hn, hnew, -⟩ := key
    exact ⟨new, hq, hn, hnew⟩
  induction h with
  | start => exact ⟨[], by simp, List.nodup_nil, by simp, by simp⟩
  | @turn done st₁ st₂ vis₁ u p p' ss q₁ _ hturn ih =>
    obtain ⟨new, hq, hn, hnew, hvis⟩ := ih
    obtain ⟨more, hq', hn', hmore, hvis'⟩ := push_new p' ss vis₁ q₁
    refine ⟨new ++ more, ?_, ?_, fun e he => ?_, fun v => ?_⟩
    · rw [hq', ← List.append_assoc q, ← hq]
      simp
    · rw [List.map_append, List.nodup_append]
      refine ⟨hn, hn', ?_⟩
      rintro a ha b hb rfl
      obtain ⟨e, he, rfl⟩ := List.mem_map.mp hb
      exact (hmore e he).2 ((hvis _).mpr (Or.inr ha))
    · rcases List.mem_append.mp he with he | he
      · exact hnew e he
      · obtain ⟨h1, h2⟩ := hmore e he
        exact ⟨hU _ _ _ _ _ _ hturn _ h1, fun hv => h2 ((hvis _).mpr (Or.inl hv))⟩
    · rw [hvis', hvis, List.map_append, List.mem_append, or_assoc]

/-- So it takes no more turns than its queue and `U` have elements. -/
theorem QueuesOnce.length_le {U : Finset ν} {st : σ} {vis : List ν} {q : List (ν × π)}
    (h : QueuesOnce visit st vis q U) {done : List (ν × π)} {st₁ : σ} {vis₁ : List ν}
    {q₁ : List (ν × π)} (hturns : Turns visit st vis q done st₁ vis₁ q₁) :
    done.length + q₁.length ≤ q.length + U.card := by
  obtain ⟨new, hq, hn, hnew⟩ := h _ _ _ _ hturns
  have hcard : new.length ≤ U.card := by
    rw [← List.length_map Prod.fst, ← List.toFinset_card_of_nodup hn]
    refine Finset.card_le_card fun v hv => ?_
    obtain ⟨e, he, rfl⟩ := List.mem_map.mp (List.mem_toFinset.mp hv)
    exact (hnew e he).1
  have hlen := congrArg List.length hq
  rw [List.length_append, List.length_append] at hlen
  omega

/-- Fuel that is left over does not matter. -/
theorem search_succ : ∀ {fuel : ℕ} {st : σ} {vis : List ν} {q : List (ν × π)} {r : Result ν π σ},
    search visit stuck fuel st vis q = .ok r → search visit stuck (fuel + 1) st vis q = .ok r
  | fuel, st, vis, [], r, h => by cases fuel <;> exact h
  | 0, _, _, _ :: _, _, h => by cases h
  | fuel + 1, st, vis, (u, p) :: q, r, h => by
    obtain ⟨v, hv, h⟩ := bind_eq_ok.mp h
    obtain ⟨r', hr, h⟩ := bind_eq_ok.mp h
    rw [search, hv, ok_bind, search_succ hr]
    exact h

/-- A search whose turns are guarded comes to its end if and only if the guards of all turns pass. -/
theorem search_guard (guard : ν → π → Except ε PUnit) : ∀ {fuel : ℕ} {st : σ} {vis : List ν}
    {q : List (ν × π)} {r : Result ν π σ}, search visit stuck fuel st vis q = .ok r →
      ((∃ r', search (fun s u p => guard u p >>= fun _ => visit s u p) stuck fuel st vis q = .ok r') ↔
        ∀ e ∈ r.log, guard e.1 e.2 = .ok ⟨⟩)
  | fuel, st, vis, [], r, h => by
    have hr : r = ⟨st, vis, []⟩ := by cases fuel <;> cases h <;> rfl
    subst hr
    exact ⟨fun _ e he => absurd he List.not_mem_nil, fun _ => ⟨⟨st, vis, []⟩, by cases fuel <;> rfl⟩⟩
  | 0, _, _, _ :: _, _, h => by cases h
  | fuel + 1, st, vis, (u, p) :: q, r, h => by
    obtain ⟨v, hv, h⟩ := bind_eq_ok.mp h
    obtain ⟨r', hr, h⟩ := bind_eq_ok.mp h
    cases h
    have rest := search_guard guard hr
    constructor
    · rintro ⟨r₁, h₁⟩ e he
      obtain ⟨v₁, hv₁, h₁⟩ := bind_eq_ok.mp h₁
      obtain ⟨⟨⟩, hg, hv₁⟩ := bind_eq_ok.mp hv₁
      rw [hv, Except.ok.injEq] at hv₁
      subst hv₁
      obtain ⟨r₂, hr₂, -⟩ := bind_eq_ok.mp h₁
      rcases List.mem_cons.mp he with rfl | he
      · exact hg
      · exact rest.mp ⟨r₂, hr₂⟩ e he
    · intro hall
      obtain ⟨r₂, hr₂⟩ := rest.mpr fun e he => hall e (List.mem_cons_of_mem _ he)
      refine ⟨{ r₂ with log := (u, p) :: r₂.log }, ?_⟩
      rw [search, hall (u, p) List.mem_cons_self, ok_bind, hv, ok_bind, hr₂]
      rfl

/-! ### Leaving out dead ends -/

section
variable {visit' : σ → ν → π → Except ε (σ × π × List ν)} (dead : ν → Prop) [DecidablePred dead]

/-- The entries of a queue that are not dead ends. -/
def alive (dead : ν → Prop) [DecidablePred dead] (q : List (ν × π)) : List (ν × π) :=
  q.filter fun e => decide ¬ dead e.1

/-- A push without the dead ends marks and queues the rest as before. -/
theorem push_alive (p : π) : ∀ (ss vis vis' : List ν) (q : List (ν × π)),
    (∀ v, ¬ dead v → (v ∈ vis' ↔ v ∈ vis)) →
    alive dead (push p ss vis q).2 =
        (push p (ss.filter fun s => decide ¬ dead s) vis' (alive dead q)).2 ∧
      ∀ v, ¬ dead v → (v ∈ (push p (ss.filter fun s => decide ¬ dead s) vis' (alive dead q)).1 ↔
        v ∈ (push p ss vis q).1)
  | [], _, _, _, h => ⟨rfl, h⟩
  | s :: ss, vis, vis', q, h => by
    by_cases hd : dead s
    · -- a dead end is marked and queued in the one search only
      rw [List.filter_cons_of_neg (by simp [hd])]
      by_cases hs : s ∈ vis
      · rw [push, if_pos hs]
        exact push_alive p ss vis vis' q h
      · rw [push, if_neg hs]
        have hq : alive dead (q ++ [(s, p)]) = alive dead q := by simp [alive, hd]
        rw [← hq]
        refine push_alive p ss (s :: vis) vis' (q ++ [(s, p)]) fun v hv => ?_
        rw [h v hv, List.mem_cons]
        exact ⟨Or.inr, fun hmem => hmem.resolve_left fun heq => hv (heq ▸ hd)⟩
    · rw [List.filter_cons_of_pos (by simp [hd])]
      by_cases hs : s ∈ vis
      · rw [push, if_pos hs, push, if_pos ((h s hd).mpr hs)]
        exact push_alive p ss vis vis' q h
      · rw [push, if_neg hs, push, if_neg fun hmem => hs ((h s hd).mp hmem)]
        have hq : alive dead q ++ [(s, p)] = alive dead (q ++ [(s, p)]) := by simp [alive, hd]
        rw [hq]
        refine push_alive p ss (s :: vis) (s :: vis') (q ++ [(s, p)]) fun v hv => ?_
        rw [List.mem_cons, List.mem_cons, h v hv]

/-- A search that leaves out nodes without successors takes the other turns as before. -/
theorem search_alive
    (hdead : ∀ s u p s' p' ss, dead u → visit s u p = .ok (s', p', ss) → ss = [])
    (hlive : ∀ s t u p s' p' ss, ¬ dead u → visit s u p = .ok (s', p', ss) →
      ∃ t', visit' t u p = .ok (t', p', ss.filter fun v => decide ¬ dead v)) :
    ∀ {fuel : ℕ} {st t : σ} {vis vis' : List ν} {q : List (ν × π)} {r : Result ν π σ},
      search visit stuck fuel st vis q = .ok r → (∀ v, ¬ dead v → (v ∈ vis' ↔ v ∈ vis)) →
      ∃ r', search visit' stuck fuel t vis' (alive dead q) = .ok r' ∧ r'.log = alive dead r.log
  | fuel, st, t, vis, vis', [], r, h, _ => by
    have hr : r = ⟨st, vis, []⟩ := by cases fuel <;> cases h <;> rfl
    subst hr
    exact ⟨⟨t, vis', []⟩, by cases fuel <;> rfl, rfl⟩
  | 0, _, _, _, _, _ :: _, _, h, _ => by cases h
  | fuel + 1, st, t, vis, vis', (u, p) :: q, r, h, hvis => by
    obtain ⟨⟨s', p', ss⟩, hv, h⟩ := bind_eq_ok.mp h
    obtain ⟨r₁, hr, h⟩ := bind_eq_ok.mp h
    cases h
    by_cases hd : dead u
    · have hss := hdead _ _ _ _ _ _ hd hv
      subst hss
      obtain ⟨r', hr', hlog⟩ := search_alive hdead hlive (t := t) hr hvis
      have hq : alive dead ((u, p) :: q) = alive dead q := by simp [alive, hd]
      refine ⟨r', by rw [hq]; exact search_succ hr', ?_⟩
      rw [hlog]
      simp [alive, hd]
    · obtain ⟨t', ht'⟩ := hlive _ t _ _ _ _ _ hd hv
      obtain ⟨hpush, hmarks⟩ := push_alive dead p' ss vis vis' q hvis
      obtain ⟨r', hr', hlog⟩ := search_alive hdead hlive (t := t') hr hmarks
      have hq : ∀ l : List (ν × π), alive dead ((u, p) :: l) = (u, p) :: alive dead l := fun l => by
        simp [alive, hd]
      refine ⟨{ r' with log := (u, p) :: r'.log }, ?_, by rw [hq, hlog]⟩
      rw [hq, search, ht', ok_bind]
      simp only
      rw [← hpush, hr']
      rfl

end

/-- Two searches that agree on every turn of the first end in the same way. -/
theorem search_congr {visit' : σ → ν → π → Except ε (σ × π × List ν)} :
    ∀ {fuel : ℕ} {st : σ} {vis : List ν} {q : List (ν × π)},
      (∀ s u p, Visits visit st vis q s u p → visit s u p = visit' s u p) →
      search visit stuck fuel st vis q = search visit' stuck fuel st vis q
  | fuel, st, vis, [], _ => by cases fuel <;> rfl
  | 0, _, _, _ :: _, _ => rfl
  | fuel + 1, st, vis, (u, p) :: q, h => by
    rw [search, search, ← h _ _ _ .head]
    cases hv : visit st u p with
    | error e => rfl
    | ok v =>
      rw [ok_bind, ok_bind]
      rw [search_congr fun s w r hs => h s w r (.step hv hs)]

end Worklist

import PlvmHomeworks.Tools.Decode
import Mathlib.Logic.Relation

/-! What acceptance by the verifier means: the instructions of a body as its size scan decodes them,
    what the search of a body saw, and what the search of the whole file saw. -/

namespace Lama
open Outcome Worklist Relation

/-! ### The instructions of a body -/

/-- The instruction at `a` is not `END`, and `b` comes right after it. -/
def LinearStep (f : Bytefile) (a b : ℤ) : Prop := ∃ inst, readInst f a = .ok (inst, b) ∧ inst ≠ .end_

/-- `ip` starts an instruction of the body that begins at `begin`, decoded up to its `END`. -/
def BodyStart (f : Bytefile) (begin ip : ℤ) : Prop := ReflTransGen (LinearStep f) begin ip

/-- A scan from `ip` found an `END` at `e` and no prologue on the way. -/
inductive Scan (f : Bytefile) : ℤ → ℤ → Prop
  | done {e : ℤ} : rawByte f e = .ok opcodeEnd → Scan f e e
  | step {a b e : ℤ} {x y : ℕ} {inst : Inst} : rawByte f a = .ok x → x ≠ opcodeEnd →
      readInst f a = .ok (inst, b) → rawByte f b = .ok y → ¬ (y = opcodeBegin ∨ y = opcodeCBegin) →
      Scan f b e → Scan f a e

theorem scan_of_scanFunction {f : Bytefile} {begin : ℤ} : ∀ {fuel : ℕ} {ip size size' : ℤ},
    scanFunction f begin fuel ip size = .ok size' →
      ∃ e, Scan f ip e ∧ (e = ip ∧ size' = size ∨ size' = e - begin + 1)
  | 0, _, _, _, h => by cases h
  | fuel + 1, ip, size, size', h => by
    obtain ⟨x, hx, h⟩ := bind_eq_ok.mp h
    by_cases hend : x = opcodeEnd
    · simp only [hend, if_true, pure_eq_ok, Except.ok.injEq] at h
      exact ⟨ip, .done (hend ▸ hx), Or.inl ⟨rfl, h.symm⟩⟩
    · rw [if_neg hend] at h
      obtain ⟨⟨inst, next⟩, hi, h⟩ := bind_eq_ok.mp h
      obtain ⟨y, hy, h⟩ := bind_eq_ok.mp h
      obtain ⟨u, hp, h⟩ := bind_eq_ok.mp h
      rw [ensure_eq_ok] at hp
      obtain ⟨e, he, hs⟩ := scan_of_scanFunction h
      refine ⟨e, .step hx hend hi hy hp he, Or.inr ?_⟩
      rcases hs with ⟨rfl, hs⟩ | hs
      · exact hs
      · exact hs

/-- Where a scan ends there is nothing further to decode. -/
theorem Scan.not_linearStep {f : Bytefile} {e b : ℤ} (h : rawByte f e = .ok opcodeEnd) :
    ¬ LinearStep f e b := by
  rintro ⟨inst, hi, hne⟩
  exact hne ((readInst_end_iff hi h).mpr rfl)

theorem Scan.le {f : Bytefile} {a e : ℤ} (h : Scan f a e) : a ≤ e := by
  induction h with
  | done => exact Int.le_refl _
  | step _ _ hi _ _ _ ih =>
    have := (readInst_lt hi).2.1
    omega

/-- With fuel for the instructions on the way, `verify_function` finds the `END`. -/
theorem scanFunction_of_scan {f : Bytefile} {begin a e : ℤ} (h : Scan f a e) :
    ∀ {fuel : ℕ} {size : ℤ}, e - a < fuel →
      scanFunction f begin fuel a size = .ok (if a = e then size else e - begin + 1) := by
  induction h with
  | @done e he =>
    intro fuel size hfuel
    cases fuel with
    | zero => omega
    | succ fuel => rw [scanFunction, he, ok_bind, if_pos rfl, if_pos rfl]; rfl
  | @step a b e x y inst hx hend hi hy hp hs ih =>
    intro fuel size hfuel
    have hlt := (readInst_lt hi).2.1
    have hle := hs.le
    cases fuel with
    | zero => omega
    | succ fuel =>
      rw [scanFunction, hx, ok_bind, if_neg hend, if_neg (show a ≠ e by omega), hi, ok_bind]
      refine bind_eq_ok.mpr ⟨y, hy, bind_eq_ok.mpr ⟨(), ensure_of hp, (ih (by omega)).trans ?_⟩⟩
      split
      · next heq => rw [heq]
      · rfl

theorem LinearStep.unique {f : Bytefile} {a b c : ℤ} (h : LinearStep f a b) (h' : LinearStep f a c) :
    b = c := by
  obtain ⟨inst, hi, -⟩ := h
  obtain ⟨inst', hi', -⟩ := h'
  rw [hi, Except.ok.injEq, Prod.mk.injEq] at hi'
  exact hi'.2

theorem LinearStep.lt {f : Bytefile} {a b : ℤ} (h : LinearStep f a b) : a < b := by
  obtain ⟨inst, hi, -⟩ := h
  have := (readInst_lt hi).2.1
  omega

theorem BodyStart.le {f : Bytefile} {a b : ℤ} (h : BodyStart f a b) : a ≤ b := by
  induction h with
  | refl => exact Int.le_refl _
  | tail _ hbc ih =>
    have := hbc.lt
    omega

/-- The starts of a body are in a row: of two, the one decodes to the other. -/
theorem BodyStart.total {f : Bytefile} {begin a b : ℤ} (ha : BodyStart f begin a)
    (hb : BodyStart f begin b) : BodyStart f a b ∨ BodyStart f b a :=
  ReflTransGen.total_of_right_unique (fun _ _ _ => LinearStep.unique) ha hb

/-- The addresses that are decoded one after the other, up to an `END`. -/
def linearStarts (f : Bytefile) : ℕ → ℤ → List ℤ
  | 0, _ => []
  | fuel + 1, u => u ::
    match readInst f u with
    | .ok (inst, next) => if inst = .end_ then [] else linearStarts f fuel next
    | .error _ => []

theorem bodyStart_of_mem {f : Bytefile} {fuel : ℕ} {u v : ℤ} (h : v ∈ linearStarts f fuel u) :
    BodyStart f u v := by
  induction fuel generalizing u with
  | zero => exact absurd h List.not_mem_nil
  | succ fuel ih =>
    rw [linearStarts, List.mem_cons] at h
    rcases h with rfl | h
    · exact .refl
    · cases hi : readInst f u with
      | error x =>
        rw [hi] at h
        exact absurd h List.not_mem_nil
      | ok r =>
        simp only [hi] at h
        split at h
        · exact absurd h List.not_mem_nil
        · next hend => exact .head ⟨r.1, hi, hend⟩ (ih h)

/-- Every scan from `a` ends at the same `END`. -/
theorem Scan.unique {f : Bytefile} {a e e' : ℤ} (h : Scan f a e) (h' : Scan f a e') : e = e' := by
  induction h with
  | @done a ha =>
    cases h' with
    | done => rfl
    | step hx hend => exact absurd (Except.ok.inj (hx.symm.trans ha)) hend
  | @step a b e x y inst hx hend hi hy hp hs ih =>
    cases h' with
    | done hb => exact absurd (Except.ok.inj (hx.symm.trans hb)) hend
    | step hx' hend' hi' hy' hp' hs' =>
      rw [hi] at hi'
      cases hi'
      exact ih hs'

theorem Scan.rawByte_end {f : Bytefile} {a e : ℤ} (h : Scan f a e) : rawByte f e = .ok opcodeEnd := by
  induction h with
  | done he => exact he
  | step _ _ _ _ _ _ ih => exact ih

/-- An instruction the scan passes is in the body and is no prologue, but for the first. -/
theorem Scan.bodyStart {f : Bytefile} {a e ip : ℤ} (h : Scan f a e) (hip : BodyStart f a ip) :
    a ≤ ip ∧ ip ≤ e ∧ (ip = e ∨ ∃ next, LinearStep f ip next ∧ BodyStart f a next) ∧
      (ip ≠ a → ∃ y, rawByte f ip = .ok y ∧ ¬ (y = opcodeBegin ∨ y = opcodeCBegin)) := by
  induction h generalizing ip with
  | @done e he =>
    rcases ReflTransGen.cases_head hip with rfl | ⟨b, hb, -⟩
    · exact ⟨Int.le_refl _, Int.le_refl _, Or.inl rfl, fun h => absurd rfl h⟩
    · exact absurd hb (Scan.not_linearStep he)
  | @step a b e x y inst hx hend hi hy hp hs ih =>
    have hlt := (readInst_lt hi).2.1
    have hab : LinearStep f a b :=
      ⟨inst, hi, fun h => hend ((readInst_end_iff hi hx).mp h)⟩
    rcases ReflTransGen.cases_head hip with rfl | ⟨c, ⟨inst', hi', -⟩, hc⟩
    · have := hs.le
      exact ⟨Int.le_refl _, by omega, Or.inr ⟨b, hab, .single hab⟩, fun h => absurd rfl h⟩
    · rw [hi, Except.ok.injEq, Prod.mk.injEq] at hi'
      rw [← hi'.2] at hc
      obtain ⟨h1, h2, h3, h4⟩ := ih hc
      refine ⟨by omega, h2, ?_, fun _ => ?_⟩
      · rcases h3 with h3 | ⟨n, hn, hbn⟩
        · exact Or.inl h3
        · exact Or.inr ⟨n, hn, .head hab hbn⟩
      · by_cases hib : ip = b
        · exact ⟨y, hib ▸ hy, hp⟩
        · exact h4 hib

/-- The instructions of a body leave no gap: an address in it starts one or is inside one. -/
theorem Scan.tile {f : Bytefile} {a e t : ℤ} (h : Scan f a e) (ha : a ≤ t) (he : t ≤ e) :
    BodyStart f a t ∨ ∃ c d, BodyStart f a c ∧ LinearStep f c d ∧ c < t ∧ t < d := by
  induction h with
  | @done e _ =>
    have : t = e := by omega
    exact Or.inl (this ▸ .refl)
  | @step a b e x y inst hx hend hi hy hp hs ih =>
    have hab : LinearStep f a b :=
      ⟨inst, hi, fun h => hend ((readInst_end_iff hi hx).mp h)⟩
    by_cases hat : a = t
    · exact Or.inl (hat ▸ .refl)
    · by_cases htb : b ≤ t
      · rcases ih htb he with h | ⟨c, d, hc, hcd, h1, h2⟩
        · exact Or.inl (.head hab h)
        · exact Or.inr ⟨c, d, .head hab hc, hcd, h1, h2⟩
      · exact Or.inr ⟨a, b, .refl, hab, by omega, by omega⟩

/-! ### One turn of the body search -/

/-- What `load_location` has checked when it ends. -/
def LocationChecked (layout : StackLayout) (l : LocationEntry) : Prop :=
  (l.location = some .global → l.index ≤ layout.globals) ∧
    (l.location = some .local_ → l.index ≤ layout.locals) ∧
    (l.location = some .captured → layout.isClosure = true)

/-- `load_location` leaves these parts of a layout alone. -/
def SameFrame (a b : StackLayout) : Prop :=
  a.globals = b.globals ∧ a.locals = b.locals ∧ a.isClosure = b.isClosure

theorem loadLocation_ok {layout layout' : StackLayout} {l : LocationEntry}
    (h : loadLocation layout l = .ok layout') : SameFrame layout' layout ∧ LocationChecked layout l := by
  unfold loadLocation at h
  unfold LocationChecked
  split at h <;> rename_i hl
  · obtain ⟨u, hc, h⟩ := bind_eq_ok.mp h
    cases h
    rw [ensure_eq_ok] at hc
    exact ⟨⟨rfl, rfl, rfl⟩, fun _ => by omega, by simp [hl], by simp [hl]⟩
  · obtain ⟨u, hc, h⟩ := bind_eq_ok.mp h
    cases h
    rw [ensure_eq_ok] at hc
    exact ⟨⟨rfl, rfl, rfl⟩, by simp [hl], fun _ => by omega, by simp [hl]⟩
  · cases h
    exact ⟨⟨rfl, rfl, rfl⟩, by simp [hl], by simp [hl], by simp [hl]⟩
  · obtain ⟨u, hc, h⟩ := bind_eq_ok.mp h
    cases h
    rw [ensure_eq_ok] at hc
    exact ⟨⟨rfl, rfl, rfl⟩, by simp [hl], by simp [hl], fun _ => hc⟩
  · cases h
    exact ⟨⟨rfl, rfl, rfl⟩, by simp [hl], by simp [hl], by simp [hl]⟩

theorem loadLocations_ok : ∀ {ls : List LocationEntry} {layout layout' : StackLayout},
    loadLocations layout ls = .ok layout' →
      SameFrame layout' layout ∧ ∀ l ∈ ls, LocationChecked layout l
  | [], layout, layout', h => by
    cases h
    exact ⟨⟨rfl, rfl, rfl⟩, fun l hl => absurd hl List.not_mem_nil⟩
  | l :: ls, layout, layout', h => by
    obtain ⟨layout₁, h₁, h⟩ := bind_eq_ok.mp h
    obtain ⟨⟨hg, hl, hc⟩, hcheck⟩ := loadLocation_ok h₁
    obtain ⟨⟨hg', hl', hc'⟩, hchecks⟩ := loadLocations_ok h
    refine ⟨⟨hg'.trans hg, hl'.trans hl, hc'.trans hc⟩, fun k hk => ?_⟩
    rcases List.mem_cons.mp hk with rfl | hk
    · exact hcheck
    · have := hchecks k hk
      rwa [LocationChecked, hg, hl, hc] at this

/-- `StackDepthFunctor` on an instruction whose locations pass. -/
theorem stackDepthFunctor_ok {jumps jumps' : List ℤ} {layout layout' : StackLayout} {inst : Inst}
    (h : stackDepthFunctor jumps layout inst = .ok (jumps', layout')) :
    jumps' = jumps ++ inst.jumpTargets ∧ layout'.globals = layout.globals ∧
      layout'.locals = depthAfter layout.locals inst ∧
      (inst.isPrologue = false → layout'.isClosure = layout.isClosure) ∧
      ∀ l ∈ inst.locations, LocationChecked layout l := by
  obtain ⟨layout₁, h₁, h⟩ := bind_eq_ok.mp h
  obtain ⟨⟨hg, hl, hc⟩, hchecks⟩ := loadLocations_ok h₁
  simp only [pure_eq_ok, Except.ok.injEq, Prod.mk.injEq] at h
  obtain ⟨rfl, rfl⟩ := h
  cases inst <;> simp_all [Inst.jumpTargets, Inst.isPrologue]

/-- One turn of the body search that did not fail. -/
theorem visitFunction_ok {f : Bytefile} {begin size ip : ℤ} {jumps jumps' ss : List ℤ}
    {layout layout' : StackLayout}
    (h : visitFunction f begin size jumps ip layout = .ok (jumps', layout', ss)) :
    ∃ inst next, readInst f ip = .ok (inst, next) ∧
      stackDepthFunctor jumps layout inst = .ok (jumps', layout') ∧ 0 ≤ layout'.locals ∧
      ss = inBody begin size (successorsFunctor next inst) := by
  obtain ⟨⟨inst, next⟩, hi, h⟩ := bind_eq_ok.mp h
  obtain ⟨⟨jumps₁, layout₁⟩, hd, h⟩ := bind_eq_ok.mp h
  obtain ⟨u, hc, h⟩ := bind_eq_ok.mp h
  rw [ensure_eq_ok] at hc
  cases h
  exact ⟨inst, next, hi, hd, by omega, rfl⟩

/-! ### A verified body -/

/-- `verify_function` accepted the body at `begin`: its scan, its search and its jump check. -/
structure BodyVerified (f : Bytefile) (begin captured size : ℤ)
    (r : Result ℤ StackLayout (List ℤ)) : Prop where
  scanned : ∃ e, Scan f begin e ∧ (e = begin ∧ size = 2 ∨ size = e - begin + 1)
  searched : Searches (visitFunction f begin size) [] [begin]
    [(begin, initialLayout f captured (decide (captured ≥ 0)))] r
  jumps : checkJumps begin size r.state = .ok ()

theorem bodyVerified_of_verifyFunction {fuel : ℕ} {f : Bytefile} {begin captured args : ℤ}
    (h : verifyFunction fuel f begin captured = .ok args) :
    ∃ size r, searchFunction fuel f begin captured = .ok (size, r) ∧
      BodyVerified f begin captured size r := by
  obtain ⟨⟨size, r⟩, hs, h⟩ := bind_eq_ok.mp h
  obtain ⟨u, hj, -⟩ := bind_eq_ok.mp h
  refine ⟨size, r, hs, ?_⟩
  obtain ⟨size', hscan, hs⟩ := bind_eq_ok.mp hs
  obtain ⟨r', hsearch, hs⟩ := bind_eq_ok.mp hs
  cases hs
  exact ⟨scan_of_scanFunction hscan, searches_of_search hsearch, hj⟩

theorem checkJumps_of {begin size : ℤ} : ∀ {jumps : List ℤ}, (∀ t ∈ jumps, begin ≤ t ∧ t ≤ begin + size) →
    checkJumps begin size jumps = .ok ()
  | [], _ => rfl
  | j :: jumps, h => by
    have hj := h j List.mem_cons_self
    rw [checkJumps, ensure_of (by omega)]
    exact checkJumps_of fun t ht => h t (List.mem_cons_of_mem _ ht)

theorem checkJumps_ok {begin size : ℤ} : ∀ {jumps : List ℤ}, checkJumps begin size jumps = .ok () →
    ∀ t ∈ jumps, begin ≤ t ∧ t ≤ begin + size
  | [], _, t, ht => absurd ht List.not_mem_nil
  | j :: jumps, h, t, ht => by
    obtain ⟨u, hc, h⟩ := bind_eq_ok.mp h
    rw [ensure_eq_ok] at hc
    rcases List.mem_cons.mp ht with rfl | ht
    · omega
    · exact checkJumps_ok h t ht

namespace BodyVerified

variable {f : Bytefile} {begin captured size : ℤ} {r : Result ℤ StackLayout (List ℤ)}

theorem begin_visited (h : BodyVerified f begin captured size r) : begin ∈ r.visited :=
  h.searched.visited_mono begin List.mem_cons_self

theorem begin_logged (h : BodyVerified f begin captured size r) :
    (begin, initialLayout f captured (decide (captured ≥ 0))) ∈ r.log :=
  h.searched.queue_logged _ List.mem_cons_self

theorem logged_of_visited (h : BodyVerified f begin captured size r) {v : ℤ} (hv : v ∈ r.visited) :
    ∃ layout, (v, layout) ∈ r.log := by
  rcases h.searched.visited_logged v hv with hb | hl
  · rw [List.mem_singleton.mp hb]; exact ⟨_, h.begin_logged⟩
  · exact hl

/-- What the search did with an instruction it dequeued. -/
theorem logged (h : BodyVerified f begin captured size r) {v : ℤ} {layout : StackLayout}
    (hv : (v, layout) ∈ r.log) :
    ∃ inst next jumps jumps' layout', readInst f v = .ok (inst, next) ∧
      stackDepthFunctor jumps layout inst = .ok (jumps', layout') ∧ 0 ≤ layout'.locals ∧
      (∀ s ∈ successorsFunctor next inst, begin ≤ s → s < begin + size → s ∈ r.visited) ∧
      ∀ t ∈ inst.jumpTargets, begin ≤ t ∧ t ≤ begin + size := by
  obtain ⟨jumps, jumps', layout', ss, hvisit, hss, hmono⟩ :=
    h.searched.processed (R := fun a b => ∀ t ∈ a, t ∈ b) (fun _ _ => id)
      (fun a b c hab hbc t ht => hbc t (hab t ht))
      (by
        intro js u p js' p' ss hu t ht
        obtain ⟨inst, next, -, hd, -, -⟩ := visitFunction_ok hu
        rw [(stackDepthFunctor_ok hd).1]
        exact List.mem_append_left _ ht) _ hv
  obtain ⟨inst, next, hi, hd, hpos, rfl⟩ := visitFunction_ok hvisit
  refine ⟨inst, next, jumps, jumps', layout', hi, hd, hpos, fun s hs hlo hhi => ?_, fun t ht => ?_⟩
  · exact hss s (List.mem_filter.mpr ⟨hs, by simp [hlo, hhi]⟩)
  · refine checkJumps_ok h.jumps t (hmono t ?_)
    rw [(stackDepthFunctor_ok hd).1]
    exact List.mem_append_right _ ht

/-- The locals operand of a verified body is not negative. -/
theorem locals_nonneg (h : BodyVerified f begin captured size r) {inst : Inst} {next argc locc : ℤ}
    (hi : readInst f begin = .ok (inst, next))
    (hb : inst = .begin argc locc ∨ inst = .cbegin argc locc) : 0 ≤ locc := by
  obtain ⟨inst', next', jumps, jumps', layout', hi', hd, hpos, -, -⟩ := h.logged h.begin_logged
  rw [hi, Except.ok.injEq, Prod.mk.injEq] at hi'
  rw [(stackDepthFunctor_ok hd).2.2.1, ← hi'.1] at hpos
  rcases hb with rfl | rfl <;> exact hpos

end BodyVerified

/-! ### An accepted file -/

/-- `PushCallOffset` records the bodies that calls and closures enter. -/
structure Pushed (f : Bytefile) (bodies : Bodies) (inst : Inst) : Prop where
  call : ∀ r offset argc, inst = .call r offset argc →
    rawByte f offset = .ok opcodeBegin ∧ offset ∈ bodies.begins
  closure : ∀ offset captured, inst = .closure offset captured →
    (∃ b, rawByte f offset = .ok b ∧ (b = opcodeCBegin ∨ b = opcodeBegin)) ∧
      ⟨offset, captured.length⟩ ∈ bodies.cbegins

/-- The bodies only grow. -/
def Bodies.Grows (a b : Bodies) : Prop :=
  (∀ x ∈ a.begins, x ∈ b.begins) ∧ ∀ x ∈ a.cbegins, x ∈ b.cbegins

theorem pushCallOffset_ok {f : Bytefile} {bodies bodies' : Bodies} {inst : Inst}
    (h : pushCallOffset f bodies inst = .ok bodies') :
    bodies.Grows bodies' ∧ Pushed f bodies' inst := by
  have other : bodies = bodies' → (∀ r o a, inst ≠ .call r o a) → (∀ o c, inst ≠ .closure o c) →
      bodies.Grows bodies' ∧ Pushed f bodies' inst := by
    rintro rfl hc hcl
    exact ⟨⟨fun _ => id, fun _ => id⟩,
      ⟨fun r o a h => absurd h (hc r o a), fun o c h => absurd h (hcl o c)⟩⟩
  cases inst
  case call r o a =>
    obtain ⟨b, hb, h⟩ := bind_eq_ok.mp h
    obtain ⟨u, hc, h⟩ := bind_eq_ok.mp h
    rw [ensure_eq_ok] at hc
    cases h
    refine ⟨⟨fun x hx => List.mem_append_left _ hx, fun _ => id⟩, ⟨?_, by simp⟩⟩
    rintro r' o' a' ⟨⟩
    exact ⟨hc ▸ hb, by simp⟩
  case closure o c =>
    obtain ⟨b, hb, h⟩ := bind_eq_ok.mp h
    obtain ⟨u, hc, h⟩ := bind_eq_ok.mp h
    rw [ensure_eq_ok] at hc
    cases h
    refine ⟨⟨fun _ => id, fun x hx => List.mem_append_left _ hx⟩, ⟨by simp, ?_⟩⟩
    rintro o' c' ⟨⟩
    exact ⟨⟨b, hb, hc⟩, by simp⟩
  all_goals exact other (by simpa [pushCallOffset] using h) (by simp) (by simp)

theorem Pushed.mono {f : Bytefile} {a b : Bodies} {inst : Inst} (h : Pushed f a inst)
    (hab : a.Grows b) : Pushed f b inst :=
  ⟨fun r o c hi => ⟨(h.call r o c hi).1, hab.1 _ (h.call r o c hi).2⟩,
    fun o c hi => ⟨(h.closure o c hi).1, hab.2 _ (h.closure o c hi).2⟩⟩

/-- One turn of the reachability search that did not fail. -/
theorem visitReachable_ok {f : Bytefile} {bodies bodies' : Bodies} {ip : ℤ} {p p' : Unit} {ss : List ℤ}
    (h : visitReachable f bodies ip p = .ok (bodies', p', ss)) :
    ∃ inst next, readInst f ip = .ok (inst, next) ∧ bodies.Grows bodies' ∧ Pushed f bodies' inst ∧
      ss = successorsFunctor next inst := by
  obtain ⟨⟨inst, next⟩, hi, h⟩ := bind_eq_ok.mp h
  obtain ⟨bodies₁, hb, h⟩ := bind_eq_ok.mp h
  obtain ⟨u, -, h⟩ := bind_eq_ok.mp h
  cases h
  exact ⟨inst, next, hi, (pushCallOffset_ok hb).1, (pushCallOffset_ok hb).2, rfl⟩

/-- `verify_reachable_instructions` accepted the file, whose main symbol is at `ip`. -/
structure Accepted (fuel : ℕ) (f : Bytefile) (ip : ℤ) (r : Result ℤ Unit Bodies) : Prop where
  entry_visited : ip ∈ r.visited
  entry_begin : ip ∈ r.state.begins
  visited : ∀ v ∈ r.visited, ∃ inst next, readInst f v = .ok (inst, next) ∧
    (∀ s ∈ successorsFunctor next inst, s ∈ r.visited) ∧ Pushed f r.state inst
  verified : ∀ body ∈ r.state.all, ∃ size r',
    searchFunction fuel f body.offset body.captured = .ok (size, r') ∧
      BodyVerified f body.offset body.captured size r'

theorem verifyBodies_ok {fuel : ℕ} {f : Bytefile} : ∀ {bodies : List ClosureEntry}
    {m m' : List (ℤ × ℤ)}, verifyBodies fuel f bodies m = .ok m' →
      ∀ body ∈ bodies, ∃ args, verifyFunction fuel f body.offset body.captured = .ok args
  | [], _, _, _, body, hb => absurd hb List.not_mem_nil
  | b :: bodies, m, m', h, body, hb => by
    obtain ⟨args, ha, h⟩ := bind_eq_ok.mp h
    rcases List.mem_cons.mp hb with rfl | hb
    · exact ⟨args, ha⟩
    · exact verifyBodies_ok h body hb

/-- What a search of the whole file leaves behind. -/
theorem searchReachable_ok {fuel : ℕ} {f : Bytefile} {es : List ℤ} {r : Result ℤ Unit Bodies}
    (h : searchReachable fuel f es = .ok r) :
    (∀ e ∈ es, e ∈ r.visited ∧ e ∈ r.state.begins) ∧
      ∀ v ∈ r.visited, ∃ inst next, readInst f v = .ok (inst, next) ∧
        (∀ s ∈ successorsFunctor next inst, s ∈ r.visited) ∧ Pushed f r.state inst := by
  obtain ⟨u, -, h⟩ := bind_eq_ok.mp h
  obtain ⟨u, -, h⟩ := bind_eq_ok.mp h
  have hs := searches_of_search h
  have grows : ∀ (b : Bodies) u p b' p' ss, visitReachable f b u p = .ok (b', p', ss) →
      b.Grows b' := fun b u p b' p' ss hv => by
    obtain ⟨inst, next, -, hg, -, -⟩ := visitReachable_ok hv
    exact hg
  have trans : ∀ a b c : Bodies, a.Grows b → b.Grows c → a.Grows c := fun a b c hab hbc =>
    ⟨fun x hx => hbc.1 x (hab.1 x hx), fun x hx => hbc.2 x (hab.2 x hx)⟩
  refine ⟨fun e he => ⟨hs.visited_mono e he, ?_⟩, fun v hv => ?_⟩
  · exact hs.state_inv (I := fun b => e ∈ b.begins)
      (fun b u p b' p' ss hb hv => (grows b u p b' p' ss hv).1 e hb) he
  · have hlog : ∃ p, (v, p) ∈ r.log := by
      rcases hs.visited_logged v hv with he | hl
      · exact ⟨(), hs.queue_logged _ (List.mem_map.mpr ⟨v, he, rfl⟩)⟩
      · exact hl
    obtain ⟨p, hp⟩ := hlog
    obtain ⟨b₁, b₂, p', ss, hvisit, hss, hg⟩ :=
      hs.processed (R := Bodies.Grows) (fun _ => ⟨fun _ => id, fun _ => id⟩) trans grows _ hp
    obtain ⟨inst, next, hi, -, hpush, rfl⟩ := visitReachable_ok hvisit
    exact ⟨inst, next, hi, hss, hpush.mono hg⟩

theorem readFile_of_loadProgram {fuel : ℕ} {garbage : ℤ → ℤ → ℤ} {bytes : List UInt8} {f : Bytefile}
    {ip : ℤ} (h : loadProgram fuel garbage bytes = .ok (f, ip)) : readFile bytes = .ok f := by
  obtain ⟨f', hf, h⟩ := bind_eq_ok.mp h
  obtain ⟨es, -, h⟩ := bind_eq_ok.mp h
  obtain ⟨u, -, h⟩ := bind_eq_ok.mp h
  obtain ⟨ip', -, h⟩ := bind_eq_ok.mp h
  cases h
  exact hf

/-- A program that `main` of `interpreter.cpp` starts was accepted. -/
theorem accepted_of_loadProgram {fuel : ℕ} {garbage : ℤ → ℤ → ℤ} {bytes : List UInt8} {f : Bytefile}
    {ip : ℤ} (h : loadProgram fuel garbage bytes = .ok (f, ip)) :
    ∃ es r, getEntrypoints f = .ok es ∧ searchReachable fuel f es = .ok r ∧ Accepted fuel f ip r := by
  obtain ⟨f', -, h⟩ := bind_eq_ok.mp h
  obtain ⟨es, hes, h⟩ := bind_eq_ok.mp h
  obtain ⟨u, hv, h⟩ := bind_eq_ok.mp h
  obtain ⟨ip', hip, h⟩ := bind_eq_ok.mp h
  cases h
  obtain ⟨r, hr, hv⟩ := bind_eq_ok.mp hv
  obtain ⟨m, hm, -⟩ := bind_eq_ok.mp hv
  obtain ⟨hentry, hvisited⟩ := searchReachable_ok hr
  have hmem := hentry ip (mainEntry_mem hip hes)
  refine ⟨es, r, hes, hr, hmem.1, hmem.2, hvisited, fun body hb => ?_⟩
  obtain ⟨args, ha⟩ := verifyBodies_ok hm body hb
  exact bodyVerified_of_verifyFunction ha

end Lama

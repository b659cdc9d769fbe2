import PlvmHomeworks.Lib.Dataflow
import PlvmHomeworks.Tools.ControlFlow
import Mathlib.Data.List.Nodup

/-! Joins: the depths that the paths through a body bring to an instruction, and the one depth with
    which `verify_function` looks at it. -/

namespace Lama
open Outcome Worklist Dataflow

/-- `SuccessorsFunctor` leads from `u` to `v` inside the body, and `StackDepthFunctor` turns the
    depth before `u` into `depth` of it. -/
def DepthEdge (f : Bytefile) (b size u : ℤ) (depth : ℤ → ℤ) (v : ℤ) : Prop :=
  ∃ inst next, readInst f u = .ok (inst, next) ∧ v ∈ inBody b size (successorsFunctor next inst) ∧
    depth = fun locals => depthAfter locals inst

/-- A path from the first instruction of the body to `u` accumulates the depth `d`. -/
def Accumulates (f : Bytefile) (b size u d : ℤ) : Prop := Brings (DepthEdge f b size) b 0 u d

/-- The search dequeued `u` once, with the depth `d`. -/
def DequeuedWith (r : Result ℤ StackLayout (List ℤ)) (u d : ℤ) : Prop :=
  ∃ layout, (u, layout) ∈ r.log ∧ layout.locals = d ∧ ∀ layout', (u, layout') ∈ r.log → layout' = layout

/-- The instructions of the body can be labelled with depths, 0 at the first, that each edge between
    reachable instructions respects. -/
def HasDepths (f : Bytefile) (b size : ℤ) : Prop :=
  ∃ label : ℤ → ℤ, Solves (DepthEdge f b size) b 0 label

variable {f : Bytefile} {b captured size : ℤ} {r : Result ℤ StackLayout (List ℤ)}

/-- The search dequeues no instruction twice. -/
theorem BodyVerified.dequeued_once (h : BodyVerified f b captured size r) {u : ℤ}
    {layout layout' : StackLayout} (hu : (u, layout) ∈ r.log) (hu' : (u, layout') ∈ r.log) :
    layout' = layout := by
  have hnodup := (h.searched.log_nodup (by simp) (by simp)).1
  have := List.inj_on_of_nodup_map hnodup hu' hu rfl
  exact congrArg Prod.snd this

/-- The depth with which an instruction is dequeued is that of some path. -/
theorem BodyVerified.log_accumulates (h : BodyVerified f b captured size r) :
    ∀ e ∈ r.log, Accumulates f b size e.1 e.2.locals := by
  refine h.searched.payload_inv (P := fun u layout => Accumulates f b size u layout.locals) ?_ ?_
  · intro jumps u layout jumps' layout' ss hP hv s hs
    obtain ⟨inst, next, hi, hd, -, rfl⟩ := visitFunction_ok hv
    rw [(stackDepthFunctor_ok hd).2.2.1]
    exact hP.step ⟨inst, next, hi, hs, rfl⟩
  · intro e he
    rw [List.mem_singleton.mp he]
    exact .start

/-- An instruction that a path reaches is dequeued. -/
theorem BodyVerified.dequeued_of_accumulates (h : BodyVerified f b captured size r) {u d : ℤ}
    (hu : Accumulates f b size u d) : ∃ layout, (u, layout) ∈ r.log := by
  induction hu with
  | start => exact ⟨_, h.begin_logged⟩
  | @step u v d depth _ he ih =>
    obtain ⟨layout, hlog⟩ := ih
    obtain ⟨inst, next, hi, hv, -⟩ := he
    obtain ⟨inst', next', jumps, jumps', layout', hi', -, -, hsucc, -⟩ := h.logged hlog
    rw [hi, Except.ok.injEq, Prod.mk.injEq] at hi'
    obtain ⟨rfl, rfl⟩ := hi'
    obtain ⟨hmem, hin⟩ := List.mem_filter.mp hv
    have hin := of_decide_eq_true hin
    exact h.logged_of_visited (hsucc v hmem hin.1 hin.2)

/-- Paths agree with the search if and only if they agree with each other. -/
theorem BodyVerified.dequeuedWith_iff (h : BodyVerified f b captured size r) :
    (∀ u d, Accumulates f b size u d → DequeuedWith r u d) ↔
      ∀ u d d', Accumulates f b size u d → Accumulates f b size u d' → d = d' := by
  constructor
  · intro hall u d d' hd hd'
    obtain ⟨layout, hlog, hlocals, -⟩ := hall u d hd
    obtain ⟨layout', hlog', hlocals', -⟩ := hall u d' hd'
    rw [← hlocals, ← hlocals', h.dequeued_once hlog hlog']
  · intro hall u d hd
    obtain ⟨layout, hlog⟩ := h.dequeued_of_accumulates hd
    exact ⟨layout, hlog, hall u _ _ (h.log_accumulates _ hlog) hd, fun _ => h.dequeued_once hlog⟩

/-- In a body that `verify_function` accepts, every path from its first instruction to an instruction
    accumulates the depth with which the search dequeued that instruction, if and only if the
    instructions can be labelled with depths that every edge respects. -/
theorem depths_join {fuel : ℕ} {f : Bytefile} {b captured args size : ℤ}
    {r : Result ℤ StackLayout (List ℤ)} (h : verifyFunction fuel f b captured = .ok args)
    (hs : searchFunction fuel f b captured = .ok (size, r)) :
    (∀ u d, Accumulates f b size u d → DequeuedWith r u d) ↔ HasDepths f b size := by
  obtain ⟨size', r', hs', hbody⟩ := bodyVerified_of_verifyFunction h
  rw [hs, Except.ok.injEq, Prod.mk.injEq] at hs'
  obtain ⟨rfl, rfl⟩ := hs'
  exact hbody.dequeuedWith_iff.trans agree_iff_solves

/-- The depth that the list gives for an address. -/
def listedDepth (depths : List (ℤ × ℤ)) (u : ℤ) : ℤ := (depths.lookup u).getD 0

/-- A list of instructions with their depths that every edge respects. -/
theorem hasDepths_of_listed {depths : List (ℤ × ℤ)} (hbegin : b ∈ depths.map Prod.fst)
    (hzero : listedDepth depths b = 0) (hall : ∀ u ∈ depths.map Prod.fst, ∀ r ∈ (readInst f u).toOption,
      ∀ v ∈ inBody b size (successorsFunctor r.2 r.1), v ∈ depths.map Prod.fst ∧
        listedDepth depths v = depthAfter (listedDepth depths u) r.1) : HasDepths f b size := by
  refine ⟨listedDepth depths, solves_of_closed (S := {u | u ∈ depths.map Prod.fst}) hbegin hzero ?_⟩
  rintro u v _ hu ⟨inst, next, hi, hv, rfl⟩
  exact hall u hu (inst, next) (by rw [hi]; rfl) v hv

/-- The instructions of `countDown`, each with the depth that the verifier counts. -/
def countDownCounts : List (ℤ × ℤ) :=
  [(0, 0), (9, 1), (14, 2), (19, 2), (20, 1), (25, 2), (30, 1), (35, 2), (40, 3), (41, 2), (46, 2), (47, 1),
    (52, 1), (57, 2)]

theorem depths_join_countDown :
    ∃ size r, searchFunction 60 (program 0 countDown) 0 (-1) = .ok (size, r) ∧
      ∀ u d, Accumulates (program 0 countDown) 0 size u d → DequeuedWith r u d := by
  have hs : (searchFunction 60 (program 0 countDown) 0 (-1)).map Prod.fst = .ok 58 := by
    decide +kernel
  have h : verifyFunction 60 (program 0 countDown) 0 (-1) = .ok 0 := by decide +kernel
  have hdepths : HasDepths (program 0 countDown) 0 58 :=
    @hasDepths_of_listed _ _ _ countDownCounts (by decide) (by decide) (by decide +kernel)
  obtain ⟨⟨size, r⟩, hs, hsize⟩ := exists_of_map_eq_ok hs
  obtain rfl : size = 58 := hsize
  exact ⟨58, r, hs, (depths_join h hs).mpr hdepths⟩

/-- `BEGIN 0 0; CONST 1; CONST 1; CJMPz 25; DROP; DROP; CONST 1; END`. -/
def jumpOverDrop : List UInt8 :=
  82 :: intBytes 0 ++ intBytes 0 ++ 16 :: intBytes 1 ++ 16 :: intBytes 1 ++ 80 :: intBytes 25 ++
    24 :: 24 :: 16 :: intBytes 1 ++ [22]

/-- Two paths meet at 25, with depths 0 and 1; the body is accepted. -/
theorem jumpOverDrop_meets :
    ∃ size r, verifyFunction 40 (program 0 jumpOverDrop) 0 (-1) = .ok 0 ∧
      searchFunction 40 (program 0 jumpOverDrop) 0 (-1) = .ok (size, r) ∧
      Accumulates (program 0 jumpOverDrop) 0 size 25 0 ∧
      Accumulates (program 0 jumpOverDrop) 0 size 25 1 ∧ ¬ DequeuedWith r 25 0 := by
  have hs : (searchFunction 40 (program 0 jumpOverDrop) 0 (-1)).map (fun q => (q.1,
      q.2.log.map fun e => (e.1, e.2.locals))) =
      .ok (32, [(0, 0), (9, 0), (14, 1), (19, 2), (24, 1), (25, 1), (26, 0), (31, 1)]) := by
    decide +kernel
  obtain ⟨⟨size, r⟩, hs, hobs⟩ := exists_of_map_eq_ok hs
  rw [Prod.mk.injEq] at hobs
  obtain ⟨rfl, hlog⟩ := hobs
  -- the edges on the way to 25
  have edge : ∀ {u v d : ℤ} (inst : Inst) (next : ℤ), Accumulates (program 0 jumpOverDrop) 0 32 u d →
      readInst (program 0 jumpOverDrop) u = .ok (inst, next) →
      v ∈ inBody 0 32 (successorsFunctor next inst) →
      Accumulates (program 0 jumpOverDrop) 0 32 v (depthAfter d inst) :=
    fun inst next h hi hv => h.step ⟨inst, next, hi, hv, rfl⟩
  have h9 : Accumulates (program 0 jumpOverDrop) 0 32 9 0 :=
    edge (.begin 0 0) 9 .start (by decide +kernel) (by decide)
  have h14 : Accumulates (program 0 jumpOverDrop) 0 32 14 1 :=
    edge (.const 1) 14 h9 (by decide +kernel) (by decide)
  have h19 : Accumulates (program 0 jumpOverDrop) 0 32 19 2 :=
    edge (.const 1) 19 h14 (by decide +kernel) (by decide)
  have h24 : Accumulates (program 0 jumpOverDrop) 0 32 24 1 :=
    edge (.cjmpz 25) 24 h19 (by decide +kernel) (by decide)
  refine ⟨32, r, by decide +kernel, hs, ?_, ?_, ?_⟩
  · exact edge .drop 25 h24 (by decide +kernel) (by decide)
  · exact edge (.cjmpz 25) 24 h19 (by decide +kernel) (by decide)
  · rintro ⟨layout, hmem, hlocals, -⟩
    have : ((25 : ℤ), layout.locals) ∈ r.log.map fun e => (e.1, e.2.locals) :=
      List.mem_map.mpr ⟨_, hmem, rfl⟩
    rw [hlog, hlocals] at this
    exact absurd this (by decide)

end Lama

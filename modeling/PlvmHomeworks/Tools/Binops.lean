import Mathlib.Data.BitVec
import PlvmHomeworks.Runtime.Layout
import PlvmHomeworks.Tools.Frames

/-! The binary operators: what they compute, and on which operands.

    Operands are 31-bit values in `int`s. Only a product can leave the range of `int`, and only a
    zero divisor has no value; every other result is exact, and `BOX` wraps it into 31 bits. -/

namespace Lama
open Outcome Runs

/-- The exact value of `lhv op rhv`; division by zero has none. -/
def Binop.exact (op : Binop) (lhv rhv : ℤ) : Option ℤ :=
  match op with
  | .add => some (lhv + rhv)
  | .sub => some (lhv - rhv)
  | .mul => some (lhv * rhv)
  | .div => if rhv = 0 then none else some (lhv.tdiv rhv)
  | .rem => if rhv = 0 then none else some (lhv.tmod rhv)
  | .lessThan => some (if lhv < rhv then 1 else 0)
  | .lessEqual => some (if lhv ≤ rhv then 1 else 0)
  | .greaterThan => some (if lhv > rhv then 1 else 0)
  | .greaterEqual => some (if lhv ≥ rhv then 1 else 0)
  | .equal => some (if lhv = rhv then 1 else 0)
  | .notEqual => some (if lhv ≠ rhv then 1 else 0)
  | .and => some (if lhv ≠ 0 ∧ rhv ≠ 0 then 1 else 0)
  | .or => some (if lhv ≠ 0 ∨ rhv ≠ 0 then 1 else 0)

/-- A value wrapped into the signed 31-bit range. -/
def wrap31 (n : ℤ) : ℤ := n.bmod (2 ^ 31)

/-- In state `s` the operator fails with a report, or the exact value of `l op r` fits an `int` and
    the operands make way for an unboxed word that holds this value wrapped. -/
def BinopExact (im : Image) (e : Env) (f : Bytefile) (s : State) (op : Binop) (l r : Word) : Prop :=
  Reported (exec im e f s (.binop op)) ∨
    ∃ v w, op.exact (unbox l).toInt (unbox r).toInt = some v ∧ IsInt v ∧ unboxed w = true ∧
      (unbox w).toInt = wrap31 v ∧
      exec im e f s (.binop op) = .ok ((s.drop 2).push w, none)

/-- The divisor is not zero, and a product fits an `int`. -/
def Binop.Fits (op : Binop) (lhv rhv : ℤ) : Prop :=
  ((op = .div ∨ op = .rem) → rhv ≠ 0) ∧ (op = .mul → IsInt (lhv * rhv))

variable {im : Image} {e : Env} {f : Bytefile} {s : State} {op : Binop} {lhv rhv v : ℤ}

theorem Binop.exact_eq_none_iff : op.exact lhv rhv = none ↔ (op = .div ∨ op = .rem) ∧ rhv = 0 := by
  cases op <;> simp [Binop.exact]

/-- Nothing but the processor's own trap stops an operator. -/
theorem binop_error {stop : Stop} (h : binop op lhv rhv = .error stop) :
    stop = .undefined "SIGFPE" := by
  cases op with
  | div | rem =>
    simp only [binop] at h
    split at h <;> cases h
    rfl
  | _ => cases h

/-- What `int` arithmetic computes is the exact value reduced to an `int`. -/
theorem binop_of_exact (h : op.exact lhv rhv = some v) : binop op lhv rhv = .ok (toInt32 v) := by
  have truth : ∀ c : Prop, ∀ [Decidable c], (if c then (1 : ℤ) else 0) = toInt32 (if c then 1 else 0) := by
    intro c _
    split <;> rfl
  cases op with
  | add | sub | mul => cases h; rfl
  | div | rem =>
    simp only [Binop.exact, Option.ite_none_left_eq_some, Option.some.injEq] at h
    obtain ⟨hr, rfl⟩ := h
    rw [binop, if_neg hr]
  | lessThan | lessEqual | greaterThan | greaterEqual | equal | notEqual | and | or =>
    cases h
    exact congrArg Except.ok (truth _)

/-- With 31-bit operands only a product can leave the range. -/
theorem Binop.exact_isInt (hl : -2 ^ 30 ≤ lhv ∧ lhv < 2 ^ 30) (hr : -2 ^ 30 ≤ rhv ∧ rhv < 2 ^ 30)
    (hop : op ≠ .mul) (h : op.exact lhv rhv = some v) : IsInt v := by
  have truth : ∀ c : Prop, ∀ [Decidable c], IsInt (if c then 1 else 0) := by
    intro c _
    split <;> exact ⟨by decide, by decide⟩
  cases op with
  | mul => exact absurd rfl hop
  | add | sub =>
    cases h
    unfold IsInt
    omega
  | div =>
    simp only [Binop.exact, Option.ite_none_left_eq_some, Option.some.injEq] at h
    obtain ⟨-, rfl⟩ := h
    have := Int.natAbs_tdiv_le_natAbs lhv rhv
    unfold IsInt
    omega
  | rem =>
    simp only [Binop.exact, Option.ite_none_left_eq_some, Option.some.injEq] at h
    obtain ⟨-, rfl⟩ := h
    have hle : (lhv.tmod rhv).natAbs ≤ lhv.natAbs := by
      rw [Int.natAbs_tmod]
      exact Nat.mod_le _ _
    unfold IsInt
    omega
  | lessThan | lessEqual | greaterThan | greaterEqual | equal | notEqual | and | or =>
    cases h
    exact truth _

/-- The operator on a stack that holds both operands. -/
theorem exec_binop (hlo : im.vstack ≤ s.top + 1) (hhi : s.top + 2 < im.bottom) :
    exec im e f s (.binop op) =
      (binop op (unbox (s.mem.ram (s.top + 2))).toInt (unbox (s.mem.ram (s.top + 1))).toInt).map
        fun res => ((s.drop 2).push (box (BitVec.ofInt 32 res)), none) := by
  simp only [exec, allocRequest, execPlain, ok_bind]
  rw [vstackPop_of hlo (by omega), ok_bind, vstackPop_of (by simp only [State.drop_top]; omega)
    (by simp only [State.drop_top]; omega), ok_bind]
  cases hres : binop op (unbox (s.mem.ram (s.top + 2))).toInt (unbox (s.mem.ram (s.top + 1))).toInt
  · simp only [State.drop_mem, State.drop_top, hres, error_bind]
    rfl
  · simp only [State.drop_mem, State.drop_top, hres, ok_bind, State.drop_drop]
    rw [vstackPush_of (by simp only [State.drop_top]; omega) (by simp only [State.drop_top]; omega)]
    rfl

/-- The word pushed for an exact value that fits an `int` holds it wrapped. -/
theorem unbox_boxed (hv : IsInt v) :
    (unbox (box (BitVec.ofInt 32 (toInt32 v)))).toInt = wrap31 v := by
  rw [unbox_box, toInt32_of_isInt hv, BitVec.toInt_ofInt, ← toInt32, toInt32_of_isInt hv, wrap31]

/-- For every operator and every pair of unboxed operands, the operator is exact if and only if the
    divisor is not zero and the product fits. -/
theorem binop_exact_iff (e : Env) (f : Bytefile) (op : Binop)
    (hlo : im.vstack ≤ s.top + 1) (hhi : s.top + 2 < im.bottom) {l r : Word}
    (hl : s.mem.ram (s.top + 2) = l) (hr : s.mem.ram (s.top + 1) = r)
    (_ : unboxed l = true) (_ : unboxed r = true) :
    BinopExact im e f s op l r ↔ op.Fits (unbox l).toInt (unbox r).toInt := by
  have hexec := @exec_binop im e f s op hlo hhi
  rw [hl, hr] at hexec
  constructor
  · rintro (⟨text, args, h⟩ | ⟨v, w, hv, hint, -, -, -⟩)
    · -- the only stop is not a reported one
      rw [hexec] at h
      cases hres : binop op (unbox l).toInt (unbox r).toInt with
      | error stop =>
        rw [hres, binop_error hres] at h
        cases h
      | ok res =>
        rw [hres] at h
        cases h
    · refine ⟨fun hop hz => ?_, fun hop => ?_⟩
      · rw [Binop.exact_eq_none_iff.mpr ⟨hop, hz⟩] at hv
        cases hv
      · subst hop
        cases hv
        exact hint
  · rintro ⟨hdiv, hmul⟩
    cases hv : op.exact (unbox l).toInt (unbox r).toInt with
    | none =>
      obtain ⟨hop, hz⟩ := Binop.exact_eq_none_iff.mp hv
      exact absurd hz (hdiv hop)
    | some v =>
      have hint : IsInt v := by
        by_cases hop : op = .mul
        · subst hop
          cases hv
          exact hmul rfl
        · exact Binop.exact_isInt (unbox_range l) (unbox_range r) hop hv
      refine Or.inr ⟨v, _, hv, hint, unboxed_box _, unbox_boxed hint, ?_⟩
      rw [hexec, binop_of_exact hv]
      rfl

/-- The words of a stack whose two operands are `l` and `r`. -/
def twoOperands (l r : Word) : State :=
  { ip := some 0, top := 60000, globalsCount := 0, cstack := fun _ => ⟨none, false, 0, 0, 0⟩
    ctop := cstackSize - 1
    mem :=
      { ram := fun a => if a = 60001 then r else l
        heap := { begin := sampleHeap, end_ := sampleHeap, current := sampleHeap, size := 0
                  words := fun _ => 0 } }
    out := [] }

/-- The quotient of the extreme values is `2^30`, which wraps to `-2^30`. -/
theorem binop_exact_iff_extremeQuotient :
    BinopExact sampleImage sampleEnv (program 0 []) (twoOperands (box (-2 ^ 30)) (box (-1))) .div
      (box (-2 ^ 30)) (box (-1)) :=
  (@binop_exact_iff sampleImage (twoOperands (box (-2 ^ 30)) (box (-1))) sampleEnv (program 0 [])
    .div (by decide) (by decide) _ _ rfl rfl rfl rfl).mpr ⟨fun _ => by decide, fun h => by cases h⟩

/-- `BEGIN 0 0; CONST 1; CONST 0; BINOP /; END`. -/
def divideByZero : List UInt8 :=
  82 :: intBytes 0 ++ intBytes 0 ++ 16 :: intBytes 1 ++ 16 :: intBytes 0 ++ [4, 22]

/-- An accepted program reaches a division whose divisor is zero: the interpreter does not report it,
    and has no result. -/
theorem divideByZero_traps :
    ∃ t t', loadProgram 30 (fun _ _ => 0) (programBytes 0 divideByZero) =
        .ok (program 0 divideByZero, 0) ∧
      t.Starts sampleImage (program 0 divideByZero) 0 ∧
      Reach (Tracked.Step sampleImage (program 0 divideByZero)) (fun _ => True) t t' ∧
      t'.Executes (program 0 divideByZero) (.binop .div) 20 ∧
      t'.state.mem.ram (t'.state.top + 2) = box 1 ∧ t'.state.mem.ram (t'.state.top + 1) = box 0 ∧
      ¬ BinopExact sampleImage sampleEnv (program 0 divideByZero) t'.state .div (box 1) (box 0) := by
  have hrun : (Tracked.runFrom sampleImage (program 0 divideByZero) (fun _ => true) sampleHeap 0
      [sampleEnv, sampleEnv, sampleEnv]).map
      (fun t => (t.fetch (program 0 divideByZero), t.state.mem.ram (t.state.top + 2),
        t.state.mem.ram (t.state.top + 1),
        decide (sampleImage.vstack ≤ t.state.top + 1 ∧ t.state.top + 2 < sampleImage.bottom))) =
        .ok (some (.binop .div, 20), box 1, box 0, true) := by decide +kernel
  obtain ⟨t, t', ht, hreach, hobs⟩ := Tracked.exists_reach (fun _ _ => trivial) hrun
  simp only [Prod.mk.injEq, decide_eq_true_eq] at hobs
  obtain ⟨hfetch, hl, hr, hlo, hhi⟩ := hobs
  refine ⟨t, t', by decide +kernel, ht, hreach, Tracked.executes_iff.mpr hfetch, hl, hr, ?_⟩
  rintro (⟨text, args, h⟩ | ⟨v, w, hv, -⟩)
  · rw [exec_binop hlo hhi, hl, hr] at h
    cases h
  · cases hv

end Lama

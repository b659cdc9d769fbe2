import PlvmHomeworks.Tools.Accepted
import PlvmHomeworks.Tools.CodeOnly
import Mathlib

/-! When the verifier stays inside its buffers.

    The addresses it follows come from the bytes of the file: public offsets, jump, call and closure
    targets, and the end of each instruction. The decoder checks an address before it reads; the
    bitmap of the search, the scans for `END` and the look at a callee's opcode do not. -/

namespace Lama
open Outcome Worklist Relation

/-! ### The scans -/

/-- A scan goes on from `a` to `b`: no `END` at `a`, no prologue at `b`. -/
def ScanStep (f : Bytefile) (a b : ℤ) : Prop :=
  LinearStep f a b ∧ ∀ y, rawByte f b = .ok y → ¬ (y = opcodeBegin ∨ y = opcodeCBegin)

/-- Every instruction that a scan from `begin` passes is followed by another byte of code. -/
def ScanContained (f : Bytefile) (begin : ℤ) : Prop :=
  ∀ a b, ReflTransGen (ScanStep f) begin a → LinearStep f a b → CodeIndex f b

theorem scanContained_of_end {f : Bytefile} {ip : ℤ} (h : rawByte f ip = .ok opcodeEnd) :
    ScanContained f ip := by
  intro a b ha hab
  rcases ReflTransGen.cases_head ha with rfl | ⟨c, hc, -⟩
  · exact absurd hab (Scan.not_linearStep h)
  · exact absurd hc.1 (Scan.not_linearStep h)

/-- A scan stays inside when its first instruction ends inside and the rest of the scan does. -/
theorem scanContained_step {f : Bytefile} {ip next : ℤ} (h : LinearStep f ip next) :
    ScanContained f ip ↔ CodeIndex f next ∧ (ScanStep f ip next → ScanContained f next) := by
  constructor
  · intro hc
    exact ⟨hc ip next .refl h, fun hs a b ha hab => hc a b (.head hs ha) hab⟩
  · rintro ⟨hnext, hrest⟩ a b ha hab
    rcases ReflTransGen.cases_head ha with rfl | ⟨c, hc, hca⟩
    · rwa [← h.unique hab]
    · obtain rfl := h.unique hc.1
      exact hrest hc a b hca hab

theorem linearStep_of_readInst {f : Bytefile} {ip next : ℤ} {inst : Inst} {x : ℕ}
    (hi : readInst f ip = .ok (inst, next)) (hx : rawByte f ip = .ok x) (hend : x ≠ opcodeEnd) :
    LinearStep f ip next :=
  ⟨inst, hi, fun h => hend ((readInst_end_iff hi hx).mp h)⟩

section
variable {f : Bytefile} (hf : CodePlaced f)
include hf

/-- There is a byte at every code index. -/
theorem rawByte_of_codeIndex {o : ℤ} (ho : CodeIndex f o) :
    ∃ x, rawByte f o = .ok x ∧ rawByte f.codeOnly o = .ok x := by
  obtain ⟨b, h1, h2⟩ := codeByte_of_codeIndex hf ho
  exact ⟨b.toNat, by simp [rawByte, h1, orStop], by simp [rawByte, h2, orStop]⟩

/-- The scan of the cut file finds a byte wherever it looks just when the scan stays inside. -/
theorem scanFunction_errorsIn (begin : ℤ) : ∀ {fuel : ℕ} {ip : ℤ} (size : ℤ), CodeIndex f ip →
    getCodeSize f - ip ≤ fuel →
    (ErrorsIn Stop.IsFail (scanFunction f.codeOnly begin fuel ip size) ↔ ScanContained f ip)
  | 0, ip, _, hip, hfuel => by
    unfold CodeIndex at hip
    simp at hfuel
    omega
  | fuel + 1, ip, size, hip, hfuel => by
    obtain ⟨x, hx, hx'⟩ := rawByte_of_codeIndex hf hip
    rw [scanFunction, hx', ok_bind, readInst_codeOnly hf]
    by_cases hend : x = opcodeEnd
    · rw [if_pos hend]
      exact iff_of_true errorsIn_ok (scanContained_of_end (hend ▸ hx))
    rw [if_neg hend]
    cases hi : readInst f ip with
    | error e =>
      refine iff_of_true (fun e' he => ?_) (fun a b ha hab => ?_)
      · rw [error_bind] at he
        cases he
        exact readInst_errorsIn hf ip e hi
      · rcases ReflTransGen.cases_head ha with rfl | ⟨c, ⟨⟨inst, hc, -⟩, -⟩, -⟩
        · obtain ⟨inst, hab, -⟩ := hab
          rw [hi] at hab; cases hab
        · rw [hi] at hc; cases hc
    | ok r =>
      obtain ⟨inst, next⟩ := r
      have hstep := linearStep_of_readInst hi hx hend
      have hlt := (readInst_lt hi).2.1
      rw [ok_bind, scanContained_step hstep, errorsIn_bind, rawByte_errorsIn_iff hf]
      refine and_congr_right fun hnext => ?_
      obtain ⟨y, hy, hy'⟩ := rawByte_of_codeIndex hf hnext
      have ih := @scanFunction_errorsIn begin fuel _ (next - begin + 1) hnext
        (by push_cast at hfuel; omega)
      constructor
      · intro h hs
        have := h y hy'
        rw [errorsIn_bind] at this
        exact ih.mp (this.2 () (ensure_eq_ok.mpr (hs.2 y hy)))
      · intro h y' hy''
        rw [hy', Except.ok.injEq] at hy''
        subst hy''
        refine errorsIn_bind.mpr ⟨errorsIn_ensure.mpr fun _ => trivial, fun u hu => ?_⟩
        rw [ensure_eq_ok] at hu
        refine ih.mpr (h ⟨hstep, fun z hz => ?_⟩)
        rw [hy, Except.ok.injEq] at hz
        exact hz ▸ hu

/-- A scan that stays inside does the same on the file and on its code. -/
theorem scanFunction_codeOnly (begin : ℤ) : ∀ {fuel : ℕ} {ip : ℤ} (size : ℤ), CodeIndex f ip →
    ScanContained f ip → scanFunction f.codeOnly begin fuel ip size = scanFunction f begin fuel ip size
  | 0, _, _, _, _ => rfl
  | fuel + 1, ip, size, hip, hc => by
    obtain ⟨x, hx, hx'⟩ := rawByte_of_codeIndex hf hip
    rw [scanFunction, scanFunction, hx, hx', ok_bind, ok_bind, readInst_codeOnly hf]
    by_cases hend : x = opcodeEnd
    · rw [if_pos hend, if_pos hend]
    rw [if_neg hend, if_neg hend]
    cases hi : readInst f ip with
    | error e => rw [error_bind, error_bind]
    | ok r =>
      obtain ⟨inst, next⟩ := r
      have hstep := linearStep_of_readInst hi hx hend
      obtain ⟨hnext, hrest⟩ := (scanContained_step hstep).mp hc
      obtain ⟨y, hy, hy'⟩ := rawByte_of_codeIndex hf hnext
      simp only [ok_bind, hy, hy']
      by_cases hp : ¬ (y = opcodeBegin ∨ y = opcodeCBegin)
      · rw [scanFunction_codeOnly begin _ hnext (hrest ⟨hstep, fun z hz => ?_⟩)]
        rw [hy, Except.ok.injEq] at hz
        exact hz ▸ hp
      · simp only [ensure, if_neg hp, error_bind]

end

/-! ### The search of a body -/

theorem stackDepthFunctor_errorsIn (jumps : List ℤ) (layout : StackLayout) (inst : Inst) :
    ErrorsIn Stop.IsFail (stackDepthFunctor jumps layout inst) := by
  have one : ∀ (layout : StackLayout) (l : LocationEntry),
      ErrorsIn Stop.IsFail (loadLocation layout l) := by
    intro layout l
    unfold loadLocation
    split <;> simp [errorsIn_bind, errorsIn_ensure, Stop.IsFail]
  have all : ∀ (ls : List LocationEntry) (layout : StackLayout),
      ErrorsIn Stop.IsFail (loadLocations layout ls) := by
    intro ls
    induction ls with
    | nil => exact fun _ => errorsIn_ok
    | cons l ls ih => exact fun layout => errorsIn_bind.mpr ⟨one layout l, fun _ _ => ih _⟩
  exact errorsIn_bind.mpr ⟨all _ _, fun _ _ => errorsIn_ok⟩

theorem checkJumps_errorsIn (begin size : ℤ) : ∀ jumps : List ℤ,
    ErrorsIn Stop.IsFail (checkJumps begin size jumps)
  | [] => errorsIn_ok
  | _ :: jumps => errorsIn_bind.mpr
      ⟨errorsIn_ensure.mpr fun _ => trivial, fun _ _ => checkJumps_errorsIn begin size jumps⟩

theorem mem_inBody {begin size s : ℤ} {ss : List ℤ} (h : s ∈ inBody begin size ss) :
    s ∈ Finset.Ico begin (begin + size) := by
  have := (List.mem_filter.mp h).2
  rw [decide_eq_true_eq] at this
  exact Finset.mem_Ico.mpr this

theorem visitFunction_successors {f : Bytefile} {begin size ip : ℤ} {jumps jumps' ss : List ℤ}
    {layout layout' : StackLayout}
    (h : visitFunction f begin size jumps ip layout = .ok (jumps', layout', ss)) :
    ∀ s ∈ ss, s ∈ Finset.Ico begin (begin + size) := by
  obtain ⟨inst, next, -, -, -, rfl⟩ := visitFunction_ok h
  exact fun s hs => mem_inBody hs

/-- Fuel for the queue and the bitmap of a body. -/
theorem body_measure {begin size : ℤ} {fuel : ℕ} (h1 : 1 ≤ fuel) (h : size + 1 ≤ fuel) :
    1 + (Finset.Ico begin (begin + size) \ [begin].toFinset).card ≤ fuel := by
  have hcard : (Finset.Ico begin (begin + size)).card = size.toNat := by
    rw [Int.card_Ico]
    congr 1
    omega
  have := Finset.card_le_card (Finset.sdiff_subset (s := Finset.Ico begin (begin + size))
    (t := [begin].toFinset))
  omega

section
variable {f : Bytefile} (hf : CodePlaced f)
include hf

theorem visitFunction_codeOnly (begin size : ℤ) :
    visitFunction f.codeOnly begin size = visitFunction f begin size := by
  funext jumps ip layout
  simp only [visitFunction, readInst_codeOnly hf]

theorem visitFunction_errorsIn (begin size : ℤ) (jumps : List ℤ) (ip : ℤ) (layout : StackLayout) :
    ErrorsIn Stop.IsFail (visitFunction f begin size jumps ip layout) :=
  errorsIn_bind.mpr ⟨readInst_errorsIn hf ip, fun _ _ => errorsIn_bind.mpr
    ⟨stackDepthFunctor_errorsIn _ _ _, fun _ _ => errorsIn_bind.mpr
      ⟨errorsIn_ensure.mpr fun _ => trivial, fun _ _ => errorsIn_ok⟩⟩⟩

/-- The size of a scanned body, with the byte of its `END`. -/
theorem Scan.size_le {begin e size : ℤ} (hbegin : CodeIndex f begin) (h : Scan f begin e)
    (hsize : e = begin ∧ size = 2 ∨ size = e - begin + 1) : size ≤ getCodeSize f + 1 := by
  have hend : InCode f e := by
    have hlast : ∀ {a e : ℤ}, Scan f a e → InCode f a → InCode f e := by
      intro a e h
      induction h with
      | done => exact id
      | step _ _ hi _ _ _ ih => exact fun _ => ih (readInst_lt hi).2.2
    refine hlast h ?_
    have hsz := hf.size
    have hcode := hf.code
    unfold CodeIndex at hbegin
    simp only [InCode, sizeofBytefile]
    omega
  have hsz := hf.size
  have hcode := hf.code
  unfold CodeIndex at hbegin
  simp only [InCode, sizeofBytefile] at hend
  omega

/-- `verify_function` stays inside the code when its scan does. -/
theorem verifyFunction_errorsIn {fuel : ℕ} {begin : ℤ} (captured : ℤ) (hbegin : CodeIndex f begin)
    (hfuel : getCodeSize f + 2 ≤ fuel) :
    ErrorsIn Stop.IsFail (verifyFunction fuel f.codeOnly begin captured) ↔ ScanContained f begin := by
  have hscan := @scanFunction_errorsIn _ hf begin fuel _ 2 hbegin
    (by unfold CodeIndex at hbegin; omega)
  rw [verifyFunction, searchFunction, errorsIn_bind, errorsIn_bind, hscan]
  refine ⟨fun h => h.1.1, fun h => ⟨⟨h, fun size hsize => ?_⟩, fun r _ => ?_⟩⟩
  · rw [scanFunction_codeOnly hf begin 2 hbegin h] at hsize
    obtain ⟨e, he, hes⟩ := scan_of_scanFunction hsize
    have hle := he.size_le hf hbegin hes
    rw [visitFunction_codeOnly hf]
    refine errorsIn_bind.mpr ⟨(search_errorsIn (U := Finset.Ico begin (begin + size))
      (fun _ _ _ _ _ _ => visitFunction_successors) (body_measure (by have := hf.code_nonneg; omega)
          (by omega))).mpr
        fun s u p _ => visitFunction_errorsIn hf begin size s u p, fun _ _ => errorsIn_ok⟩
  · exact errorsIn_bind.mpr ⟨checkJumps_errorsIn _ _ _, fun _ _ => errorsIn_ok⟩

theorem verifyFunction_codeOnly {fuel : ℕ} {begin : ℤ} (captured : ℤ) (hbegin : CodeIndex f begin)
    (h : ScanContained f begin) :
    verifyFunction fuel f.codeOnly begin captured = verifyFunction fuel f begin captured := by
  have hlayout : ∀ c b, initialLayout f.codeOnly c b = initialLayout f c b := fun _ _ => rfl
  simp only [verifyFunction, searchFunction, scanFunction_codeOnly hf begin 2 hbegin h,
    visitFunction_codeOnly hf, hlayout]

end

/-! ### The search of the file -/

/-- The address at which `PushCallOffset` looks. -/
def Inst.entered : Inst → Option ℤ
  | .call _ offset _ => some offset
  | .closure offset _ => some offset
  | _ => none

/-- `PushCallOffset` lets the instruction pass. -/
def Passes (f : Bytefile) (inst : Inst) : Prop := ∃ bodies, pushCallOffset f ⟨[], []⟩ inst = .ok bodies

/-- The search turns at `ip` to code only: the callee's opcode, and if that is right the addresses
    that follow the instruction. -/
def TurnContained (f : Bytefile) (ip : ℤ) : Prop :=
  ∀ inst next, readInst f ip = .ok (inst, next) →
    (∀ o, inst.entered = some o → CodeIndex f o) ∧
      (Passes f inst → ∀ s ∈ successorsFunctor next inst, CodeIndex f s)

/-- Which bodies were pushed before does not matter to `PushCallOffset`. -/
theorem passes_of_pushCallOffset {f : Bytefile} {bodies bodies' : Bodies} {inst : Inst}
    (h : pushCallOffset f bodies inst = .ok bodies') : Passes f inst := by
  cases inst
  case call r o a =>
    obtain ⟨b, hb, h⟩ := bind_eq_ok.mp h
    obtain ⟨u, hu, -⟩ := bind_eq_ok.mp h
    exact ⟨_, bind_eq_ok.mpr ⟨b, hb, bind_eq_ok.mpr ⟨u, hu, rfl⟩⟩⟩
  case closure o c =>
    obtain ⟨b, hb, h⟩ := bind_eq_ok.mp h
    obtain ⟨u, hu, -⟩ := bind_eq_ok.mp h
    exact ⟨_, bind_eq_ok.mpr ⟨b, hb, bind_eq_ok.mpr ⟨u, hu, rfl⟩⟩⟩
  all_goals exact ⟨_, rfl⟩

theorem pushCallOffset_of_passes {f : Bytefile} {inst : Inst} (bodies : Bodies) (h : Passes f inst) :
    ∃ bodies', pushCallOffset f bodies inst = .ok bodies' := by
  obtain ⟨bodies₀, h⟩ := h
  cases inst
  case call r o a =>
    obtain ⟨b, hb, h⟩ := bind_eq_ok.mp h
    obtain ⟨u, hu, -⟩ := bind_eq_ok.mp h
    exact ⟨_, bind_eq_ok.mpr ⟨b, hb, bind_eq_ok.mpr ⟨u, hu, rfl⟩⟩⟩
  case closure o c =>
    obtain ⟨b, hb, h⟩ := bind_eq_ok.mp h
    obtain ⟨u, hu, -⟩ := bind_eq_ok.mp h
    exact ⟨_, bind_eq_ok.mpr ⟨b, hb, bind_eq_ok.mpr ⟨u, hu, rfl⟩⟩⟩
  all_goals exact ⟨_, rfl⟩

theorem checkIndices_eq_ok {f : Bytefile} : ∀ {is : List ℤ},
    checkIndices f is = .ok () ↔ ∀ i ∈ is, CodeIndex f i
  | [] => by simp [checkIndices]
  | i :: is => by
    simp only [checkIndices, checkIndex, bind_eq_ok, ensure_eq_ok, exists_const, checkIndices_eq_ok,
      List.forall_mem_cons, CodeIndex]

theorem visitReachable_successors {f : Bytefile} {bodies bodies' : Bodies} {ip : ℤ} {u u' : Unit}
    {ss : List ℤ} (h : visitReachable f bodies ip u = .ok (bodies', u', ss)) : ∀ s ∈ ss, CodeIndex f s := by
  obtain ⟨_, -, h⟩ := bind_eq_ok.mp h
  obtain ⟨_, -, h⟩ := bind_eq_ok.mp h
  obtain ⟨_, hc, h⟩ := bind_eq_ok.mp h
  cases h
  exact checkIndices_eq_ok.mp hc

/-- Fuel for the entry points and the code is enough for a search from the entry points. -/
theorem entries_measure {f : Bytefile} {es : List ℤ} {fuel : ℕ}
    (hfuel : es.length + (getCodeSize f).toNat ≤ fuel) :
    (es.map fun e => (e, ())).length + (Finset.Ico 0 (getCodeSize f) \ es.toFinset).card ≤ fuel := by
  have hcard : (Finset.Ico 0 (getCodeSize f)).card = (getCodeSize f).toNat := by
    rw [Int.card_Ico, Int.sub_zero]
  have := Finset.card_le_card (Finset.sdiff_subset (s := Finset.Ico 0 (getCodeSize f))
    (t := es.toFinset))
  rw [List.length_map]
  omega

theorem checkIndices_errorsIn {f : Bytefile} : ∀ {is : List ℤ},
    ErrorsIn Stop.IsFail (checkIndices f is) ↔ ∀ i ∈ is, CodeIndex f i
  | [] => by simp [checkIndices]
  | i :: is => by
    have hfail : (¬ (0 ≤ i ∧ i < getCodeSize f) → Stop.IsFail (.undefined "visited")) ↔
        CodeIndex f i := by simp [Stop.IsFail, CodeIndex]
    rw [checkIndices, errorsIn_bind, checkIndex, errorsIn_ensure, hfail, List.forall_mem_cons]
    refine and_congr_right fun hi => ?_
    simp only [ensure_eq_ok, checkIndices_errorsIn]
    exact ⟨fun h => h () hi, fun h _ _ => h⟩

theorem checkIndices_codeOnly (f : Bytefile) : ∀ is : List ℤ,
    checkIndices f.codeOnly is = checkIndices f is
  | [] => rfl
  | i :: is => by
    simp only [checkIndices, checkIndex, getCodeSize_codeOnly, checkIndices_codeOnly f is]

section
variable {f : Bytefile} (hf : CodePlaced f)
include hf

theorem pushCallOffset_codeOnly (bodies : Bodies) {inst : Inst}
    (h : ∀ o, inst.entered = some o → CodeIndex f o) :
    pushCallOffset f.codeOnly bodies inst = pushCallOffset f bodies inst := by
  cases inst
  case call r o a => simp only [pushCallOffset, rawByte_codeOnly hf (h o rfl)]
  case closure o c => simp only [pushCallOffset, rawByte_codeOnly hf (h o rfl)]
  all_goals rfl

theorem pushCallOffset_errorsIn (bodies : Bodies) (inst : Inst) :
    ErrorsIn Stop.IsFail (pushCallOffset f.codeOnly bodies inst) ↔
      ∀ o, inst.entered = some o → CodeIndex f o := by
  cases inst
  case call r o a =>
    rw [pushCallOffset, errorsIn_bind, rawByte_errorsIn_iff hf]
    simp [Inst.entered, errorsIn_bind, errorsIn_ensure, Stop.IsFail]
  case closure o c =>
    rw [pushCallOffset, errorsIn_bind, rawByte_errorsIn_iff hf]
    simp [Inst.entered, errorsIn_bind, errorsIn_ensure, Stop.IsFail]
  all_goals exact iff_of_true errorsIn_ok (fun _ h => by cases h)

/-- One turn of the search stays inside just when the instruction's targets do. -/
theorem visitReachable_errorsIn (bodies : Bodies) (ip : ℤ) :
    ErrorsIn Stop.IsFail (visitReachable f.codeOnly bodies ip ()) ↔ TurnContained f ip := by
  rw [visitReachable, readInst_codeOnly hf]
  cases hi : readInst f ip with
  | error e =>
    rw [error_bind]
    refine iff_of_true (errorsIn_error.mpr (readInst_errorsIn hf ip e hi)) fun inst next h => ?_
    rw [hi] at h; cases h
  | ok r =>
    obtain ⟨inst, next⟩ := r
    have turn : TurnContained f ip ↔ (∀ o, inst.entered = some o → CodeIndex f o) ∧
        (Passes f inst → ∀ s ∈ successorsFunctor next inst, CodeIndex f s) := by
      refine ⟨fun h => h inst next hi, fun h inst' next' hi' => ?_⟩
      rw [hi, Except.ok.injEq, Prod.mk.injEq] at hi'
      obtain ⟨rfl, rfl⟩ := hi'
      exact h
    rw [ok_bind, turn, errorsIn_bind, pushCallOffset_errorsIn hf]
    refine and_congr_right fun hentered => ?_
    simp only [pushCallOffset_codeOnly hf bodies hentered, checkIndices_codeOnly]
    have rest : ∀ bodies' : Bodies, ErrorsIn Stop.IsFail
        (checkIndices f (successorsFunctor next inst) >>= fun _ =>
          (.ok (bodies', (), successorsFunctor next inst) : Except Stop _)) ↔
        ∀ s ∈ successorsFunctor next inst, CodeIndex f s := by
      intro bodies'
      rw [errorsIn_bind, checkIndices_errorsIn]
      exact and_iff_left fun _ _ => errorsIn_ok
    constructor
    · intro h hp
      obtain ⟨bodies', hb⟩ := pushCallOffset_of_passes bodies hp
      exact (rest bodies').mp (h bodies' hb)
    · exact fun h bodies' hb => (rest bodies').mpr (h (passes_of_pushCallOffset hb))

theorem visitReachable_codeOnly (bodies : Bodies) {ip : ℤ} (p : Unit) (h : TurnContained f ip) :
    visitReachable f.codeOnly bodies ip p = visitReachable f bodies ip p := by
  rw [visitReachable, visitReachable, readInst_codeOnly hf]
  cases hi : readInst f ip with
  | error e => rw [error_bind, error_bind]
  | ok r =>
    obtain ⟨inst, next⟩ := r
    simp only [ok_bind, pushCallOffset_codeOnly hf bodies (h inst next hi).1, checkIndices_codeOnly]

end

end Lama

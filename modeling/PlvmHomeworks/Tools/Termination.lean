import PlvmHomeworks.Tools.VerifierBounds

/-! The verifier comes to an end on every file.

    Its searches queue a code offset at most once beside the offsets they start from, and its scans
    move on towards the end of the file with every instruction. -/

namespace Lama
open Outcome Worklist

/-- Not for want of fuel. -/
def InTime (e : Stop) : Prop := e ≠ .outOfFuel

variable {f : Bytefile} {fuel : ℕ} {begin ip size : ℤ}

theorem errorsIn_ensure_inTime {c : Prop} [Decidable c] {e : Stop} (he : InTime e) :
    ErrorsIn InTime (ensure c e) := errorsIn_ensure.mpr fun _ => he

theorem errorsIn_orStop_inTime {α : Type} {o : Option α} {e : Stop} (he : InTime e) :
    ErrorsIn InTime (orStop o e) := errorsIn_orStop.mpr fun _ => he

/-- A failed check is not a want of fuel. -/
theorem Stop.IsFail.inTime {e : Stop} (h : e.IsFail) : InTime e := by
  rintro rfl
  exact h

/-! ### One instruction -/

theorem rawByte_inTime (f : Bytefile) (ip : ℤ) : ErrorsIn InTime (rawByte f ip) :=
  errorsIn_bind.mpr ⟨errorsIn_orStop_inTime (by rintro ⟨⟩), fun _ _ => errorsIn_ok⟩

theorem readInst_inTime (f : Bytefile) (ip : ℤ) : ErrorsIn InTime (readInst f ip) := by
  have hcheck : ∀ ip n, ErrorsIn InTime (assertCanRead f ip n) :=
    fun ip n e he => (assertCanRead_errorsIn f ip n e he).inTime
  have hbyte : ∀ ip, ErrorsIn InTime (readByte f ip) := fun ip =>
    errorsIn_bind.mpr ⟨hcheck _ _, fun _ _ => errorsIn_bind.mpr
      ⟨errorsIn_orStop_inTime (by rintro ⟨⟩), fun _ _ => errorsIn_ok⟩⟩
  have hint : ∀ ip, ErrorsIn InTime (readInt f ip) := fun ip =>
    errorsIn_bind.mpr ⟨hcheck _ _, fun _ _ => errorsIn_bind.mpr
      ⟨errorsIn_orStop_inTime (by rintro ⟨⟩), fun _ _ => errorsIn_ok⟩⟩
  exact (ends_readInst (fun _ _ => by rintro ⟨⟩) hbyte hint ip).1

theorem stackDepthFunctor_inTime (jumps : List ℤ) (layout : StackLayout) (inst : Inst) :
    ErrorsIn InTime (stackDepthFunctor jumps layout inst) :=
  fun e he => (stackDepthFunctor_errorsIn jumps layout inst e he).inTime

theorem pushCallOffset_inTime (bodies : Bodies) (inst : Inst) :
    ErrorsIn InTime (pushCallOffset f bodies inst) := by
  cases inst
  case call | closure =>
    exact errorsIn_bind.mpr ⟨rawByte_inTime _ _, fun _ _ => errorsIn_bind.mpr
      ⟨errorsIn_ensure_inTime (by rintro ⟨⟩), fun _ _ => errorsIn_ok⟩⟩
  all_goals exact errorsIn_ok

theorem checkIndices_inTime : ∀ is : List ℤ, ErrorsIn InTime (checkIndices f is)
  | [] => errorsIn_ok
  | _ :: is => errorsIn_bind.mpr
    ⟨errorsIn_ensure_inTime (by rintro ⟨⟩), fun _ _ => checkIndices_inTime is⟩

/-! ### The scans -/

/-- The bytes of the file from the instruction at `ip` on. -/
def bytesFrom (f : Bytefile) (ip : ℤ) : ℤ := f.bytes.length - (f.codePtr + ip + 12)

/-- A scan that reads a byte has bytes left. -/
theorem bytesFrom_of_rawByte {x : ℕ} (h : rawByte f ip = .ok x) :
    1 ≤ bytesFrom f ip ∧ bytesFrom f ip ≤ f.bytes.length := by
  obtain ⟨b, hb, -⟩ := bind_eq_ok.mp h
  rw [orStop_eq_ok, Bytefile.codeByte, Bytefile.bufferByte] at hb
  split at hb
  · rename_i h0
    obtain ⟨hlt, -⟩ := List.getElem?_eq_some_iff.mp hb
    simp only [sizeofBytefile, headerOffset, bytesFrom] at *
    omega
  · cases hb

/-- The scan of `verify_function` needs fuel for the bytes that are left, and finds a size among them. -/
theorem ends_scanFunction {fuel : ℕ} {ip : ℤ} (size : ℤ) (hpos : 0 < fuel) (hfuel : bytesFrom f ip < fuel)
    (hsize : size ≤ f.bytes.length + 1) (hbegin : bytesFrom f begin ≤ f.bytes.length) :
    Ends InTime (fun size : ℤ => size ≤ f.bytes.length + 1) (scanFunction f begin fuel ip size) := by
  induction fuel generalizing ip size with
  | zero => exact absurd hpos (Nat.lt_irrefl 0)
  | succ fuel ih =>
    rw [scanFunction]
    refine Ends.bind (Q := fun x => rawByte f ip = .ok x) ⟨rawByte_inTime f ip, fun _ h => h⟩
      fun x hx => ?_
    obtain ⟨hleft, -⟩ := bytesFrom_of_rawByte hx
    split
    · exact ends_ok.mpr hsize
    · refine Ends.bind (Q := fun r => ip < r.2) ⟨readInst_inTime f ip,
        fun r hr => (readInst_lt hr).2.1⟩ fun r hlt => ?_
      obtain ⟨inst, next⟩ := r
      have hmove : bytesFrom f next < bytesFrom f ip := by
        simp only [bytesFrom] at *
        omega
      refine Ends.bind (Q := fun y => rawByte f next = .ok y) ⟨rawByte_inTime f next, fun _ h => h⟩
        fun y hy => ?_
      obtain ⟨hnext, -⟩ := bytesFrom_of_rawByte hy
      refine (errorsIn_ensure_inTime (by rintro ⟨⟩)).bind fun _ => ?_
      refine ih _ (by omega) (by omega) ?_
      simp only [bytesFrom] at *
      omega

/-- So does the scan of `verify_calls`. -/
theorem ends_scanCalls {fuel : ℕ} {ip : ℤ} (size : ℤ) (hpos : 0 < fuel) (hfuel : bytesFrom f ip < fuel)
    (hsize : 0 < bytesFrom f ip → size ≤ f.bytes.length + 1) (hbegin : bytesFrom f begin ≤ f.bytes.length) :
    Ends InTime (fun size : ℤ => size ≤ f.bytes.length + 1) (scanCalls f begin fuel ip size) := by
  induction fuel generalizing ip size with
  | zero => exact absurd hpos (Nat.lt_irrefl 0)
  | succ fuel ih =>
    rw [scanCalls]
    refine Ends.bind (Q := fun x => rawByte f ip = .ok x) ⟨rawByte_inTime f ip, fun _ h => h⟩
      fun x hx => ?_
    obtain ⟨hleft, -⟩ := bytesFrom_of_rawByte hx
    split
    · exact ends_ok.mpr (hsize (by omega))
    · refine Ends.bind (Q := fun r => ip < r.2) ⟨readInst_inTime f ip,
        fun r hr => (readInst_lt hr).2.1⟩ fun r hlt => ?_
      obtain ⟨inst, next⟩ := r
      refine ih _ (by omega) ?_ (fun hnext => ?_) <;> simp only [bytesFrom] at * <;> omega

/-! ### The bodies -/

theorem visitFunction_inTime (jumps : List ℤ) (layout : StackLayout) :
    ErrorsIn InTime (visitFunction f begin size jumps ip layout) :=
  errorsIn_bind.mpr ⟨readInst_inTime f ip, fun _ _ => errorsIn_bind.mpr
    ⟨stackDepthFunctor_inTime _ _ _, fun _ _ => errorsIn_bind.mpr
      ⟨errorsIn_ensure_inTime (by rintro ⟨⟩), fun _ _ => errorsIn_ok⟩⟩⟩

theorem visitCalls_inTime (key : ℤ → ℤ) (m : List (ℤ × ℤ)) (jumps : List ℤ) (layout : StackLayout) :
    ErrorsIn InTime (visitCalls f begin size key m jumps ip layout) := by
  have hrest : ErrorsIn InTime (readInst f ip >>= fun r => stackDepthFunctor jumps layout r.1 >>= fun d =>
      (.ok (d.1, d.2, inBody begin size (successorsFunctor r.2 r.1)) : Except Stop _)) :=
    errorsIn_bind.mpr ⟨readInst_inTime f ip, fun _ _ => errorsIn_bind.mpr
      ⟨stackDepthFunctor_inTime _ _ _, fun _ _ => errorsIn_ok⟩⟩
  refine errorsIn_bind.mpr ⟨rawByte_inTime f ip, fun x _ => ?_⟩
  split
  · refine errorsIn_bind.mpr ⟨readInst_inTime f ip, fun _ _ => errorsIn_bind.mpr ⟨?_, fun _ _ => ?_⟩⟩
    · exact errorsIn_orStop_inTime (by rintro ⟨⟩)
    · exact errorsIn_bind.mpr ⟨errorsIn_ensure_inTime (by rintro ⟨⟩), fun _ _ => hrest⟩
  · exact hrest

section
variable (hfuel : f.bytes.length + 2 ≤ fuel)
include hfuel

/-- The search of a body that a scan has measured. -/
theorem searchBody_inTime {visit : List ℤ → ℤ → StackLayout → Except Stop (List ℤ × StackLayout × List ℤ)}
    (hturn : ∀ s u p, ErrorsIn InTime (visit s u p))
    (hin : ∀ s u p s' p' ss, visit s u p = .ok (s', p', ss) → ∀ v ∈ ss, v ∈ Finset.Ico begin (begin + size))
    (layout : StackLayout) (hsize : size ≤ f.bytes.length + 1) :
    ErrorsIn InTime (search visit .outOfFuel fuel [] [begin] [(begin, layout)]) := by
  refine (search_errorsIn hin ?_).mpr fun s u p _ => hturn s u p
  have hcard : (Finset.Ico begin (begin + size) \ [begin].toFinset).card ≤ f.bytes.length + 1 := by
    refine (Finset.card_le_card Finset.sdiff_subset).trans ?_
    rw [Int.card_Ico]
    omega
  rw [List.length_singleton]
  omega

omit hfuel in
/-- A scan begins with a read, which fails where there are no bytes left. -/
theorem ends_scan {begin : ℤ} {P : ℤ → Prop} {scan : Except Stop ℤ}
    (hstop : ∀ e, rawByte f begin = .error e → scan = .error e)
    (hread : 0 < bytesFrom f begin → bytesFrom f begin ≤ f.bytes.length → Ends InTime P scan) :
    Ends InTime P scan := by
  cases hx : rawByte f begin with
  | error e =>
    rw [hstop e hx, ends_error]
    exact rawByte_inTime f begin e hx
  | ok x =>
    obtain ⟨hleft, hle⟩ := bytesFrom_of_rawByte hx
    exact hread hleft hle

theorem verifyFunction_inTime (begin captured : ℤ) :
    ErrorsIn InTime (verifyFunction fuel f begin captured) := by
  have hscan : Ends InTime (fun size : ℤ => size ≤ f.bytes.length + 1)
      (scanFunction f begin fuel begin 2) := by
    obtain ⟨n, rfl⟩ := Nat.exists_eq_add_of_le' (show 1 ≤ fuel by omega)
    refine ends_scan (fun e he => by rw [scanFunction, he, error_bind]) fun hleft hle => ?_
    exact ends_scanFunction 2 (Nat.succ_pos n) (by omega) (by omega) hle
  refine errorsIn_bind.mpr ⟨(Ends.bind (R := fun _ => True) hscan fun size hsize => ?_).1, fun v _ => ?_⟩
  · refine ErrorsIn.ends (errorsIn_bind.mpr ⟨?_, fun _ _ => errorsIn_ok⟩)
    exact searchBody_inTime hfuel (fun jumps u layout => visitFunction_inTime jumps layout)
      (fun _ _ _ _ _ _ hv => visitFunction_successors hv) _ hsize
  · refine errorsIn_bind.mpr ⟨fun e he => ?_, fun _ _ => errorsIn_ok⟩
    exact (checkJumps_errorsIn _ _ _ e he).inTime

theorem verifyCalls_inTime (garbage : ℤ → ℤ → ℤ) (begin : ℤ) (m : List (ℤ × ℤ)) :
    ErrorsIn InTime (verifyCalls fuel garbage f begin m) := by
  have hscan : Ends InTime (fun size : ℤ => size ≤ f.bytes.length + 1)
      (scanCalls f begin fuel begin 1) := by
    obtain ⟨n, rfl⟩ := Nat.exists_eq_add_of_le' (show 1 ≤ fuel by omega)
    refine ends_scan (fun e he => by rw [scanCalls, he, error_bind]) fun hleft hle => ?_
    exact ends_scanCalls 1 (Nat.succ_pos n) (by omega) (fun _ => by omega) hle
  refine (Ends.bind (R := fun _ => True) hscan fun size hsize => ErrorsIn.ends ?_).1
  refine errorsIn_bind.mpr ⟨?_, fun _ _ => errorsIn_ok⟩
  exact searchBody_inTime hfuel (fun jumps u layout => visitCalls_inTime _ m jumps layout)
    (fun _ _ _ _ _ _ hv => visitCalls_successors hv) _ hsize

theorem verifyBodies_inTime : ∀ (bodies : List ClosureEntry) (m : List (ℤ × ℤ)),
    ErrorsIn InTime (verifyBodies fuel f bodies m)
  | [], _ => errorsIn_ok
  | body :: bodies, _ => errorsIn_bind.mpr
    ⟨verifyFunction_inTime hfuel body.offset body.captured, fun _ _ => verifyBodies_inTime bodies _⟩

theorem verifyAllCalls_inTime (garbage : ℤ → ℤ → ℤ) (m : List (ℤ × ℤ)) : ∀ bodies : List ClosureEntry,
    ErrorsIn InTime (verifyAllCalls fuel garbage f m bodies)
  | [] => errorsIn_ok
  | body :: bodies => errorsIn_bind.mpr
    ⟨verifyCalls_inTime hfuel garbage body.offset m, fun _ _ => verifyAllCalls_inTime garbage m bodies⟩

end

/-! ### The search of the file -/

theorem visitReachable_inTime (bodies : Bodies) (u : Unit) :
    ErrorsIn InTime (visitReachable f bodies ip u) :=
  errorsIn_bind.mpr ⟨readInst_inTime f ip, fun _ _ => errorsIn_bind.mpr
    ⟨pushCallOffset_inTime _ _, fun _ _ => errorsIn_bind.mpr
      ⟨checkIndices_inTime _, fun _ _ => errorsIn_ok⟩⟩⟩

/-- A turn finds one body at most. -/
theorem visitReachable_bodies {bodies bodies' : Bodies} {u u' : Unit} {ss : List ℤ}
    (h : visitReachable f bodies ip u = .ok (bodies', u', ss)) :
    bodies'.all.length ≤ bodies.all.length + 1 := by
  obtain ⟨⟨inst, next⟩, -, h⟩ := bind_eq_ok.mp h
  obtain ⟨b, hb, h⟩ := bind_eq_ok.mp h
  obtain ⟨_, -, h⟩ := bind_eq_ok.mp h
  cases h
  cases inst
  case call r o a =>
    obtain ⟨x, -, hb⟩ := bind_eq_ok.mp hb
    obtain ⟨_, -, hb⟩ := bind_eq_ok.mp hb
    cases hb
    simp only [Bodies.all, List.length_append, List.length_map, List.length_singleton]
    omega
  case closure o c =>
    obtain ⟨x, -, hb⟩ := bind_eq_ok.mp hb
    obtain ⟨_, -, hb⟩ := bind_eq_ok.mp hb
    cases hb
    simp only [Bodies.all, List.length_append, List.length_map, List.length_singleton]
    omega
  all_goals
    cases hb
    exact Nat.le_succ _

/-- Whatever the search of the file has done so far, it has found finitely many bodies. -/
theorem bodies_length_le {es : List ℤ} {done : List (ℤ × Unit)} {bodies : Bodies} {vis : List ℤ}
    {q : List (ℤ × Unit)}
    (h : Turns (visitReachable f) ⟨es, []⟩ es (es.map fun e => (e, ())) done bodies vis q) :
    bodies.all.length ≤ es.length + done.length := by
  induction h with
  | start => simp [Bodies.all]
  | turn _ hturn ih =>
    have hone := visitReachable_bodies hturn
    rw [List.length_append, List.length_singleton]
    omega

theorem searchReachable_inTime {es : List ℤ} (hfuel : es.length + (getCodeSize f).toNat ≤ fuel) :
    ErrorsIn InTime (searchReachable fuel f es) := by
  refine errorsIn_bind.mpr ⟨errorsIn_ensure_inTime (by rintro ⟨⟩), fun _ _ => errorsIn_bind.mpr
    ⟨checkIndices_inTime es, fun _ _ => ?_⟩⟩
  have hin : ∀ s u p s' p' ss, visitReachable f s u p = .ok (s', p', ss) →
      ∀ v ∈ ss, v ∈ Finset.Ico 0 (getCodeSize f) :=
    fun _ _ _ _ _ _ hv v hv' => Finset.mem_Ico.mpr (visitReachable_successors hv v hv')
  exact (search_errorsIn hin (entries_measure hfuel)).mpr fun s u p _ => visitReachable_inTime s p

/-! ### The verifier -/

/-- Fuel for the searches and the scans of the verifier. -/
def verifierFuel (f : Bytefile) (es : List ℤ) : ℕ :=
  es.length + (getCodeSize f).toNat + f.bytes.length + 2

/-- The verifier of any file ends: with this much fuel or more it does not run out. Its searches queue
    each offset once at most, its bodies are finitely many, and its scans always move on. -/
theorem verifier_terminates (f : Bytefile) (es : List ℤ) (garbage : ℤ → ℤ → ℤ) :
    (∀ fuel, verifierFuel f es ≤ fuel →
      verifyReachableInstructions fuel garbage f es ≠ .error .outOfFuel) ∧
    QueuesOnce (visitReachable f) ⟨es, []⟩ es (es.map fun e => (e, ())) {o | CodeIndex f o} ∧
    (∀ done bodies vis q,
      Turns (visitReachable f) ⟨es, []⟩ es (es.map fun e => (e, ())) done bodies vis q →
        bodies.all.length ≤ 2 * es.length + (getCodeSize f).toNat) ∧
    (∀ begin size layout, QueuesOnce (visitFunction f begin size) [] [begin] [(begin, layout)]
      {o | begin ≤ o ∧ o < begin + size}) ∧
    (∀ begin size layout m, QueuesOnce (visitCalls f begin size (garbage begin) m) [] [begin]
      [(begin, layout)] {o | begin ≤ o ∧ o < begin + size}) ∧
    ∀ ip inst next, readInst f ip = .ok (inst, next) → ip < next ∧ InCode f next := by
  have hreach : QueuesOnce (visitReachable f) ⟨es, []⟩ es (es.map fun e => (e, ()))
      (Finset.Ico 0 (getCodeSize f)) :=
    queuesOnce_of fun _ _ _ _ _ _ hv v hv' => Finset.mem_coe.mpr
      (Finset.mem_Ico.mpr (visitReachable_successors hv v hv'))
  refine ⟨fun fuel hfuel herr => ?_, queuesOnce_of fun _ _ _ _ _ _ hv => visitReachable_successors hv,
    fun done bodies vis q hturns => ?_, fun begin size layout => queuesOnce_of fun _ _ _ _ _ _ hv v hv' =>
      Finset.mem_Ico.mp (visitFunction_successors hv v hv'),
    fun begin size layout m => queuesOnce_of fun _ _ _ _ _ _ hv v hv' =>
      Finset.mem_Ico.mp (visitCalls_successors hv v hv'),
    fun ip inst next h => (readInst_lt h).2⟩
  · have hbytes : f.bytes.length + 2 ≤ fuel := by
      unfold verifierFuel at hfuel
      omega
    refine absurd rfl ((errorsIn_bind.mpr ⟨searchReachable_inTime ?_, fun r _ => ?_⟩) _ herr)
    · unfold verifierFuel at hfuel
      omega
    · exact errorsIn_bind.mpr ⟨verifyBodies_inTime hbytes _ _,
        fun m _ => verifyAllCalls_inTime hbytes garbage m _⟩
  · have hbodies := bodies_length_le hturns
    have hlen := hreach.length_le hturns
    rw [List.length_map, Int.card_Ico, Int.sub_zero] at hlen
    omega

end Lama

import PlvmHomeworks.Tools.Accepted
import PlvmHomeworks.Tools.Frames

/-! Where the jumps of a verified body lead.

    The jump check of `verify_function` knows the size of the body but not its instructions, and the
    size counts the byte after `END` as one to jump to. -/

namespace Lama
open Outcome Worklist Relation

/-- `t` is strictly inside an instruction of the body that begins at `begin`. -/
def MidInstruction (f : Bytefile) (begin t : ℤ) : Prop :=
  ∃ c d, BodyStart f begin c ∧ LinearStep f c d ∧ c < t ∧ t < d

/-- `t` starts an instruction of the body from `begin` to its `END` at `e`, and the search of the body
    saw it. -/
structure Lands (f : Bytefile) (begin e : ℤ) (r : Result ℤ StackLayout (List ℤ)) (t : ℤ) : Prop where
  start : BodyStart f begin t
  inside : begin ≤ t ∧ t ≤ e
  visited : t ∈ r.visited

variable {f : Bytefile} {begin e a b t : ℤ}

/-- A start of the body is not inside an instruction of it. -/
theorem BodyStart.not_midInstruction (ht : BodyStart f begin t) : ¬ MidInstruction f begin t := by
  rintro ⟨c, d, hc, hcd, hct, htd⟩
  rcases ht.total hc with h | h
  · have := BodyStart.le h
    omega
  · rcases ReflTransGen.cases_head h with rfl | ⟨d', hcd', hdt⟩
    · omega
    · rw [hcd.unique hcd'] at htd
      have := BodyStart.le hdt
      omega

variable {captured size : ℤ} {r : Result ℤ StackLayout (List ℤ)}

/-- The body of nothing but an `END` has no jump. -/
theorem BodyVerified.no_jump (h : BodyVerified f begin captured size r)
    (hend : rawByte f begin = .ok opcodeEnd) {u next : ℤ} {inst : Inst} (hu : u ∈ r.visited)
    (hi : readInst f u = .ok (inst, next)) : inst.jumpTargets = [] := by
  have only : ∀ v ∈ r.log, v.1 = begin := by
    refine h.searched.payload_inv (P := fun v _ => v = begin) ?_ ?_
    · rintro jumps v layout jumps' layout' ss rfl hv s hs
      obtain ⟨inst, next, hi, -, -, rfl⟩ := visitFunction_ok hv
      rw [(readInst_end_iff hi hend).mpr rfl] at hs
      cases hs
    · rintro v hv
      rw [List.mem_singleton.mp hv]
  obtain ⟨layout, hlog⟩ := h.logged_of_visited hu
  have hub : u = begin := only _ hlog
  rw [hub] at hi
  rw [(readInst_end_iff hi hend).mpr rfl]
  rfl

/-- The size of a body with a jump reaches to the byte after its `END`. -/
theorem BodyVerified.size_eq (h : BodyVerified f begin captured size r) (he : Scan f begin e) {u next : ℤ}
    {inst : Inst} (hu : u ∈ r.visited) (hi : readInst f u = .ok (inst, next))
    (ht : t ∈ inst.jumpTargets) : size = e - begin + 1 := by
  obtain ⟨e', he', hsize⟩ := h.scanned
  rw [he.unique he']
  rcases hsize with ⟨rfl, -⟩ | hsize
  · cases he' with
    | done hend =>
      rw [h.no_jump hend hu hi] at ht
      cases ht
    | step _ _ hi' _ _ hs =>
      have hlt := (readInst_lt hi').2.1
      have hle := hs.le
      omega
  · exact hsize

/-- A jump of a verified body lands if and only if it does not lead to the byte after `END` or
    inside an instruction. -/
theorem BodyVerified.lands_iff (h : BodyVerified f begin captured size r) (he : Scan f begin e) {u next : ℤ}
    {inst : Inst} (hu : u ∈ r.visited) (hi : readInst f u = .ok (inst, next))
    (ht : t ∈ inst.jumpTargets) :
    Lands f begin e r t ↔ ¬ (t = e + 1 ∨ MidInstruction f begin t) := by
  constructor
  · rintro ⟨hstart, ⟨-, hte⟩, -⟩ (rfl | hmid)
    · omega
    · exact hstart.not_midInstruction hmid
  · intro hno
    rw [not_or] at hno
    have hsize := h.size_eq he hu hi ht
    obtain ⟨layout, hlog⟩ := h.logged_of_visited hu
    obtain ⟨inst', next', -, -, -, hi', -, -, hsucc, hjumps⟩ := h.logged hlog
    rw [hi] at hi'
    cases hi'
    have hrange := hjumps t ht
    have hin : begin ≤ t ∧ t ≤ e := by omega
    refine ⟨?_, hin, ?_⟩
    · exact (he.tile hin.1 hin.2).resolve_right hno.2
    · refine hsucc t ?_ hin.1 (by omega)
      cases inst <;> simp_all [Inst.jumpTargets, successorsFunctor]

/-- In an accepted file, a jump that `verify_function` visits leads to an instruction of its own body,
    one that `verify_function` visits too, if and only if it does not lead to the byte after the
    body's `END` or strictly inside one of its instructions. -/
theorem jumps_land_iff {fuel : ℕ} {garbage : ℤ → ℤ → ℤ} {es : List ℤ} {reached : Result ℤ Unit Bodies}
    (hacc : verifyReachableInstructions fuel garbage f es = .ok ())
    (hreached : searchReachable fuel f es = .ok reached) {body : ClosureEntry}
    (hbody : body ∈ reached.state.all)
    (hs : searchFunction fuel f body.offset body.captured = .ok (size, r))
    (he : Scan f body.offset e) {u next : ℤ} {inst : Inst} (hu : u ∈ r.visited)
    (hi : readInst f u = .ok (inst, next)) (ht : t ∈ inst.jumpTargets) :
    Lands f body.offset e r t ↔ ¬ (t = e + 1 ∨ MidInstruction f body.offset t) := by
  obtain ⟨reached', hr, hv⟩ := bind_eq_ok.mp hacc
  rw [hreached] at hr
  cases hr
  obtain ⟨m, hm, -⟩ := bind_eq_ok.mp hv
  obtain ⟨args, hargs⟩ := verifyBodies_ok hm body hbody
  obtain ⟨size', r', hs', hverified⟩ := bodyVerified_of_verifyFunction hargs
  rw [hs] at hs'
  cases hs'
  exact hverified.lands_iff he hu hi ht

/-- `BEGIN 0 0; JMP 14; END`. -/
def jumpToEnd : List UInt8 := 82 :: intBytes 0 ++ intBytes 0 ++ 21 :: intBytes 14 ++ [22]

theorem jumps_land_iff_jumpToEnd :
    ∃ e r, Scan (program 0 jumpToEnd) 0 e ∧
      (Lands (program 0 jumpToEnd) 0 e r 14 ↔
        ¬ (14 = e + 1 ∨ MidInstruction (program 0 jumpToEnd) 0 14)) := by
  have hacc : verifyReachableInstructions 30 (fun _ _ => 0) (program 0 jumpToEnd) [0] = .ok () := by
    decide +kernel
  have hr : (searchReachable 30 (program 0 jumpToEnd) [0]).map (·.state) = .ok ⟨[0], []⟩ := by
    decide +kernel
  have hs : (searchFunction 30 (program 0 jumpToEnd) 0 (-1)).map (·.2.visited) = .ok [14, 9, 0] := by
    decide +kernel
  have hscan : scanFunction (program 0 jumpToEnd) 0 30 0 2 = .ok 15 := by decide +kernel
  obtain ⟨reached, hreached, hbodies⟩ := exists_of_map_eq_ok hr
  obtain ⟨⟨size, r⟩, hsearch, hvis⟩ := exists_of_map_eq_ok hs
  obtain ⟨e, he, -⟩ := scan_of_scanFunction hscan
  have hbody : (⟨0, -1⟩ : ClosureEntry) ∈ reached.state.all := by rw [hbodies]; decide
  have hjump : readInst (program 0 jumpToEnd) 9 = .ok (.jmp 14, 14) := by decide +kernel
  exact ⟨e, r, he, jumps_land_iff hacc hreached hbody hsearch he (by rw [hvis]; decide) hjump
    (by decide)⟩

/-- `BEGIN 0 0; JMP 15; END; END`. -/
def jumpPastEnd : List UInt8 := 82 :: intBytes 0 ++ intBytes 0 ++ 21 :: intBytes 15 ++ [22, 22]

/-- The jump leads to the byte after the body's `END`, which is at 14, and the file is accepted. -/
theorem jumpPastEnd_accepted :
    ∃ reached size r, loadProgram 30 (fun _ _ => 0) (programBytes 0 jumpPastEnd) =
        .ok (program 0 jumpPastEnd, 0) ∧
      searchReachable 30 (program 0 jumpPastEnd) [0] = .ok reached ∧
      ⟨0, -1⟩ ∈ reached.state.all ∧
      searchFunction 30 (program 0 jumpPastEnd) 0 (-1) = .ok (size, r) ∧
      Scan (program 0 jumpPastEnd) 0 14 ∧ 9 ∈ r.visited ∧
      readInst (program 0 jumpPastEnd) 9 = .ok (.jmp 15, 14) ∧
      ¬ Lands (program 0 jumpPastEnd) 0 14 r 15 := by
  have hr : (searchReachable 30 (program 0 jumpPastEnd) [0]).map (·.state) = .ok ⟨[0], []⟩ := by
    decide +kernel
  have hs : (searchFunction 30 (program 0 jumpPastEnd) 0 (-1)).map (·.2.visited) = .ok [9, 0] := by
    decide +kernel
  have hscan : scanFunction (program 0 jumpPastEnd) 0 30 0 2 = .ok 15 := by decide +kernel
  obtain ⟨reached, hreached, hbodies⟩ := exists_of_map_eq_ok hr
  obtain ⟨⟨size, r⟩, hsearch, hvis⟩ := exists_of_map_eq_ok hs
  have he : Scan (program 0 jumpPastEnd) 0 14 := by
    obtain ⟨e, he, ⟨-, hsize⟩ | hsize⟩ := scan_of_scanFunction hscan
    · cases hsize
    · obtain rfl : e = 14 := by omega
      exact he
  refine ⟨reached, size, r, by decide +kernel, hreached, by rw [hbodies]; decide, hsearch, he,
    by rw [hvis]; decide, by decide +kernel, fun h => ?_⟩
  have := h.inside.2
  omega

end Lama

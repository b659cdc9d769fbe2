import PlvmHomeworks.Lib.Worklist
import PlvmHomeworks.Tools.Functors

/-! The verifier: `verify.cpp`.

    Its three searches are instances of `Worklist.search`. A bitmap is the list of the addresses set
    in it; an index outside a bitmap has no defined result and stops the model. `fuel` bounds every
    loop. `GetCallOffset` never matches the operand types of `CALL`, so `verify_calls` reads its
    `offset` uninitialised: `garbage begin ip` is whatever that word holds there. -/

namespace Lama
open Outcome Worklist

/-- `*ip`, read without a check. -/
def rawByte (f : Bytefile) (ip : ℤ) : Except Stop ℕ := do
  let b ← orStop (f.codeByte ip) (.undefined "*ip")
  return b.toNat

/-- The layout both searches start with. -/
def initialLayout (f : Bytefile) (captured : ℤ) (isClosure : Bool) : StackLayout :=
  { globals := f.globalAreaSize, locals := 0, args := 0, captured, isClosure }

/-- The size scan of `verify_function`. -/
def scanFunction (f : Bytefile) (begin : ℤ) : ℕ → ℤ → ℤ → Except Stop ℤ
  | 0, _, _ => .error .outOfFuel
  | fuel + 1, ip, size => do
    let b ← rawByte f ip
    if b = opcodeEnd then
      return size
    else
      let (_, ip) ← readInst f ip
      let size := ip - begin + 1
      let b ← rawByte f ip
      ensure (¬ (b = opcodeBegin ∨ b = opcodeCBegin)) (.fail "Nested begin at offset 0x%.8x" [ip])
      scanFunction f begin fuel ip size

/-- The successors a body search keeps. -/
def inBody (begin size : ℤ) (ss : List ℤ) : List ℤ :=
  ss.filter fun s => decide (begin ≤ s ∧ s < begin + size)

/-- One turn of the worklist loop of `verify_function`. -/
def visitFunction (f : Bytefile) (begin size : ℤ) (jumps : List ℤ) (ip : ℤ)
    (layout : StackLayout) : Except Stop (List ℤ × StackLayout × List ℤ) := do
  let (inst, next) ← readInst f ip
  let (jumps, layout) ← stackDepthFunctor jumps layout inst
  ensure (¬ layout.locals < 0) (.fail "Stack underflow at offset 0x%.8x" [ip])
  return (jumps, layout, inBody begin size (successorsFunctor next inst))

/-- The jump check of `verify_function`. -/
def checkJumps (begin size : ℤ) : List ℤ → Except Stop Unit
  | [] => .ok ()
  | target :: jumps => do
    ensure (¬ (target < begin ∨ target > begin + size))
      (.fail "Jump out of the function body (to 0x%.8x, function body is 0x%.8x..0x%.8x"
        [target, begin, begin + size])
    checkJumps begin size jumps

/-- The scan and the search of `verify_function`: the size, and the search when it is over. -/
def searchFunction (fuel : ℕ) (f : Bytefile) (begin captured : ℤ) :
    Except Stop (ℤ × Result ℤ StackLayout (List ℤ)) := do
  let layout := initialLayout f captured (decide (captured ≥ 0))
  let size ← scanFunction f begin fuel begin 2
  let r ← search (visitFunction f begin size) .outOfFuel fuel [] [begin] [(begin, layout)]
  return (size, r)

/-- `verify_function`. The layout whose `args` it returns is the one the loop copies from, not a
    copy that the loop changes. -/
def verifyFunction (fuel : ℕ) (f : Bytefile) (begin captured : ℤ) : Except Stop ℤ := do
  let layout := initialLayout f captured (decide (captured ≥ 0))
  let (size, r) ← searchFunction fuel f begin captured
  checkJumps begin size r.state
  return layout.args

/-- The size scan of `verify_calls`. -/
def scanCalls (f : Bytefile) (begin : ℤ) : ℕ → ℤ → ℤ → Except Stop ℤ
  | 0, _, _ => .error .outOfFuel
  | fuel + 1, ip, size => do
    let b ← rawByte f ip
    if b = opcodeEnd then
      return size
    else
      let (_, ip) ← readInst f ip
      scanCalls f begin fuel ip (ip - begin)

/-- `min_args_count.at(key)`; the pair written last is found first. -/
def atKey (minArgsCount : List (ℤ × ℤ)) (key : ℤ) : Except Stop ℤ :=
  orStop (minArgsCount.lookup key) (.uncaught "std::out_of_range")

/-- One turn of the worklist loop of `verify_calls`. -/
def visitCalls (f : Bytefile) (begin size : ℤ) (garbage : ℤ → ℤ) (minArgsCount : List (ℤ × ℤ))
    (jumps : List ℤ) (ip : ℤ) (layout : StackLayout) :
    Except Stop (List ℤ × StackLayout × List ℤ) := do
  let b ← rawByte f ip
  if b = opcodeCall then
    let _ ← readInst f ip
    let minArgs ← atKey minArgsCount (garbage ip)
    ensure (¬ layout.locals < minArgs) (.fail "Stack underflow at offset 0x%.8x" [ip])
  let (inst, next) ← readInst f ip
  let (jumps, layout) ← stackDepthFunctor jumps layout inst
  return (jumps, layout, inBody begin size (successorsFunctor next inst))

/-- `verify_calls`. -/
def verifyCalls (fuel : ℕ) (garbage : ℤ → ℤ → ℤ) (f : Bytefile) (begin : ℤ)
    (minArgsCount : List (ℤ × ℤ)) : Except Stop Unit := do
  let layout := initialLayout f 0 false
  let size ← scanCalls f begin fuel begin 1
  let _ ← search (visitCalls f begin size (garbage begin) minArgsCount) .outOfFuel fuel []
    [begin] [(begin, layout)]
  return ()

/-- `ClosureEntry`. -/
structure ClosureEntry where
  offset : ℤ
  captured : ℤ
  deriving DecidableEq, Repr

/-- The two vectors that `PushCallOffset` fills. -/
structure Bodies where
  begins : List ℤ
  cbegins : List ClosureEntry
  deriving DecidableEq, Repr

/-- `PushCallOffset`. -/
def pushCallOffset (f : Bytefile) (bodies : Bodies) : Inst → Except Stop Bodies
  | .call _ offset _ => do
    let b ← rawByte f offset
    ensure (b = opcodeBegin)
      (.fail "Call offset 0x%.8x points to opcode %d, %d expected" [offset, b, opcodeBegin])
    return { bodies with begins := bodies.begins ++ [offset] }
  | .closure offset capture => do
    let b ← rawByte f offset
    ensure (b = opcodeCBegin ∨ b = opcodeBegin)
      (.fail "Closure offset 0x%.8x points to opcode %d, %d or %d expected"
        [offset, b, opcodeBegin, opcodeCBegin])
    return { bodies with cbegins := bodies.cbegins ++ [⟨offset, capture.length⟩] }
  | _ => .ok bodies

/-- `visited[i]`, an index into a bitmap with one bit per code byte. -/
def checkIndex (f : Bytefile) (i : ℤ) : Except Stop Unit :=
  ensure (0 ≤ i ∧ i < getCodeSize f) (.undefined "visited")

def checkIndices (f : Bytefile) : List ℤ → Except Stop Unit
  | [] => .ok ()
  | i :: is => do
    checkIndex f i
    checkIndices f is

/-- One turn of the search of `verify_reachable_instructions`. -/
def visitReachable (f : Bytefile) (bodies : Bodies) (ip : ℤ) (_ : Unit) :
    Except Stop (Bodies × Unit × List ℤ) := do
  let (inst, next) ← readInst f ip
  let bodies ← pushCallOffset f bodies inst
  let successors := successorsFunctor next inst
  checkIndices f successors
  return (bodies, (), successors)

/-- The breadth-first search of `verify_reachable_instructions`: its bitmap and its bodies. -/
def searchReachable (fuel : ℕ) (f : Bytefile) (entrypoints : List ℤ) :
    Except Stop (Result ℤ Unit Bodies) := do
  -- a negative size makes the constructor of the bitmap throw
  ensure (0 ≤ getCodeSize f) (.uncaught "std::length_error")
  checkIndices f entrypoints
  search (visitReachable f) .outOfFuel fuel ⟨entrypoints, []⟩ entrypoints
    (entrypoints.map fun e => (e, ()))

/-- The loops that run `verify_function` on every body and fill `min_args_count`. -/
def verifyBodies (fuel : ℕ) (f : Bytefile) :
    List ClosureEntry → List (ℤ × ℤ) → Except Stop (List (ℤ × ℤ))
  | [], minArgsCount => .ok minArgsCount
  | body :: bodies, minArgsCount => do
    let args ← verifyFunction fuel f body.offset body.captured
    verifyBodies fuel f bodies ((body.offset, args) :: minArgsCount)

/-- The loops that run `verify_calls` on every body. -/
def verifyAllCalls (fuel : ℕ) (garbage : ℤ → ℤ → ℤ) (f : Bytefile) (minArgsCount : List (ℤ × ℤ)) :
    List ClosureEntry → Except Stop Unit
  | [] => .ok ()
  | body :: bodies => do
    verifyCalls fuel garbage f body.offset minArgsCount
    verifyAllCalls fuel garbage f minArgsCount bodies

/-- The bodies in the order `verify_reachable_instructions` verifies them; a body in `begins` is
    verified with the default `captured = -1`. -/
def Bodies.all (bodies : Bodies) : List ClosureEntry :=
  bodies.begins.map (fun begin => ⟨begin, -1⟩) ++ bodies.cbegins

/-- `verify_reachable_instructions`. -/
def verifyReachableInstructions (fuel : ℕ) (garbage : ℤ → ℤ → ℤ) (f : Bytefile)
    (entrypoints : List ℤ) : Except Stop Unit := do
  let r ← searchReachable fuel f entrypoints
  let minArgsCount ← verifyBodies fuel f r.state.all []
  verifyAllCalls fuel garbage f minArgsCount r.state.all

/-- `main` of `interpreter.cpp` up to the call of `interprete`: the file and the address of the main
    symbol. -/
def loadProgram (fuel : ℕ) (garbage : ℤ → ℤ → ℤ) (bytes : List UInt8) :
    Except Stop (Bytefile × ℤ) := do
  let f ← readFile bytes
  let entrypoints ← getEntrypoints f
  verifyReachableInstructions fuel garbage f entrypoints
  let ip ← mainEntry f
  return (f, ip)

end Lama

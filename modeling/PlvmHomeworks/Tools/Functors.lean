import PlvmHomeworks.Tools.InstReader

/-! `SuccessorsFunctor` and `StackDepthFunctor`.

    Each functor is a template over the opcode and the operand types; a specialisation whose operand
    types differ from those `read_inst` applies is never selected, and the primary template runs
    instead. The definitions below follow the selected template. -/

namespace Lama
open Outcome

/-- `SuccessorsFunctor`: the list it stores, given the address `next` after the instruction. Where
    no functor is applied the vector of the caller stays empty. -/
def successorsFunctor (next : ℤ) : Inst → List ℤ
  | .jmp target => [target]
  | .cjmpnz target => [target, next]
  | .cjmpz target => [next, target]
  | .call _ target _ => [target, next]
  | .closure offset _ => [offset, next]
  | .ret | .end_ | .fail _ _ | .stop => []
  | .noFunctor => []
  | _ => [next]

/-- `StackLayout`; the vector behind `jumps` is shared by all copies and is kept beside it. -/
structure StackLayout where
  globals : ℤ
  locals : ℤ
  args : ℤ
  captured : ℤ
  isClosure : Bool
  deriving DecidableEq, Repr

/-- `load_location`. -/
def loadLocation (layout : StackLayout) (location : LocationEntry) : Except Stop StackLayout :=
  match location.location with
  | some .global => do
    ensure (¬ location.index > layout.globals)
      (.fail "Memory access failed: G(%d) is out of section (%d globals)"
        [location.index, layout.globals])
    return layout
  | some .local_ => do
    ensure (¬ location.index > layout.locals)
      (.fail "Memory access failed: L(%d) is out of frame (%d locals)"
        [location.index, layout.locals])
    return layout
  | some .arg => .ok { layout with args := max layout.args (toInt32 (1 + location.index)) }
  | some .captured => do
    ensure (layout.isClosure = true)
      (.fail "Memory access failed: C(%d) is invalid out of closure" [location.index])
    return { layout with captured := max layout.captured (toInt32 (1 + location.index)) }
  | none => .ok layout

/-- The captured locations of a `CLOSURE`, one after another. -/
def loadLocations : StackLayout → List LocationEntry → Except Stop StackLayout
  | layout, [] => .ok layout
  | layout, l :: ls => loadLocation layout l >>= fun layout => loadLocations layout ls

/-- What `StackDepthFunctor` does to `layout->locals`. -/
def depthAfter (locals : ℤ) : Inst → ℤ
  | .binop _ => toInt32 (locals - 1)
  | .const _ | .string _ | .sexp _ _ | .dup => toInt32 (locals + 1)
  | .ld _ => toInt32 (locals + 1)
  | .lda _ => toInt32 (locals + 2)
  | .sti | .drop | .elem => toInt32 (locals - 1)
  | .sta => toInt32 (locals - 2)
  | .cjmpz _ | .cjmpnz _ => toInt32 (locals - 1)
  | .begin _ localsCount | .cbegin _ localsCount => localsCount
  | .closure _ _ => toInt32 (locals + 1)
  | .call _ _ _ => toInt32 (locals + 1)
  | .patt .string => toInt32 (locals - 1)
  | .lread => toInt32 (locals + 1)
  | .barray _ => toInt32 (locals + 1)
  -- St, Jmp, Line, CallC, Tag, Array, End, the other patterns and LCalls leave the depth alone;
  -- Swap, Ret, Fail (`<Opcode_Fail>` does not match two operands) and Stop run the primary template
  | _ => locals

/-- The locations an instruction names, which `StackDepthFunctor` passes to `load_location`. -/
def Inst.locations : Inst → List LocationEntry
  | .ld location | .lda location | .st location => [location]
  | .closure _ captured => captured
  | _ => []

/-- `StackDepthFunctor` on the jump vector and the layout. -/
def stackDepthFunctor (jumps : List ℤ) (layout : StackLayout) (inst : Inst) :
    Except Stop (List ℤ × StackLayout) := do
  let layout ← loadLocations layout inst.locations
  let jumps := match inst with
    | .jmp target | .cjmpz target | .cjmpnz target => jumps ++ [target]
    | _ => jumps
  let layout := match inst with
    | .begin argsCount _ =>
      { layout with args := argsCount, isClosure := false, captured := 0 }
    | .cbegin argsCount _ =>
      { layout with args := argsCount, isClosure := true, captured := 0 }
    | _ => layout
  return (jumps, { layout with locals := depthAfter layout.locals inst })

end Lama

import PlvmHomeworks.Tools.Functors
import PlvmHomeworks.Tools.Machine

/-! Which assertions an instruction can fail: the texts of its failures. -/

namespace Lama
open Outcome

variable {α β : Type} {T : List String} {im : Image} {e : Env} {f : Bytefile} {s : State}

/-- A failed check of `x` has one of these texts. -/
def Stops (T : List String) (x : Except Stop α) : Prop :=
  ∀ text args, x = .error (.fail text args) → text ∈ T

def underflowText : String := "Virtual stack underflow"

/-- The texts of the checks that depend on values, on the room left and on string operands. -/
def valueTexts : List String :=
  ["Virtual stack overflow", "Call stack overflow", "Call stack underflow",
    "tagHash: character not found: %c\n", "%s <-> %s\n",
    "string value expected in .string_patt:2\n", "boxed value expected in .length\n",
    "boxed value expected in .elem:1\n", "unboxed value expected in .elem:2\n",
    "boxed value expected in .sta:3\n", "match failure at %s:%d:%d, value '%s'\n"]

theorem Stops.ok (a : α) : Stops T (.ok a) := fun _ _ h => nomatch h

theorem Stops.pure (a : α) : Stops T (pure a : Except Stop α) := fun _ _ h => nomatch h

theorem Stops.bind {x : Except Stop α} {g : α → Except Stop β} (hx : Stops T x)
    (hg : ∀ a, x = .ok a → Stops T (g a)) : Stops T (x >>= g) := by
  intro text args h
  rcases bind_eq_error.mp h with h | ⟨a, ha, h⟩
  · exact hx text args h
  · exact hg a ha text args h

theorem stops_fail {text : String} {args : List ℤ} (h : text ∈ T) :
    Stops T (.error (.fail text args) : Except Stop α) := by
  rintro _ _ ⟨⟩; exact h

theorem stops_undefined {what : String} : Stops T (.error (.undefined what) : Except Stop α) :=
  fun _ _ h => nomatch h

theorem stops_ensure {c : Prop} [Decidable c] {text : String} {args : List ℤ}
    (h : ¬ c → text ∈ T) : Stops T (ensure c (.fail text args)) := by
  intro text' args' he
  rw [ensure_eq_error, Stop.fail.injEq] at he
  exact he.2.1 ▸ h he.1

theorem stops_ensure_undefined {c : Prop} [Decidable c] {what : String} :
    Stops T (ensure c (.undefined what)) := by
  intro text' args' he
  rw [ensure_eq_error] at he
  cases he.2

theorem stops_orStop {o : Option α} {what : String} : Stops T (orStop o (.undefined what)) := by
  cases o with
  | none => exact stops_undefined
  | some a => exact Stops.ok a

/-! ### Memory -/

theorem stops_readSlot {a : ℕ} : Stops T (readSlot im s a) :=
  stops_ensure_undefined.bind fun _ _ => Stops.pure _

theorem stops_writeSlot {a : ℕ} {v : Word} : Stops T (writeSlot im s a v) :=
  stops_ensure_undefined.bind fun _ _ => Stops.pure _

theorem stops_loadWord {a : ℕ} : Stops T (loadWord im s a) := by
  unfold loadWord
  split
  · exact Stops.ok _
  · exact stops_orStop

theorem stops_storeWord {a : ℕ} {v : Word} : Stops T (storeWord im s a v) := by
  unfold storeWord
  split
  · exact Stops.ok _
  · exact stops_orStop.bind fun _ _ => Stops.pure _

theorem stops_derefPtr {x : Word} : Stops T (derefPtr x) := stops_orStop

theorem stops_loadByte {p : ℕ} {i : ℤ} : Stops T (loadByte im s p i) :=
  stops_loadWord.bind fun _ _ => Stops.pure _

theorem stops_storeByte {p : ℕ} {i : ℤ} {b : Word} : Stops T (storeByte im s p i b) :=
  stops_loadWord.bind fun _ _ => stops_storeWord

theorem stops_storeHeap {a : ℕ} {v : Word} : Stops T (storeHeap s a v) :=
  stops_orStop.bind fun _ _ => Stops.pure _

theorem stops_dataHeader {x : Word} : Stops T (dataHeader im s x) :=
  stops_derefPtr.bind fun _ _ => stops_loadWord

theorem stops_tagWord {x : Word} : Stops T (tagWord im s x) :=
  stops_dataHeader.bind fun _ _ => Stops.pure _

theorem stops_heapString {p : ℕ} : ∀ {fuel i : ℕ}, Stops T (heapString im s p fuel i)
  | 0, _ => stops_undefined
  | fuel + 1, i => by
    refine stops_loadByte.bind fun c _ => ?_
    split
    · exact Stops.pure _
    · exact stops_heapString.bind fun _ _ => Stops.pure _

theorem stops_storeWords : ∀ {ws : List Word} {a : ℕ} {s : State}, Stops T (storeWords a ws s)
  | [], _, _ => Stops.ok _
  | _ :: _, _, _ => stops_storeHeap.bind fun _ _ => stops_storeWords

/-! ### The stacks -/

/-- A pop finds an operand. -/
theorem stops_vstackPop (h : underflowText ∈ T ∨ s.top + 1 < im.bottom) :
    Stops T (vstackPop im s) := by
  refine Stops.bind (stops_ensure fun hc => ?_) fun _ _ => stops_readSlot.bind fun _ _ => Stops.pure _
  rcases h with h | h
  · exact h
  · have hb := im.bottom_lt
    have := ptrAdd_eq (p := s.top) (n := 1) (by omega) (by omega)
    omega

theorem stops_vstackTop (h : underflowText ∈ T ∨ s.top + 1 < im.bottom) :
    Stops T (vstackTop im s) := by
  refine Stops.bind (stops_ensure fun hc => ?_) fun _ _ => stops_readSlot
  rcases h with h | h
  · exact h
  · have hb := im.bottom_lt
    have := ptrAdd_eq (p := s.top) (n := 1) (by omega) (by omega)
    omega

/-- Several operands, popped into an object. -/
theorem stops_popInto {contents lo : ℕ} : ∀ {n : ℕ} {s : State}, s.top < 2 ^ 30 →
    underflowText ∈ T ∨ s.top + n < im.bottom → Stops T (popInto im contents lo n s)
  | 0, _, _, _ => Stops.ok _
  | n + 1, s, ht, h => by
    refine (stops_vstackPop (h.imp_right fun h => by omega)).bind fun q hq => ?_
    obtain ⟨-, hhi, rfl⟩ := vstackPop_ok ht hq
    have hb := im.bottom_lt
    refine stops_storeHeap.bind fun s' hs' => ?_
    obtain ⟨g, rfl⟩ := storeHeap_ok hs'
    exact stops_popInto (by simp; omega) (h.imp_right fun h => by simp; omega)

/-- `alloc_*` fails no check. -/
theorem stops_allocObject {r : AllocRequest} : Stops T (allocObject im e r) :=
  stops_orStop.bind fun _ _ => stops_orStop.bind fun _ _ => stops_storeHeap.bind fun _ _ =>
    stops_storeHeap.bind fun _ _ => Stops.pure _

/-! ### Variables -/

def globalText : String := "Memory access failed: G(%d) is out of section (%d globals)"
def localText : String := "Memory access failed: L(%d) is out of frame (%d locals)"
def argText : String := "Memory access failed: A(%d) is out of frame (%d args)"
def closureText : String := "Memory access failed: C(%d) is invalid out of closure"
def capturedText : String := "Memory access failed: C(%d) is out of captured (%d captured)"
def kindText : String := "Unexpected location type %d\n"

def accessTexts : List String :=
  [globalText, localText, argText, closureText, capturedText, kindText]

/-- The checks of `loc`: each fails for its own kind of variable and with its own text. -/
theorem stops_loc {l : LocationEntry}
    (hglobal : l.location = some .global → ¬ toSize l.index < s.globalsCount → globalText ∈ T)
    (hlocal : l.location = some .local_ → ¬ toSize l.index < s.frame.localsCount → localText ∈ T)
    (harg : l.location = some .arg → ¬ toSize l.index < s.frame.argsCount → argText ∈ T)
    (hclosure : l.location = some .captured → ¬ s.frame.isClosure = true → closureText ∈ T)
    (hcaptured : l.location = some .captured → ¬ toSize l.index < e.closureSize.toNat →
      capturedText ∈ T)
    (hkind : l.location = none → kindText ∈ T) : Stops T (loc im e s l) := by
  unfold loc
  split <;> rename_i hl
  · exact Stops.bind (stops_ensure (hglobal hl)) fun _ _ => Stops.pure _
  · exact Stops.bind (stops_ensure (hlocal hl)) fun _ _ => Stops.pure _
  · exact Stops.bind (stops_ensure (harg hl)) fun _ _ => Stops.pure _
  · exact Stops.bind (stops_ensure (hclosure hl)) fun _ _ => stops_readSlot.bind fun _ _ =>
      Stops.bind (stops_ensure (hcaptured hl)) fun _ _ => stops_derefPtr.bind fun _ _ => Stops.pure _
  · exact stops_fail (hkind hl)

theorem stops_loc_access {l : LocationEntry} (hT : ∀ text ∈ accessTexts, text ∈ T) :
    Stops T (loc im e s l) :=
  stops_loc (fun _ _ => hT _ (by decide)) (fun _ _ => hT _ (by decide)) (fun _ _ => hT _ (by decide))
    (fun _ _ => hT _ (by decide)) (fun _ _ => hT _ (by decide)) fun _ => hT _ (by decide)

/-! ### Values -/

theorem stops_tagPatt {tag x : Word} : Stops T (tagPatt im s tag x) := by
  unfold tagPatt
  split
  · exact Stops.ok _
  · exact stops_tagWord.bind fun _ _ => Stops.pure _

theorem stops_btag {d t n : Word} : Stops T (btag im s d t n) := by
  unfold btag
  split
  · exact Stops.ok _
  · refine stops_dataHeader.bind fun _ _ => ?_
    split
    · exact stops_derefPtr.bind fun _ _ => stops_loadWord.bind fun _ _ => Stops.pure _
    · exact Stops.pure _

theorem stops_arrayPatt {d n : Word} : Stops T (arrayPatt im s d n) := by
  unfold arrayPatt
  split
  · exact Stops.ok _
  · exact stops_dataHeader.bind fun _ _ => Stops.pure _

theorem stops_binop {op : Binop} {l r : ℤ} : Stops T (binop op l r) := by
  cases op
  case div => unfold binop; dsimp only; split <;> first | exact stops_undefined | exact Stops.ok _
  case rem => unfold binop; dsimp only; split <;> first | exact stops_undefined | exact Stops.ok _
  all_goals exact Stops.ok _

section
variable (hT : ∀ text ∈ valueTexts, text ∈ T)
include hT

theorem stops_tagHash {chars : List UInt8} : Stops T (tagHash chars) := by
  have loop : ∀ {limit h : ℕ} {cs : List UInt8}, Stops T (tagHashLoop limit h cs) := by
    intro limit
    induction limit with
    | zero => intro h cs; exact Stops.ok _
    | succ limit ih =>
      intro h cs
      cases cs with
      | nil => exact Stops.ok _
      | cons c cs =>
        unfold tagHashLoop
        split
        · exact ih
        · exact stops_fail (hT _ (by decide))
  exact loop.bind fun _ _ => (stops_ensure fun _ => hT _ (by decide)).bind fun _ _ => Stops.pure _

theorem stops_stringPatt {x y : Word} : Stops T (stringPatt im s x y) := by
  have strings : Stops T (do
      if unboxed x then return box 0
      let t ← tagWord im s x
      if t ≠ stringTag then return box 0
      let a ← heapString im s (← derefPtr x) (2 ^ 32) 0
      let b ← heapString im s (← derefPtr y) (2 ^ 32) 0
      return box (boolWord (a == b)) : Except Stop Word) := by
    split
    · exact Stops.pure _
    · refine stops_tagWord.bind fun t _ => ?_
      split
      · exact Stops.pure _
      · exact stops_derefPtr.bind fun _ _ => stops_heapString.bind fun _ _ =>
          stops_derefPtr.bind fun _ _ => stops_heapString.bind fun _ _ => Stops.pure _
  unfold stringPatt
  dsimp only
  split
  · refine stops_tagWord.bind fun t _ => Stops.bind (stops_ensure fun _ => ?_) fun _ _ => strings
    exact hT _ (by decide)
  · exact strings

theorem stops_llength {p : Word} : Stops T (llength im s p) :=
  (stops_ensure fun _ => hT _ (by decide)).bind fun _ _ => stops_dataHeader.bind fun _ _ => Stops.pure _

theorem stops_belem {p i : Word} : Stops T (belem im s p i) := by
  refine (stops_ensure fun _ => hT _ (by decide)).bind fun _ _ =>
    (stops_ensure fun _ => hT _ (by decide)).bind fun _ _ => stops_tagWord.bind fun t _ =>
      stops_derefPtr.bind fun a _ => ?_
  dsimp only
  split
  · exact stops_loadByte.bind fun _ _ => Stops.pure _
  · split
    · exact stops_loadWord
    · exact stops_loadWord

theorem stops_bsta {v i x : Word} : Stops T (bsta im s v i x) := by
  unfold bsta
  split
  · refine (stops_ensure fun _ => hT _ (by decide)).bind fun _ _ => stops_tagWord.bind fun t _ =>
      stops_derefPtr.bind fun a _ => ?_
    dsimp only
    split
    · exact stops_storeByte
    · split
      · exact stops_storeWord
      · exact stops_storeWord
  · exact stops_derefPtr.bind fun _ _ => stops_storeWord

theorem stops_vstackPush {v : Word} : Stops T (vstackPush im s v) :=
  (stops_ensure fun _ => hT _ (by decide)).bind fun _ _ => stops_writeSlot.bind fun _ _ => Stops.pure _

/-! ### Calls -/

theorem stops_cstackAlloc {n : ℕ} : Stops T (cstackAlloc im s n) :=
  (stops_ensure fun _ => hT _ (by decide)).bind fun _ _ => Stops.pure _

theorem stops_cstackCall {r : ℤ} {n : ℕ} {c : Bool}
    (h : underflowText ∈ T ∨ ptrAdd s.top n < im.bottom) : Stops T (cstackCall im s r n c) :=
  (stops_ensure fun _ => hT _ (by decide)).bind fun _ _ =>
    Stops.bind (stops_ensure fun hc => h.elim id fun h => absurd h hc) fun _ _ => Stops.pure _

theorem stops_cstackEnd (h : underflowText ∈ T ∨
    s.top + 1 < im.bottom ∧ ptrAdd s.frame.base s.frame.argsCount ≤ im.bottom) :
    Stops T (cstackEnd im s) := by
  refine (stops_vstackPop (h.imp_right And.left)).bind fun q hq => ?_
  obtain ⟨v, s'⟩ := q
  have hframe : s'.frame = s.frame := by
    obtain ⟨u, -, hq⟩ := bind_eq_ok.mp hq
    obtain ⟨w, -, hq⟩ := bind_eq_ok.mp hq
    cases hq
    rfl
  refine (stops_ensure fun _ => hT _ (by decide)).bind fun _ _ => ?_
  refine Stops.bind (stops_ensure fun hc => ?_) fun _ _ => ?_
  · rw [hframe] at hc
    exact h.elim id fun h => absurd h.2 hc
  · exact (stops_vstackPush hT).bind fun _ _ => Stops.pure _

/-! ### Instructions -/

/-- The operands, arguments and results of an instruction are inside `__vstack`. -/
def Inst.Roomy (im : Image) (s : State) : Inst → Prop
  | .call _ _ n => ptrAdd s.top (toSize n) < im.bottom
  | .callc _ n => ptrAdd s.top (toSize n) < im.bottom ∧ ptrAdd s.top (1 + toSize n) < im.bottom
  | .end_ | .ret => s.top + 1 < im.bottom ∧ ptrAdd s.frame.base s.frame.argsCount ≤ im.bottom
  | .dup | .st _ => s.top + 1 < im.bottom
  | inst => 0 < inst.pops → s.top + inst.pops < im.bottom

theorem stops_pushLocations : ∀ {ls : List LocationEntry} {s : State},
    (∀ l ∈ ls, ∀ s', SameControl s s' → Stops T (loc im e s' l)) → Stops T (pushLocations im e s ls)
  | [], _, _ => Stops.ok _
  | l :: ls, s, h =>
    (h l List.mem_cons_self s (.refl s)).bind fun _ _ => stops_loadWord.bind fun _ _ =>
      (stops_vstackPush hT).bind fun s' hs' => by
        obtain ⟨-, -, rfl⟩ := vstackPush_ok hs'
        exact stops_pushLocations fun l hl s' hs' =>
          h l (List.mem_cons_of_mem _ hl) s' (sameControl_push.trans hs')


theorem stops_patt {pattern : Pattern} (ht : s.top < 2 ^ 30)
    (h : underflowText ∈ T ∨ s.top + (Inst.patt pattern).pops < im.bottom) :
    Stops T (patt im s pattern) := by
  have hone : 1 ≤ (Inst.patt pattern).pops := by cases pattern <;> decide
  refine (stops_vstackPop (h.imp_right fun h => by omega)).bind fun q hq => ?_
  obtain ⟨-, hhi, rfl⟩ := vstackPop_ok ht hq
  cases pattern
  case string =>
    have h2 : underflowText ∈ T ∨ s.top + 2 < im.bottom := h
    refine (stops_vstackPop (s := s.drop 1) (h2.imp_right fun h => by simpa using h)).bind fun q _ => ?_
    exact (stops_stringPatt hT).bind fun _ _ => stops_vstackPush hT
  case boxed => exact stops_vstackPush hT
  case unboxed => exact stops_vstackPush hT
  all_goals exact stops_tagPatt.bind fun _ _ => stops_vstackPush hT

/-- The instructions of `execPlain`. -/
theorem stops_execPlain {inst : Inst} (ht : s.top < 2 ^ 30)
    (hroom : underflowText ∈ T ∨ inst.Roomy im s)
    (hloc : ∀ l ∈ inst.locations, ∀ s', SameControl s s' → Stops T (loc im e s' l)) :
    Stops T (execPlain im e f s inst) := by
  have hb := im.bottom_lt
  have pop1 : ∀ {β : Type} {g : Word × State → Except Stop β},
      (underflowText ∈ T ∨ (0 < 1 → s.top + 1 < im.bottom)) →
      (∀ v, s.top + 1 < im.bottom → Stops T (g (v, s.drop 1))) → Stops T (vstackPop im s >>= g) := by
    intro β g h hg
    refine (stops_vstackPop (h.imp_right fun h => h Nat.one_pos)).bind fun q hq => ?_
    obtain ⟨-, hhi, rfl⟩ := vstackPop_ok ht hq
    exact hg _ hhi
  have pop2 : ∀ {β : Type} {g : Word × State → Except Stop β}, s.top + 1 < im.bottom →
      (underflowText ∈ T ∨ (0 < 2 → s.top + 2 < im.bottom)) →
      (∀ v, s.top + 2 < im.bottom → Stops T (g (v, s.drop 2))) →
      Stops T (vstackPop im (s.drop 1) >>= g) := by
    intro β g h1 h hg
    refine (stops_vstackPop (s := s.drop 1)
      (h.imp_right fun h => by simpa using h Nat.two_pos)).bind fun q hq => ?_
    obtain ⟨-, hhi, rfl⟩ := vstackPop_ok (by simp; omega) hq
    rw [State.drop_drop]
    exact hg _ (by simpa using hhi)
  have less : ∀ {j k : ℕ}, j ≤ k → (underflowText ∈ T ∨ (0 < k → s.top + k < im.bottom)) →
      underflowText ∈ T ∨ (0 < j → s.top + j < im.bottom) := fun hjk h =>
    h.imp_right fun h hj => by have := h (by omega); omega
  cases inst
  case const n => exact stops_vstackPush hT
  case sti =>
    have hroom1 := less (j := 1) (k := 2) (by decide) hroom
    refine pop1 hroom1 fun v h1 => pop2 h1 hroom fun p _ => stops_derefPtr.bind fun _ _ =>
      stops_storeWord.bind fun _ _ => stops_vstackPush hT
  case sta =>
    have hroom1 := less (j := 1) (k := 3) (by decide) hroom
    have hroom2 := less (j := 2) (k := 3) (by decide) hroom
    refine pop1 hroom1 fun v h1 => pop2 h1 hroom2 fun i h2 => ?_
    refine (stops_vstackPop (s := s.drop 2) (hroom.imp_right fun h => ?_)).bind fun q _ =>
      (stops_bsta hT).bind fun _ _ => stops_vstackPush hT
    exact h (by decide)
  case drop => exact pop1 hroom fun _ _ => Stops.pure _
  case dup => exact (stops_vstackTop hroom).bind fun _ _ => stops_vstackPush hT
  case swap =>
    have hroom1 := less (j := 1) (k := 2) (by decide) hroom
    exact pop1 hroom1 fun v h1 => pop2 h1 hroom fun p _ =>
      (stops_vstackPush hT).bind fun _ _ => stops_vstackPush hT
  case elem =>
    have hroom1 := less (j := 1) (k := 2) (by decide) hroom
    exact pop1 hroom1 fun v h1 => pop2 h1 hroom fun p _ =>
      (stops_belem hT).bind fun _ _ => stops_vstackPush hT
  case begin => exact stops_cstackAlloc hT
  case cbegin => exact stops_cstackAlloc hT
  case tag pos args =>
    exact pop1 hroom fun d _ => stops_orStop.bind fun _ _ => (stops_tagHash hT).bind fun _ _ =>
      stops_btag.bind fun _ _ => stops_vstackPush hT
  case array n =>
    exact pop1 hroom fun d _ => stops_arrayPatt.bind fun _ _ => stops_vstackPush hT
  case fail line col => exact pop1 hroom fun _ _ => stops_fail (hT _ (by decide))
  case binop op =>
    have hroom1 := less (j := 1) (k := 2) (by decide) hroom
    exact pop1 hroom1 fun v h1 => pop2 h1 hroom fun p _ =>
      stops_binop.bind fun _ _ => stops_vstackPush hT
  case ld l =>
    exact (hloc l (List.mem_singleton_self l) s (.refl s)).bind fun _ _ =>
      stops_loadWord.bind fun _ _ => stops_vstackPush hT
  case lda l =>
    exact (hloc l (List.mem_singleton_self l) s (.refl s)).bind fun _ _ =>
      (stops_vstackPush hT).bind fun _ _ => stops_vstackPush hT
  case st l =>
    exact (hloc l (List.mem_singleton_self l) s (.refl s)).bind fun _ _ =>
      (stops_vstackTop hroom).bind fun _ _ => stops_storeWord
  case patt pattern =>
    refine stops_patt hT ht (hroom.imp_right fun h => ?_)
    exact h (by cases pattern <;> decide)
  case lread => exact stops_vstackPush hT
  case lwrite => exact pop1 hroom fun _ _ => stops_vstackPush hT
  case llength => exact pop1 hroom fun _ _ => (stops_llength hT).bind fun _ _ => stops_vstackPush hT
  case stop => exact fun _ _ h => nomatch h
  all_goals exact Stops.ok _

theorem stops_allocRequest {inst : Inst} (hroom : underflowText ∈ T ∨ inst.Roomy im s)
    (hloc : ∀ l ∈ inst.locations, ∀ s', SameControl s s' → Stops T (loc im e s' l)) :
    Stops T (allocRequest im e f s inst) := by
  cases inst
  case string pos => exact stops_orStop.bind fun _ _ => Stops.pure _
  case sexp pos n =>
    exact stops_orStop.bind fun _ _ => (stops_tagHash hT).bind fun _ _ => Stops.pure _
  case closure entry ls => exact (stops_pushLocations hT hloc).bind fun _ _ => Stops.pure _
  case barray n => exact Stops.ok _
  case lstring =>
    refine (stops_vstackPop (hroom.imp_right fun h => ?_)).bind fun _ _ => Stops.pure _
    exact h Nat.one_pos
  all_goals exact Stops.ok _

/-- After the request, `top` is where the instruction found it, but for captured values that were
    pushed and a printed value that was popped. -/
theorem stops_afterAlloc {inst : Inst} {p top : ℕ} (ht : s.top < 2 ^ 30)
    (htop : inst.requestTop im top s.top)
    (hroom : underflowText ∈ T ∨ top + inst.pops < im.bottom) :
    Stops T (afterAlloc im e f p s inst) := by
  cases inst
  case string pos =>
    exact stops_orStop.bind fun _ _ => stops_storeWords.bind fun _ _ => stops_vstackPush hT
  case sexp pos n =>
    have htop : s.top = top := htop
    refine stops_orStop.bind fun _ _ => (stops_tagHash hT).bind fun _ _ =>
      stops_storeHeap.bind fun s₁ hs₁ => ?_
    obtain ⟨g, rfl⟩ := storeHeap_ok hs₁
    exact (stops_popInto (s := s.withHeap g) ht (htop ▸ hroom)).bind fun _ _ =>
      stops_storeHeap.bind fun _ _ => stops_vstackPush hT
  case closure entry ls =>
    have htop : s.top + ls.length = top := htop
    refine stops_storeHeap.bind fun s₁ hs₁ => ?_
    obtain ⟨g, rfl⟩ := storeHeap_ok hs₁
    exact (stops_popInto (s := s.withHeap g) ht (htop ▸ hroom)).bind fun _ _ => stops_vstackPush hT
  case barray n =>
    have htop : s.top = top := htop
    exact (stops_popInto ht (htop ▸ hroom)).bind fun _ _ => stops_vstackPush hT
  case lstring => exact stops_storeWords.bind fun _ _ => stops_vstackPush hT
  all_goals exact Stops.ok _

/-- The checks an instruction can fail: those on values and on the room left; those of its locations;
    and, unless its operands are there, that of an underflow. -/
theorem stops_exec {inst : Inst} (ht : s.top < 2 ^ 30)
    (hroom : underflowText ∈ T ∨ inst.Roomy im s ∧ s.top < im.bottom)
    (hloc : ∀ l ∈ inst.locations, ∀ s', SameControl s s' → Stops T (loc im e s' l)) :
    Stops T (exec im e f s inst) := by
  have hroomy : underflowText ∈ T ∨ inst.Roomy im s := hroom.imp_right And.left
  by_cases ha : inst.allocates = true
  · have hpops : underflowText ∈ T ∨ s.top + inst.pops < im.bottom := by
      refine hroom.imp_right fun h => ?_
      rcases Nat.eq_zero_or_pos inst.pops with hz | hpos
      · omega
      · cases inst <;> first | exact Bool.noConfusion ha | exact h.1 hpos
    rw [exec_allocates ha]
    refine (stops_allocRequest hT hroomy hloc).bind fun o ho => ?_
    obtain ⟨r, rfl, hr⟩ := allocRequest_ok ht ha ho
    refine stops_allocObject.bind fun q hq => ?_
    obtain ⟨m, g, -, hs⟩ := allocObject_ok hq
    refine (stops_afterAlloc hT ?_ ?_ hpops).bind fun _ _ => Stops.pure _
    · rw [hs]; exact hr.top_lt ht ha
    · rw [hs]; exact hr.top
  · rw [Bool.not_eq_true] at ha
    cases inst
    case jmp => exact Stops.ok _
    case cjmpz target =>
      exact (stops_vstackPop (hroomy.imp_right fun h => h Nat.one_pos)).bind fun _ _ => Stops.pure _
    case cjmpnz target =>
      exact (stops_vstackPop (hroomy.imp_right fun h => h Nat.one_pos)).bind fun _ _ => Stops.pure _
    case end_ => exact (stops_cstackEnd hT hroomy).bind fun _ _ => Stops.pure _
    case ret => exact (stops_cstackEnd hT hroomy).bind fun _ _ => Stops.pure _
    case call r o n => exact (stops_cstackCall hT hroomy).bind fun _ _ => Stops.pure _
    case callc r n =>
      refine Stops.bind (Stops.bind (stops_ensure fun hc => ?_) fun _ _ => stops_readSlot)
        fun _ _ => stops_derefPtr.bind fun _ _ => stops_loadWord.bind fun _ _ =>
          (stops_cstackCall hT (hroomy.imp_right And.left)).bind fun _ _ => Stops.pure _
      exact hroomy.elim id fun h => absurd h.2 hc
    case stop =>
      rintro _ _ ⟨⟩
    all_goals first
      | exact Bool.noConfusion ha
      | exact Stops.ok _
      | exact (stops_execPlain (f := f) hT ht hroomy hloc).bind fun _ _ => Stops.pure _

end

end Lama

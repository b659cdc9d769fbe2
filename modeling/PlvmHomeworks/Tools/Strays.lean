import PlvmHomeworks.Tools.Machine

/-! Accesses outside `__vstack`: which operations of the interpreter can make one.

    Only the helpers that read or write a slot can; they do not where the top is inside the stack and
    the pointer arithmetic on it does not wrap around. The specifications below carry the place of
    the top through every instruction that leaves the call stack alone. -/

namespace Lama
open Outcome

variable {im : Image} {e : Env} {f : Bytefile} {s s₀ : State} {v : Word}

/-- Not an access outside `__vstack`. -/
def NotStray (x : Stop) : Prop := x ≠ .undefined "__vstack"

/-- The top is inside the stack, or right below it. -/
def TopInside (im : Image) (s : State) : Prop := im.vstack ≤ s.top + 1 ∧ s.top < im.bottom

/-- The top is inside, and the call stack and the globals are those of `s₀`. -/
structure Within (im : Image) (s₀ s : State) : Prop where
  top : TopInside im s
  control : SameControl s₀ s

theorem Within.frame (h : Within im s₀ s) : s.frame = s₀.frame := by
  rw [State.frame, State.frame, h.control.cstack, h.control.ctop]

theorem within_self (h : TopInside im s) : Within im s s := ⟨h, .refl s⟩

/-! ### Values -/

theorem errorsIn_readSlot {a : ℕ} (h : im.inStack a) : ErrorsIn NotStray (readSlot im s a) := by
  rw [readSlot, ensure, if_pos h]
  exact errorsIn_ok

theorem errorsIn_orStop_other {α : Type} {o : Option α} {what : String} (h : what ≠ "__vstack") :
    ErrorsIn NotStray (orStop o (.undefined what)) :=
  errorsIn_orStop.mpr fun _ => by simpa [NotStray] using h

theorem errorsIn_check {c : Prop} [Decidable c] {text : String} {args : List ℤ} :
    ErrorsIn NotStray (ensure c (.fail text args)) :=
  errorsIn_ensure.mpr fun _ => by simp [NotStray]

theorem errorsIn_loadWord {a : ℕ} : ErrorsIn NotStray (loadWord im s a) := by
  unfold loadWord
  split
  · exact errorsIn_ok
  · exact errorsIn_orStop_other (by decide)

theorem errorsIn_derefPtr {x : Word} : ErrorsIn NotStray (derefPtr x) :=
  errorsIn_orStop_other (by decide)

theorem errorsIn_loadByte {p : ℕ} {i : ℤ} : ErrorsIn NotStray (loadByte im s p i) :=
  errorsIn_bind.mpr ⟨errorsIn_loadWord, fun _ _ => errorsIn_ok⟩

theorem errorsIn_dataHeader {x : Word} : ErrorsIn NotStray (dataHeader im s x) :=
  errorsIn_bind.mpr ⟨errorsIn_derefPtr, fun _ _ => errorsIn_loadWord⟩

theorem errorsIn_tagWord {x : Word} : ErrorsIn NotStray (tagWord im s x) :=
  errorsIn_bind.mpr ⟨errorsIn_dataHeader, fun _ _ => errorsIn_ok⟩

theorem errorsIn_heapString {p : ℕ} : ∀ {fuel i : ℕ}, ErrorsIn NotStray (heapString im s p fuel i)
  | 0, _ => errorsIn_error.mpr (by simp [NotStray])
  | fuel + 1, i => by
    refine errorsIn_bind.mpr ⟨errorsIn_loadByte, fun c _ => ?_⟩
    split
    · exact errorsIn_ok
    · exact errorsIn_bind.mpr ⟨errorsIn_heapString, fun _ _ => errorsIn_ok⟩

theorem errorsIn_tagPatt {tag x : Word} : ErrorsIn NotStray (tagPatt im s tag x) := by
  unfold tagPatt
  split
  · exact errorsIn_ok
  · exact errorsIn_bind.mpr ⟨errorsIn_tagWord, fun _ _ => errorsIn_ok⟩

theorem errorsIn_stringPatt {x y : Word} : ErrorsIn NotStray (stringPatt im s x y) := by
  have strings : ErrorsIn NotStray (do
      if unboxed x then return box 0
      let t ← tagWord im s x
      if t ≠ stringTag then return box 0
      let a ← heapString im s (← derefPtr x) (2 ^ 32) 0
      let b ← heapString im s (← derefPtr y) (2 ^ 32) 0
      return box (boolWord (a == b)) : Except Stop Word) := by
    split
    · exact errorsIn_ok
    · refine errorsIn_bind.mpr ⟨errorsIn_tagWord, fun t _ => ?_⟩
      split
      · exact errorsIn_ok
      · exact errorsIn_bind.mpr ⟨errorsIn_derefPtr, fun _ _ => errorsIn_bind.mpr
          ⟨errorsIn_heapString, fun _ _ => errorsIn_bind.mpr ⟨errorsIn_derefPtr, fun _ _ =>
            errorsIn_bind.mpr ⟨errorsIn_heapString, fun _ _ => errorsIn_ok⟩⟩⟩⟩
  unfold stringPatt
  dsimp only
  split
  · exact errorsIn_bind.mpr ⟨errorsIn_tagWord, fun t _ =>
      errorsIn_bind.mpr ⟨errorsIn_check, fun _ _ => strings⟩⟩
  · exact strings

theorem errorsIn_btag {d t n : Word} : ErrorsIn NotStray (btag im s d t n) := by
  unfold btag
  split
  · exact errorsIn_ok
  · refine errorsIn_bind.mpr ⟨errorsIn_dataHeader, fun _ _ => ?_⟩
    split
    · exact errorsIn_bind.mpr ⟨errorsIn_derefPtr, fun _ _ =>
        errorsIn_bind.mpr ⟨errorsIn_loadWord, fun _ _ => errorsIn_ok⟩⟩
    · exact errorsIn_ok

theorem errorsIn_arrayPatt {d n : Word} : ErrorsIn NotStray (arrayPatt im s d n) := by
  unfold arrayPatt
  split
  · exact errorsIn_ok
  · exact errorsIn_bind.mpr ⟨errorsIn_dataHeader, fun _ _ => errorsIn_ok⟩

theorem errorsIn_llength {p : Word} : ErrorsIn NotStray (llength im s p) :=
  errorsIn_bind.mpr ⟨errorsIn_check, fun _ _ =>
    errorsIn_bind.mpr ⟨errorsIn_dataHeader, fun _ _ => errorsIn_ok⟩⟩

theorem errorsIn_belem {p i : Word} : ErrorsIn NotStray (belem im s p i) := by
  refine errorsIn_bind.mpr ⟨errorsIn_check, fun _ _ => errorsIn_bind.mpr ⟨errorsIn_check, fun _ _ =>
    errorsIn_bind.mpr ⟨errorsIn_tagWord, fun t _ => errorsIn_bind.mpr
      ⟨errorsIn_derefPtr, fun a _ => ?_⟩⟩⟩⟩
  dsimp only
  split
  · exact errorsIn_bind.mpr ⟨errorsIn_loadByte, fun _ _ => errorsIn_ok⟩
  · split <;> exact errorsIn_loadWord

theorem errorsIn_binop {op : Binop} {l r : ℤ} : ErrorsIn NotStray (binop op l r) := by
  cases op
  case div => unfold binop; dsimp only; split <;> simp [NotStray]
  case rem => unfold binop; dsimp only; split <;> simp [NotStray]
  all_goals exact errorsIn_ok

theorem errorsIn_tagHash {chars : List UInt8} : ErrorsIn NotStray (tagHash chars) := by
  have loop : ∀ {limit h : ℕ} {cs : List UInt8}, ErrorsIn NotStray (tagHashLoop limit h cs) := by
    intro limit
    induction limit with
    | zero => intro h cs; exact errorsIn_ok
    | succ limit ih =>
      intro h cs
      cases cs with
      | nil => exact errorsIn_ok
      | cons c cs =>
        unfold tagHashLoop
        split
        · exact ih
        · exact errorsIn_error.mpr (by simp [NotStray])
  exact errorsIn_bind.mpr ⟨loop, fun _ _ => errorsIn_bind.mpr ⟨errorsIn_check, fun _ _ => errorsIn_ok⟩⟩

/-! ### Stores -/

theorem ends_storeWord {a : ℕ} (hs : Within im s₀ s) :
    Ends NotStray (Within im s₀) (storeWord im s a v) := by
  refine ⟨?_, fun s' hs' => ?_⟩
  · unfold storeWord
    split
    · exact errorsIn_ok
    · exact errorsIn_bind.mpr ⟨errorsIn_orStop_other (by decide), fun _ _ => errorsIn_ok⟩
  · obtain ⟨hc, ht⟩ := sameControl_store hs'
    exact ⟨by rw [TopInside, ht]; exact hs.top, hs.control.trans hc⟩

theorem ends_storeHeap {a : ℕ} (hs : Within im s₀ s) :
    Ends NotStray (Within im s₀) (storeHeap s a v) := by
  refine ⟨errorsIn_bind.mpr ⟨errorsIn_orStop_other (by decide), fun _ _ => errorsIn_ok⟩, ?_⟩
  intro s' hs'
  obtain ⟨g, rfl⟩ := storeHeap_ok hs'
  exact ⟨hs.top, hs.control.trans ⟨rfl, rfl, rfl⟩⟩

theorem ends_storeWords : ∀ {ws : List Word} {a : ℕ} {s : State}, Within im s₀ s →
    Ends NotStray (Within im s₀) (storeWords a ws s)
  | [], _, _, hs => ends_ok.mpr hs
  | _ :: _, _, _, hs => (ends_storeHeap hs).bind fun _ hs' => ends_storeWords hs'

theorem ends_bsta {x i w : Word} (hs : Within im s₀ s) :
    Ends NotStray (Within im s₀) (bsta im s w i x) := by
  unfold bsta
  split
  · refine errorsIn_check.bind fun _ => errorsIn_tagWord.bind fun t => errorsIn_derefPtr.bind fun a => ?_
    dsimp only
    split
    · exact errorsIn_loadWord.bind fun _ => ends_storeWord hs
    · split <;> exact ends_storeWord hs
  · exact errorsIn_derefPtr.bind fun _ => ends_storeWord hs

/-! ### The virtual stack -/

theorem ends_vstackPush (hs : Within im s₀ s) :
    Ends NotStray (Within im s₀) (vstackPush im s v) := by
  have hin : s.top > im.vstack → im.inStack s.top := fun h => ⟨Nat.le_of_lt h, hs.top.2⟩
  refine (Ends.ensure fun _ => by simp [NotStray]).bind fun _ hc => ?_
  rw [writeSlot, ensure, if_pos (hin hc), ok_bind, pure_eq_ok, ok_bind, pure_eq_ok, ends_ok]
  have := hs.top.2
  exact ⟨⟨by simp only; omega, by simp only; omega⟩, hs.control.trans ⟨rfl, rfl, rfl⟩⟩

/-- The slot above the top is a slot, unless the stack is empty. -/
theorem inStack_above (hs : TopInside im s) (h : ptrAdd s.top 1 ≠ im.bottom) :
    im.inStack (ptrAdd s.top 1) ∧ ptrAdd s.top 1 = s.top + 1 := by
  obtain ⟨hlo, hhi⟩ := hs
  have hb := im.bottom_lt
  have heq := ptrAdd_eq (p := s.top) (n := 1) (by omega) (by omega)
  exact ⟨inStack_iff.mpr (by omega), by omega⟩

theorem ends_vstackPop (hs : Within im s₀ s) :
    Ends NotStray (fun r => Within im s₀ r.2) (vstackPop im s) := by
  refine (Ends.ensure fun _ => by simp [NotStray]).bind fun _ hc => ?_
  obtain ⟨hin, heq⟩ := inStack_above hs.top hc
  refine (errorsIn_readSlot hin).bind fun _ => ends_ok.mpr ?_
  have hlt := (inStack_iff.mp hin).2
  have := hs.top.1
  exact ⟨⟨by simp only; omega, hlt⟩, hs.control.trans ⟨rfl, rfl, rfl⟩⟩

theorem errorsIn_vstackTop (hs : TopInside im s) : ErrorsIn NotStray (vstackTop im s) := by
  refine errorsIn_bind.mpr ⟨errorsIn_check, fun _ hc => ?_⟩
  rw [ensure_eq_ok] at hc
  exact errorsIn_readSlot (inStack_above hs (by omega)).1

/-- An operand counted from the top, when the sum of the pointer and the index does not wrap. -/
theorem errorsIn_vstackKthFromEnd {n : ℕ} (hs : TopInside im s)
    (hn : ptrAdd s.top (1 + n) < im.bottom → s.top + 1 + n < 2 ^ 30) :
    ErrorsIn NotStray (vstackKthFromEnd im s n) := by
  refine errorsIn_bind.mpr ⟨errorsIn_check, fun _ hc => ?_⟩
  rw [ensure_eq_ok] at hc
  have hlt := hn hc
  have heq := ptrAdd_eq (p := s.top) (n := 1 + n) (by omega) (by omega)
  have := hs.1
  exact errorsIn_readSlot (inStack_iff.mpr (by omega))

theorem ends_popInto {contents lo : ℕ} : ∀ {n : ℕ} {s : State}, Within im s₀ s →
    Ends NotStray (Within im s₀) (popInto im contents lo n s)
  | 0, _, hs => ends_ok.mpr hs
  | _ + 1, _, hs => (ends_vstackPop hs).bind fun _ hs' => (ends_storeHeap hs').bind fun _ hs'' =>
      ends_popInto hs''

end Lama

import PlvmHomeworks.Tools.Accessors
import PlvmHomeworks.Tools.Grammar
import PlvmHomeworks.Tools.Stats

/-! `PrinterFunctor`, the disassembly of `bcdump` and `bcstats`, and what its text depends on.

    The specialisation for `CALLC` expects three operands where the decoder passes two, so the generic
    printer runs and prints the address after the instruction as a string. The letters of captured
    variables are looked up without a check, and a string is printed up to a NUL, wherever that is. -/

namespace Lama
open Outcome

/-- What is written to the stream. -/
abbrev Text := List UInt8

def ascii (s : String) : Text := s.toList.map fun c => UInt8.ofNat c.toNat

/-- `out << n` for an `int`. -/
def decText (n : ℤ) : Text := ascii (toString n)

/-- `out << std::hex << n << std::dec` for an `int`. -/
def hexText (n : ℤ) : Text := ascii (String.ofList (Nat.toDigits 16 (toSize n)))

/-- The characters up to a NUL, if there is one. -/
def untilNul : Text → Option Text
  | [] => none
  | b :: bs => if b = 0 then some [] else (untilNul bs).map (b :: ·)

/-- `out << s` for the C string at offset `o` from `file->buffer`. -/
def stringText (f : Bytefile) (o : ℤ) : Except Stop Text := do
  ensure (0 ≤ o + (sizeofBytefile - headerOffset)) (.undefined "operator<<")
  orStop (untilNul (f.bytes.drop (o + (sizeofBytefile - headerOffset)).toNat)) (.undefined "operator<<")

/-- The operators of `BINOPS`. -/
def Binop.sign : Binop → String
  | .add => "+"
  | .sub => "-"
  | .mul => "*"
  | .div => "/"
  | .rem => "%"
  | .lessThan => "<"
  | .lessEqual => "<="
  | .greaterThan => ">"
  | .greaterEqual => ">="
  | .equal => "=="
  | .notEqual => "!="
  | .and => "&&"
  | .or => "||"

/-- The names of `PATTERNS`. -/
def Pattern.name : Pattern → String
  | .string => "=str"
  | .stringTag => "#string"
  | .arrayTag => "#array"
  | .sexpTag => "#sexp"
  | .boxed => "#ref"
  | .unboxed => "#val"
  | .closureTag => "#fun"

/-- The letters of `LOCATIONS`, which are also those of `locations` in the printer of `CLOSURE`. -/
def Location.letter : Location → String
  | .global => "G"
  | .local_ => "L"
  | .arg => "A"
  | .captured => "C"

/-- `opcode_to_string`. -/
def opcodeToString : Inst → String
  | .binop op => "BINOP " ++ op.sign
  | .ld _ => "LD"
  | .lda _ => "LDA"
  | .st _ => "ST"
  | .stop => "STOP"
  | .patt pattern => "PATT " ++ pattern.name
  | .lread => "LCALL Lread"
  | .lwrite => "LCALL Lwrite"
  | .llength => "LCALL Llength"
  | .lstring => "LCALL Lstring"
  | .barray _ => "LCALL Barray"
  | .const _ => "CONST"
  | .string _ => "STRING"
  | .sexp _ _ => "SEXP"
  | .sti => "STI"
  | .sta => "STA"
  | .jmp _ => "JMP"
  | .end_ => "END"
  | .ret => "RET"
  | .drop => "DROP"
  | .dup => "DUP"
  | .swap => "SWAP"
  | .elem => "ELEM"
  | .cjmpz _ => "CJMPz"
  | .cjmpnz _ => "CJMPnz"
  | .begin _ _ => "BEGIN"
  | .cbegin _ _ => "CBEGIN"
  | .closure _ _ => "CLOSURE"
  | .callc _ _ => "CALLC"
  | .call _ _ _ => "CALL"
  | .tag _ _ => "TAG"
  | .array _ => "ARRAY"
  | .fail _ _ => "FAIL"
  | .line _ => "LINE"
  | .noFunctor => ""

/-- The primary template: the operands, each followed by a blank. -/
def genericText (inst : Inst) (operands : List Text) : Text :=
  ascii (opcodeToString inst ++ "\t") ++ operands.flatMap (· ++ ascii " ")

/-- `PRINT_LOCATION`. -/
def locationText (inst : Inst) (location : LocationEntry) : Except Stop Text := do
  let letter ← orStop (location.location.map Location.letter) (.undefined "locations")
  return ascii (opcodeToString inst ++ "\t" ++ letter ++ "(") ++ decText location.index ++ ascii ")"

/-- `PRINT_OFFSET`. -/
def offsetText (inst : Inst) (offset : ℤ) : Text :=
  ascii (opcodeToString inst ++ "\t" ++ "0x") ++ hexText offset

/-- The captured variables of a `CLOSURE`; `locations[entry.kind]` is not checked. -/
def capturesText : List LocationEntry → Except Stop Text
  | [] => .ok []
  | entry :: args => do
    let letter ← orStop (entry.location.map Location.letter) (.undefined "locations")
    let text ← capturesText args
    return ascii (letter ++ "(") ++ decText entry.index ++ ascii ")\t" ++ text

/-- `PrinterFunctor`, by the template that is selected for the operands. -/
def printerFunctor (f : Bytefile) (inst : Inst) : Except Stop Text :=
  match inst with
  | .ld location | .lda location | .st location => locationText inst location
  | .jmp offset | .cjmpz offset | .cjmpnz offset => .ok (offsetText inst offset)
  | .call _ offset argc => .ok (offsetText inst offset ++ ascii " " ++ decText argc)
  | .patt pattern => .ok (ascii (opcodeToString inst ++ "\t" ++ pattern.name))
  | .lread | .lwrite | .llength | .lstring => .ok (ascii (opcodeToString inst))
  | .closure offset args => do
    let text ← capturesText args
    return ascii (opcodeToString inst ++ " ") ++ hexText offset ++ ascii " " ++ text
  -- the address after the instruction is the first operand of the primary template
  | .callc ip argc => do
    let text ← stringText f (f.codePtr + ip)
    return genericText inst [text, decText argc]
  | .string value => do
    let text ← stringText f (f.stringPtr + value)
    return genericText inst [text]
  | .sexp value argc | .tag value argc => do
    let text ← stringText f (f.stringPtr + value)
    return genericText inst [text, decText argc]
  | .const n | .array n | .line n | .barray n => .ok (genericText inst [decText n])
  | .begin m n | .cbegin m n | .fail m n => .ok (genericText inst [decText m, decText n])
  | .noFunctor => .ok []
  | .binop _ | .sti | .sta | .end_ | .ret | .drop | .dup | .swap | .elem | .stop => .ok (genericText inst [])

/-- `read_inst<PrinterFunctor, std::ostream &>`. -/
def printInst (f : Bytefile) (ip : ℤ) : Except Stop (Text × ℤ) := do
  let (inst, next) ← readInst f ip
  let text ← printerFunctor f inst
  return (text, next)

example : (printInst (program 0 [80, 16, 1, 0, 0]) 0).map (·.1) = .ok (ascii "CJMPz\t0x110") := by
  decide +kernel

/-! ### One instruction in two files -/

/-- The string table and the code section follow one another in the file. -/
structure Laid (f : Bytefile) : Prop where
  placed : CodePlaced f
  table : f.codePtr = f.stringPtr + f.stringtabSize
  table_start : 0 ≤ f.stringPtr
  table_nonneg : 0 ≤ f.stringtabSize

/-- Both files have the same string table. -/
structure SameTable (f g : Bytefile) : Prop where
  size : g.stringtabSize = f.stringtabSize
  bytes : ∀ k, 0 ≤ k → k < f.stringtabSize → g.bufferByte (g.stringPtr + k) = f.bufferByte (f.stringPtr + k)

/-- The bytes from `ip` up to `next` are decoded at `ip'` of the other file. -/
structure Repeats (f g : Bytefile) (ip next ip' next' : ℤ) : Prop where
  decodes : ∃ inst, readInst g ip' = .ok (inst, next')
  length : next' - ip' = next - ip
  bytes : ∀ k, 0 ≤ k → k < next - ip → g.codeByte (ip' + k) = f.codeByte (ip + k)

/-- There is one text for the instruction at `ip`, which ends before `next`: it is what is printed
    wherever a file with the same string table has the same bytes, whatever stands around them. -/
def PrintsSame (f : Bytefile) (ip next : ℤ) : Prop :=
  ∃ text, ∀ g ip' next', Laid g → SameTable f g → Repeats f g ip next ip' next' →
    printInst g ip' = .ok (text, next')

/-- The operands are all that is printed: no address, no letter that is not there, no string that goes
    on after the string table. -/
def PrintsOwn (f : Bytefile) : Inst → Prop
  | .callc _ _ => False
  | .closure _ args => ∀ entry ∈ args, entry.kind < 4
  | .string pos | .sexp pos _ | .tag pos _ => EndsInTable f pos
  | _ => True

/-- The same instruction, in front of another address. -/
def Inst.inFrontOf (next : ℤ) : Inst → Inst
  | .callc _ argc => .callc next argc
  | .call _ offset argc => .call next offset argc
  | inst => inst

variable {f g : Bytefile} {ip next ip' next' pos : ℤ} {inst : Inst} {text : Text}

theorem Bytefile.Holds.copy {d : ℤ} : ∀ {bs : List UInt8} {ip : ℤ}, f.Holds ip bs →
    (∀ k, ip ≤ k → k < ip + bs.length → g.codeByte (k + d) = f.codeByte k) → g.Holds (ip + d) bs
  | [], _, _, _ => trivial
  | b :: bs, ip, ⟨hb, hbs⟩, hcopy => by
    rw [List.length_cons] at hcopy
    refine ⟨(hcopy ip le_rfl (by omega)).trans hb, ?_⟩
    rw [show ip + d + 1 = ip + 1 + d by omega]
    exact hbs.copy fun k hle hlt => hcopy k (by omega) (by omega)

/-- Operands are spelled by their bytes, wherever these stand. -/
theorem Spelled.copy {d : ℤ} (hsize : g.stringtabSize = f.stringtabSize) (hin : InCode g (next + d)) :
    ∀ {os : List Operand} {ip : ℤ}, Spelled f ip os next → 0 ≤ ip + d →
      (∀ k, ip ≤ k → k < next → g.codeByte (k + d) = f.codeByte k) → Spelled g (ip + d) os (next + d)
  | [], ip, h, _, _ => by
    cases h
    rfl
  | o :: os, ip, ⟨h0, hc, hfits, hholds, hs⟩, hd, hcopy => by
    have hnext := hs.le_next
    have hrest : Spelled g (ip + o.bytes.length + d) os (next + d) :=
      hs.copy hsize hin (by omega) fun k hle hlt => hcopy k (by omega) hlt
    refine ⟨hd, ?_, ?_, hholds.copy fun k hle hlt => hcopy k hle (by omega), ?_⟩
    · unfold InCode at hin ⊢
      omega
    · cases o <;> simpa only [Operand.Fits, hsize] using hfits
    · rw [show ip + d + o.bytes.length = ip + o.bytes.length + d by omega]
      exact hrest

/-- The same bytes are decoded to the same instruction. -/
theorem readInst_copy (h : readInst f ip = .ok (inst, next)) (hsize : g.stringtabSize = f.stringtabSize)
    (h0 : 0 ≤ ip') (hin : InCode g next') (hlen : next' - ip' = next - ip)
    (hcopy : ∀ k, 0 ≤ k → k < next - ip → g.codeByte (ip' + k) = f.codeByte (ip + k)) :
    readInst g ip' = .ok (inst.inFrontOf next', next') := by
  obtain ⟨-, hlt, -⟩ := readInst_lt h
  obtain ⟨hip, -, x, hx, h⟩ := readInst_iff.mp h
  obtain ⟨d, rfl⟩ : ∃ d, ip' = ip + d := ⟨ip' - ip, by omega⟩
  obtain rfl : next' = next + d := by omega
  have hbytes : ∀ k, ip ≤ k → k < next → g.codeByte (k + d) = f.codeByte k := by
    intro k hle hlt
    have := hcopy (k - ip) (by omega) (by omega)
    rwa [show ip + d + (k - ip) = k + d by omega, show ip + (k - ip) = k by omega] at this
  have spelled : ∀ {os : List Operand}, Spelled f (ip + 1) os next →
      Spelled g (ip + d + 1) os (next + d) := by
    intro os hs
    rw [show ip + d + 1 = ip + 1 + d by omega]
    exact hs.copy hsize hin (by omega) fun k hle hlt => hbytes k (by omega) hlt
  refine readInst_iff.mpr ⟨h0, ?_, x, (hbytes ip le_rfl hlt).trans hx, ?_⟩
  · unfold InCode at hin ⊢
    omega
  rcases opcodeInst_taken h with ⟨hop, hs, -⟩ | ⟨hu, rfl, rfl⟩ | ⟨h84, entry, n, rfl, hneg, hs⟩
  · refine opcodeInst_of_spelled ?_ ?_ ?_
    · cases inst <;> exact hop
    · cases inst <;> exact spelled hs
    · cases inst <;> first | rfl | trivial
  · rw [show ip + 1 + d = ip + d + 1 by omega]
    exact opcodeInst_unlisted hu
  · rw [h84]
    exact opcodeInst_negative hneg (spelled hs)

/-! ### Strings of the table -/

theorem untilNul_append {xs : Text} (ys : Text) (h : untilNul xs = some text) :
    untilNul (xs ++ ys) = some text := by
  induction xs generalizing text with
  | nil => cases h
  | cons b bs ih =>
    rw [untilNul] at h
    rw [List.cons_append, untilNul]
    split at h
    · rwa [if_pos ‹_›]
    · rw [if_neg ‹_›]
      obtain ⟨t, ht, rfl⟩ := Option.map_eq_some_iff.mp h
      rw [ih ht]
      rfl

theorem exists_untilNul {xs : Text} (h : 0 ∈ xs) : ∃ text, untilNul xs = some text := by
  induction xs with
  | nil => cases h
  | cons b bs ih =>
    rw [untilNul]
    by_cases hb : b = 0
    · exact ⟨[], if_pos hb⟩
    · obtain ⟨text, ht⟩ := ih ((List.mem_cons.mp h).resolve_left (Ne.symm hb))
      exact ⟨b :: text, by rw [if_neg hb, ht, Option.map_some]⟩

/-- Without a NUL the characters are copied, and the text goes on behind them. -/
theorem untilNul_append_of_notMem {xs : Text} (ys : Text) (h : 0 ∉ xs) :
    untilNul (xs ++ ys) = (untilNul ys).map (xs ++ ·) := by
  induction xs with
  | nil => exact Option.map_id'.symm
  | cons b bs ih =>
    obtain ⟨hb, hbs⟩ := List.ne_and_not_mem_of_not_mem_cons h
    rw [List.cons_append, untilNul, if_neg hb.symm, ih hbs, Option.map_map]
    rfl

/-- The characters of the string table from position `pos` on. -/
def tableFrom (f : Bytefile) (pos : ℤ) : Text :=
  (f.bytes.drop (f.stringPtr + pos + 12).toNat).take (f.stringtabSize - pos).toNat

theorem bufferByte_eq {o : ℤ} (h : 0 ≤ o) : f.bufferByte o = f.bytes[(o + 12).toNat]? :=
  if_pos (by simp only [sizeofBytefile, headerOffset]; omega)

theorem tableFrom_getElem? (hf : Laid f) (hpos : 0 ≤ pos) {k : ℕ} :
    (tableFrom f pos)[k]? = if pos + k < f.stringtabSize then f.bufferByte (f.stringPtr + (pos + k))
      else none := by
  have hstart := hf.table_start
  rw [tableFrom, List.getElem?_take, List.getElem?_drop, bufferByte_eq (by omega),
    show (f.stringPtr + pos + 12).toNat + k = (f.stringPtr + (pos + k) + 12).toNat by omega]
  exact if_congr (by omega) rfl rfl

theorem SameTable.tableFrom_eq (h : SameTable f g) (hf : Laid f) (hg : Laid g) (hpos : 0 ≤ pos) :
    tableFrom g pos = tableFrom f pos := by
  refine List.ext_getElem? fun k => ?_
  rw [tableFrom_getElem? hf hpos, tableFrom_getElem? hg hpos, h.size]
  split
  · exact h.bytes _ (by omega) ‹_›
  · rfl

theorem endsInTable_iff (hf : Laid f) (hpos : 0 ≤ pos) : EndsInTable f pos ↔ 0 ∈ tableFrom f pos := by
  rw [List.mem_iff_getElem?, EndsInTable]
  simp only [tableFrom_getElem? hf hpos]
  constructor
  · rintro ⟨k, hle, hlt, hk⟩
    refine ⟨(k - pos).toNat, ?_⟩
    rw [show pos + ((k - pos).toNat : ℤ) = k by omega, if_pos hlt, hk]
  · rintro ⟨k, hk⟩
    split at hk
    · exact ⟨pos + k, by omega, ‹_›, hk⟩
    · cases hk

/-- The code section follows the string table. -/
theorem drop_eq_tableFrom (hf : Laid f) (hpos : 0 ≤ pos) (hlt : pos < f.stringtabSize) :
    f.bytes.drop (f.stringPtr + pos + 12).toNat = tableFrom f pos ++ f.bytes.drop (f.codePtr + 12).toNat := by
  have hstart := hf.table_start
  have htable := hf.table
  rw [tableFrom]
  conv_lhs => rw [← List.take_append_drop (f.stringtabSize - pos).toNat (f.bytes.drop _)]
  rw [List.drop_drop, show (f.stringPtr + pos + 12).toNat + (f.stringtabSize - pos).toNat =
    (f.codePtr + 12).toNat by omega]

theorem stringText_eq {o : ℤ} (h : 0 ≤ o) :
    stringText f o = orStop (untilNul (f.bytes.drop (o + 12).toNat)) (.undefined "operator<<") := by
  rw [stringText, ensure_of (by simp only [sizeofBytefile, headerOffset]; omega)]
  rfl

/-- A string that ends in the table is the same text in both files. -/
theorem stringText_table (h : SameTable f g) (hf : Laid f) (hg : Laid g) (hpos : 0 ≤ pos)
    (hlt : pos < f.stringtabSize) (ht : untilNul (tableFrom f pos) = some text) :
    stringText g (g.stringPtr + pos) = .ok text := by
  have hstart := hg.table_start
  rw [stringText_eq (by omega), drop_eq_tableFrom hg hpos (h.size ▸ hlt), h.tableFrom_eq hf hg hpos,
    untilNul_append _ ht]
  rfl

/-! ### What the text depends on -/

theorem LocationEntry.exists_letter {entry : LocationEntry} :
    (∃ letter, entry.location.map Location.letter = some letter) ↔ entry.kind < 4 := by
  rw [← not_iff_not, Nat.not_lt, ← Location.ofNibble_eq_none_iff]
  simp [LocationEntry.location, Option.eq_none_iff_forall_ne_some]

theorem exists_capturesText {args : List LocationEntry} :
    (∃ text, capturesText args = .ok text) ↔ ∀ entry ∈ args, entry.kind < 4 := by
  induction args with
  | nil => exact iff_of_true ⟨[], rfl⟩ fun entry h => nomatch h
  | cons entry args ih =>
    rw [List.forall_mem_cons, ← ih, ← LocationEntry.exists_letter]
    constructor
    · rintro ⟨text, h⟩
      obtain ⟨letter, hletter, h⟩ := bind_eq_ok.mp h
      obtain ⟨rest, hrest, -⟩ := bind_eq_ok.mp h
      exact ⟨⟨letter, orStop_eq_ok.mp hletter⟩, rest, hrest⟩
    · rintro ⟨⟨letter, hletter⟩, rest, hrest⟩
      exact ⟨_, bind_eq_ok.mpr ⟨letter, orStop_eq_ok.mpr hletter, bind_eq_ok.mpr ⟨rest, hrest, rfl⟩⟩⟩

theorem Spelled.string_fits : ∀ {os : List Operand} {ip : ℤ}, Spelled f ip os next → .string pos ∈ os →
    0 ≤ pos ∧ pos < f.stringtabSize
  | o :: os, ip, ⟨_, _, hfits, _, hs⟩, hmem => by
    rcases List.mem_cons.mp hmem with rfl | hmem
    · exact hfits.2
    · exact hs.string_fits hmem

theorem readInst_string (h : readInst f ip = .ok (inst, next)) (hmem : .string pos ∈ inst.operands) :
    0 ≤ pos ∧ pos < f.stringtabSize := by
  obtain ⟨x, -, ⟨-, hs, -⟩ | ⟨-, rfl, -⟩ | ⟨-, entry, n, rfl, -, -⟩⟩ := readInst_taken h
  · exact hs.string_fits hmem
  · cases hmem
  · simp [Inst.operands] at hmem

theorem Spelled.next_eq : ∀ {os : List Operand} {ip : ℤ}, Spelled f ip os next →
    next = ip + (os.map (·.bytes.length)).sum
  | [], _, h => by
    cases h
    exact (Int.add_zero _).symm
  | o :: os, ip, ⟨_, _, _, _, hs⟩ => by
    rw [hs.next_eq, List.map_cons, List.sum_cons, Nat.cast_add, Int.add_assoc]

/-- An instruction with a string is short. -/
theorem readInst_string_length (h : readInst f ip = .ok (inst, next)) (hmem : .string pos ∈ inst.operands) :
    next - ip ≤ 9 := by
  obtain ⟨x, -, ⟨-, hs, -⟩ | ⟨-, rfl, -⟩ | ⟨-, entry, n, rfl, -, -⟩⟩ := readInst_taken h
  · have hnext := hs.next_eq
    cases inst <;> simp [Inst.operands, Operand.bytes, intBytes] at hmem hnext <;> omega
  · cases hmem
  · simp [Inst.operands] at hmem

/-- The location of an instruction. -/
def Inst.location? : Inst → Option LocationEntry
  | .ld location | .lda location | .st location => some location
  | _ => none

theorem readInst_location {location : LocationEntry} (h : readInst f ip = .ok (inst, next))
    (hl : inst.location? = some location) : location.kind < 4 := by
  obtain ⟨x, -, ⟨hop, -, -⟩ | ⟨-, rfl, -⟩ | ⟨-, entry, n, rfl, -, -⟩⟩ := readInst_taken h
  · cases inst <;> cases hl <;> exact hop.2.2
  · cases hl
  · cases hl

theorem exists_locationText {location : LocationEntry} (h : location.kind < 4) :
    ∃ text, locationText inst location = .ok text := by
  obtain ⟨letter, hletter⟩ := LocationEntry.exists_letter.mpr h
  exact ⟨_, bind_eq_ok.mpr ⟨letter, orStop_eq_ok.mpr hletter, rfl⟩⟩

/-- The address after a `CALL` is not printed. -/
theorem printerFunctor_inFrontOf (h : PrintsOwn f inst) :
    printerFunctor g (inst.inFrontOf next) = printerFunctor g inst := by
  cases inst with
  | callc r argc => exact h.elim
  | _ => rfl

/-- An instruction whose operands are all that is printed has one text, for each file with the string
    table. -/
theorem exists_printerFunctor (hf : Laid f) (h : readInst f ip = .ok (inst, next)) (hown : PrintsOwn f inst) :
    ∃ text, ∀ g, Laid g → SameTable f g → printerFunctor g inst = .ok text := by
  have string : ∀ {pos : ℤ}, .string pos ∈ inst.operands → EndsInTable f pos → ∃ text, ∀ g, Laid g →
      SameTable f g → stringText g (g.stringPtr + pos) = .ok text := by
    intro pos hmem hends
    obtain ⟨hpos, hlt⟩ := readInst_string h hmem
    obtain ⟨text, ht⟩ := exists_untilNul ((endsInTable_iff hf hpos).mp hends)
    exact ⟨text, fun g hg htable => stringText_table htable hf hg hpos hlt ht⟩
  cases inst with
  | ld location | lda location | st location =>
    obtain ⟨text, ht⟩ := exists_locationText (readInst_location h rfl)
    exact ⟨text, fun _ _ _ => ht⟩
  | closure entry args =>
    obtain ⟨text, ht⟩ := exists_capturesText.mpr hown
    exact ⟨_, fun _ _ _ => bind_eq_ok.mpr ⟨text, ht, rfl⟩⟩
  | callc r argc => exact hown.elim
  | string pos =>
    obtain ⟨text, ht⟩ := string (List.mem_singleton_self _) hown
    exact ⟨_, fun g hg htable => bind_eq_ok.mpr ⟨text, ht g hg htable, rfl⟩⟩
  | sexp pos argc | tag pos argc =>
    obtain ⟨text, ht⟩ := string List.mem_cons_self hown
    exact ⟨_, fun g hg htable => bind_eq_ok.mpr ⟨text, ht g hg htable, rfl⟩⟩
  | _ => exact ⟨_, fun _ _ _ => rfl⟩

theorem PrintsOwn.printsSame (hf : Laid f) (h : readInst f ip = .ok (inst, next)) (hown : PrintsOwn f inst) :
    PrintsSame f ip next := by
  obtain ⟨text, ht⟩ := exists_printerFunctor hf h hown
  refine ⟨text, fun g ip' next' hg htable hrep => ?_⟩
  obtain ⟨inst', hi'⟩ := hrep.decodes
  obtain ⟨h0, -, hin⟩ := readInst_lt hi'
  rw [printInst, readInst_copy h htable.size h0 hin hrep.length hrep.bytes, ok_bind]
  exact bind_eq_ok.mpr ⟨text, (printerFunctor_inFrontOf hown).trans (ht g hg htable), rfl⟩

/-! ### Other files with the same string table -/

/-- A file with the string table of `f` and this code section. -/
def withCode (f : Bytefile) (code : List UInt8) : Bytefile where
  bytes := intBytes (toSize f.stringtabSize) ++ intBytes 0 ++ intBytes 0 ++ (tableFrom f 0 ++ code)
  size := 32 + f.stringtabSize + code.length
  stringPtr := 0
  codePtr := f.stringtabSize
  stringtabSize := f.stringtabSize
  globalAreaSize := 0
  publicSymbolsNumber := 0

/-- The bytes of the code section from `ip` up to `next`. -/
def codeBytes (f : Bytefile) (ip next : ℤ) : List UInt8 :=
  (f.bytes.drop (f.codePtr + ip + 12).toNat).take (next - ip).toNat

theorem bufferByte_withCode {o : ℤ} (code : List UInt8) (h : 0 ≤ o) :
    (withCode f code).bufferByte o = (tableFrom f 0 ++ code)[o.toNat]? := by
  have hlen : (intBytes (toSize f.stringtabSize) ++ intBytes 0 ++ intBytes 0).length = 12 := rfl
  rw [bufferByte_eq h]
  simp only [withCode]
  rw [List.getElem?_append_right (by omega), hlen, show (o + 12).toNat - 12 = o.toNat by omega]

section
variable (hf : Laid f)
include hf

theorem length_tableFrom : ((tableFrom f 0).length : ℤ) = f.stringtabSize := by
  have hstart := hf.table_start
  have hnonneg := hf.table_nonneg
  have htable := hf.table
  have hcode := hf.placed.code
  have hsize := hf.placed.code_nonneg
  rw [tableFrom, List.length_take, List.length_drop]
  omega

theorem length_withCode (code : List UInt8) :
    ((withCode f code).bytes.length : ℤ) = 12 + f.stringtabSize + code.length := by
  have := length_tableFrom hf
  simp only [withCode, List.length_append, intBytes, List.length_cons, List.length_nil]
  omega

theorem codeByte_withCode {o : ℤ} (code : List UInt8) (h : 0 ≤ o) :
    (withCode f code).codeByte o = code[o.toNat]? := by
  have hlen := length_tableFrom hf
  have hnonneg := hf.table_nonneg
  have hptr : (withCode f code).codePtr = f.stringtabSize := rfl
  rw [Bytefile.codeByte, hptr, bufferByte_withCode code (by omega), List.getElem?_append_right (by omega),
    show (f.stringtabSize + o).toNat - (tableFrom f 0).length = o.toNat by omega]

theorem laid_withCode {code : List UInt8} (h : code.length < 2 ^ 31) : Laid (withCode f code) where
  placed := {
    start := hf.table_nonneg
    size := by
      rw [length_withCode hf]
      simp only [withCode]
      omega
    code := by
      rw [length_withCode hf]
      refine (toInt32_of_isInt ?_).trans ?_ <;> simp only [IsInt, withCode, sizeofBytefile] <;> omega
    code_nonneg := by
      rw [getCodeSize, toInt32_of_isInt] <;> simp only [IsInt, withCode, sizeofBytefile] <;> omega }
  table := (Int.zero_add _).symm
  table_start := le_rfl
  table_nonneg := hf.table_nonneg

theorem sameTable_withCode (code : List UInt8) : SameTable f (withCode f code) where
  size := rfl
  bytes := by
    intro k h0 hlt
    have hlen := length_tableFrom hf
    have hptr : (withCode f code).stringPtr + k = k := Int.zero_add k
    have hk := tableFrom_getElem? hf le_rfl (k := k.toNat)
    rw [Int.zero_add, Int.toNat_of_nonneg h0, if_pos hlt] at hk
    rw [hptr, bufferByte_withCode code h0, List.getElem?_append_left (by omega), hk]

/-- A string that does not end in the table goes on in the code. -/
theorem stringText_withCode {code : List UInt8} (hcode : code.length < 2 ^ 31) (hpos : 0 ≤ pos)
    (hlt : pos < f.stringtabSize) (hends : ¬ EndsInTable f pos) (ht : untilNul code = some text) :
    stringText (withCode f code) ((withCode f code).stringPtr + pos) = .ok (tableFrom f pos ++ text) := by
  have hg := laid_withCode hf hcode
  have htable := sameTable_withCode hf code
  have hlen := length_tableFrom hf
  have hdrop : (withCode f code).bytes.drop ((withCode f code).codePtr + 12).toNat = code := by
    simp only [withCode]
    rw [← List.append_assoc, List.drop_left' ?_]
    simp only [List.length_append, intBytes, List.length_cons, List.length_nil]
    omega
  rw [endsInTable_iff hf hpos] at hends
  rw [stringText_eq (by simp only [withCode]; omega), drop_eq_tableFrom hg hpos hlt, hdrop,
    htable.tableFrom_eq hf hg hpos, untilNul_append_of_notMem _ hends, ht]
  rfl

variable (h : readInst f ip = .ok (inst, next))
include h

theorem next_sub_lt : next - ip < 2 ^ 31 := by
  obtain ⟨h0, -, hin⟩ := readInst_lt h
  have hsize := hf.placed.size
  have hcode := hf.placed.code
  obtain ⟨-, hlt⟩ := toInt32_isInt (f.size - (sizeofBytefile + f.codePtr))
  rw [← getCodeSize] at hlt
  simp only [InCode, sizeofBytefile] at hin
  omega

theorem length_codeBytes : ((codeBytes f ip next).length : ℤ) = next - ip := by
  obtain ⟨h0, hlt, hin⟩ := readInst_lt h
  have hstart := hf.placed.start
  have hsize := hf.placed.size
  simp only [InCode, sizeofBytefile] at hin
  rw [codeBytes, List.length_take, List.length_drop]
  omega

/-- The instruction is decoded where its bytes are the end of a code section. -/
theorem readInst_withCode (before : List UInt8) :
    readInst (withCode f (before ++ codeBytes f ip next)) before.length =
      .ok (inst.inFrontOf (before.length + (next - ip)), before.length + (next - ip)) ∧
    Repeats f (withCode f (before ++ codeBytes f ip next)) ip next before.length
      (before.length + (next - ip)) := by
  have hlen := length_codeBytes hf h
  obtain ⟨h0, -, -⟩ := readInst_lt h
  have hstart := hf.placed.start
  have hbytes : ∀ k, 0 ≤ k → k < next - ip →
      (withCode f (before ++ codeBytes f ip next)).codeByte (before.length + k) = f.codeByte (ip + k) := by
    intro k hk hlt
    rw [codeByte_withCode hf _ (by omega), List.getElem?_append_right (by omega), codeBytes,
      List.getElem?_take,
      if_pos (by omega), List.getElem?_drop, Bytefile.codeByte, bufferByte_eq (by omega)]
    congr 1
    omega
  have hin : InCode (withCode f (before ++ codeBytes f ip next)) (before.length + (next - ip)) := by
    simp only [InCode, withCode, sizeofBytefile, List.length_append]
    omega
  have hread := readInst_copy h (sameTable_withCode hf _).size (Int.natCast_nonneg before.length) hin
    (by omega) hbytes
  exact ⟨hread, ⟨_, hread⟩, by omega, hbytes⟩

/-- What is printed there. -/
theorem PrintsSame.text_withCode (hsame : PrintsSame f ip next) : ∃ text, ∀ before : List UInt8,
    before.length + (next - ip) < 2 ^ 31 → printerFunctor (withCode f (before ++ codeBytes f ip next))
      (inst.inFrontOf (before.length + (next - ip))) = .ok text := by
  obtain ⟨text, ht⟩ := hsame
  refine ⟨text, fun before hlt => ?_⟩
  obtain ⟨hread, hrep⟩ := readInst_withCode hf h before
  have hlen := length_codeBytes hf h
  have hprint := ht _ _ _ (laid_withCode hf (by rw [List.length_append]; omega))
    (sameTable_withCode hf _) hrep
  rw [printInst, hread, ok_bind] at hprint
  obtain ⟨text', ht', heq⟩ := bind_eq_ok.mp hprint
  cases heq
  exact ht'

end

/-- A string that is not ended by the table has one text in front of a NUL and another one in front of
    the character 1. -/
theorem PrintsSame.endsInTable (hf : Laid f) (h : readInst f ip = .ok (inst, next))
    (hsame : PrintsSame f ip next)
    (hmem : .string pos ∈ inst.operands) {operands : List Text}
    (hprint : ∀ g next', printerFunctor g (inst.inFrontOf next') =
      stringText g (g.stringPtr + pos) >>= fun text => .ok (genericText inst (text :: operands))) :
    EndsInTable f pos := by
  by_contra hends
  obtain ⟨text, ht⟩ := hsame.text_withCode hf h
  obtain ⟨hpos, hlt⟩ := readInst_string h hmem
  have hlen := length_codeBytes hf h
  have hshort := readInst_string_length h hmem
  have htext : ∀ (before : List UInt8) (rest : Text), before.length ≤ 2 →
      untilNul (before ++ codeBytes f ip next) = some rest →
      genericText inst ((tableFrom f pos ++ rest) :: operands) = text := by
    intro before rest hbefore hrest
    have hfunctor := ht before (by omega)
    rw [hprint, stringText_withCode hf (by rw [List.length_append]; omega) hpos hlt hends hrest,
      ok_bind] at hfunctor
    exact Except.ok.inj hfunctor
  have hzero := htext [0] [] (by decide) rfl
  have hone := htext [1, 0] [1] (by decide) rfl
  rw [← hone] at hzero
  simp [genericText] at hzero

/-- The text of an instruction depends on the instruction and the string table alone if and only if
    its operands are all that is printed: it is no `CALLC`, it has no captured variable of an unknown
    kind, and no string that goes on after the string table. -/
theorem prints_alone_iff (hf : Laid f) (h : readInst f ip = .ok (inst, next)) :
    PrintsSame f ip next ↔ PrintsOwn f inst := by
  refine ⟨fun hsame => ?_, fun hown => hown.printsSame hf h⟩
  cases inst with
  | callc r argc =>
    -- in a file that ends with the instruction nothing follows it
    obtain ⟨text, ht⟩ := hsame.text_withCode hf h
    have hprint := ht [] (by simpa using next_sub_lt hf h)
    obtain ⟨text', htext, -⟩ := bind_eq_ok.mp hprint
    have hlen := length_codeBytes hf h
    have htable := hf.table_nonneg
    have hbytes := length_withCode hf (codeBytes f ip next)
    have hend : (withCode f (codeBytes f ip next)).bytes.drop (f.stringtabSize + (next - ip) + 12).toNat =
      [] :=
      List.drop_eq_nil_of_le (by omega)
    have hptr : (withCode f ([] ++ codeBytes f ip next)).codePtr + (([] : List UInt8).length + (next - ip)) =
        f.stringtabSize + (next - ip) := congrArg (f.stringtabSize + ·) (Int.zero_add _)
    rw [hptr, List.nil_append, stringText_eq (by omega), hend] at htext
    cases htext
  | closure entry args =>
    obtain ⟨text, ht⟩ := hsame.text_withCode hf h
    have hprint := ht [] (by simpa using next_sub_lt hf h)
    obtain ⟨text', htext, -⟩ := bind_eq_ok.mp hprint
    exact exists_capturesText.mp ⟨text', htext⟩
  | string pos => exact hsame.endsInTable hf h (List.mem_singleton_self _) fun _ _ => rfl
  | sexp pos argc | tag pos argc => exact hsame.endsInTable hf h List.mem_cons_self fun _ _ => rfl
  | _ => trivial

theorem prints_alone_iff_loopCode :
    PrintsSame (program 0 loopCode) 9 14 ↔ PrintsOwn (program 0 loopCode) (.cjmpz 19) :=
  prints_alone_iff ⟨⟨by decide, by decide, by decide, by decide⟩, by decide, by decide, by decide⟩
    (by decide +kernel)

/-- `CALLC 0; END` and `CALLC 0; RET`, each with a byte 0 after it. -/
def calledThenEnds : Bytefile := program 0 (85 :: intBytes 0 ++ [22, 0])
def calledThenReturns : Bytefile := program 0 (85 :: intBytes 0 ++ [23, 0])

/-- A `CLOSURE` with one captured variable of kind 5. -/
def oddClosure : Bytefile := program 0 (84 :: intBytes 0 ++ intBytes 1 ++ 5 :: intBytes 0)

theorem calledThenReturns_repeats : Repeats calledThenEnds calledThenReturns 0 5 0 5 where
  decodes := ⟨.callc 5 0, by decide +kernel⟩
  length := rfl
  bytes := by
    intro k h0 hlt
    have hcases : k = 0 ∨ k = 1 ∨ k = 2 ∨ k = 3 ∨ k = 4 := by omega
    rcases hcases with rfl | rfl | rfl | rfl | rfl <;> rfl

theorem calledThenReturns_sameTable : SameTable calledThenEnds calledThenReturns where
  size := rfl
  bytes := by
    intro k h0 hlt
    have hlt : k < 5 := hlt
    have hcases : k = 0 ∨ k = 1 ∨ k = 2 ∨ k = 3 ∨ k = 4 := by omega
    rcases hcases with rfl | rfl | rfl | rfl | rfl <;> rfl

/-- The same `CALLC` has different texts in two files with one string table, and at the end of a file
    it has none; nor has a captured variable of an unknown kind. -/
theorem text_depends : printInst calledThenEnds 0 = .ok (ascii "CALLC\t\x16 0 ", 5) ∧
    printInst calledThenReturns 0 = .ok (ascii "CALLC\t\x17 0 ", 5) ∧ ¬ PrintsSame calledThenEnds 0 5 ∧
    printInst (program 0 (85 :: intBytes 0)) 0 = .error (.undefined "operator<<") ∧
    printInst oddClosure 0 = .error (.undefined "locations") := by
  have hends : printInst calledThenEnds 0 = .ok (ascii "CALLC\t\x16 0 ", 5) := by decide +kernel
  have hreturns : printInst calledThenReturns 0 = .ok (ascii "CALLC\t\x17 0 ", 5) := by decide +kernel
  refine ⟨hends, hreturns, ?_, by decide +kernel, by decide +kernel⟩
  rintro ⟨text, ht⟩
  have h1 := ht calledThenEnds 0 5 ⟨⟨by decide, by decide, by decide, by decide⟩, by decide,
    by decide, by decide⟩
    ⟨rfl, fun _ _ _ => rfl⟩ ⟨⟨.callc 5 0, by decide +kernel⟩, rfl, fun _ _ _ => rfl⟩
  have h2 := ht calledThenReturns 0 5
    ⟨⟨by decide, by decide, by decide, by decide⟩, by decide, by decide, by decide⟩
    calledThenReturns_sameTable calledThenReturns_repeats
  rw [hends] at h1
  rw [hreturns, ← h1] at h2
  revert h2
  decide

end Lama

import BytecodeMachine.Proofs.Decoding.Assembled
import BytecodeMachine.Proofs.Decoding.Tiling

/-!
# What a listing tells

Every line of a listing consists of words with single blanks between them, and its words settle the
item. So the text settles all items, and these give the code back if no instruction is cut off.
-/

namespace BytecodeMachine

section Intercalate

variable {c : Char} {separator : String} {words words' : List String}

theorem splitOn_intercalate_words (hc : separator.toList = [c])
    (hwords : ∀ word ∈ words, c ∉ word.toList) (hne : words ≠ []) :
    (separator.intercalate words).toList.splitOn c = words.map String.toList := by
  rw [String.toList_intercalate, hc]
  refine List.splitOn_intercalate c (fun word hword => ?_) (List.map_eq_nil_iff.not.mpr hne)
  obtain ⟨word, hmem, rfl⟩ := List.mem_map.mp hword
  exact hwords word hmem

/-- Where no part contains the separator, the text settles the parts. -/
theorem eq_of_intercalate_eq (hc : separator.toList = [c])
    (hwords : ∀ word ∈ words, c ∉ word.toList) (hne : words ≠ [])
    (hwords' : ∀ word ∈ words', c ∉ word.toList) (hne' : words' ≠ [])
    (h : separator.intercalate words = separator.intercalate words') : words = words' := by
  have hsplit := splitOn_intercalate_words hc hwords hne
  rw [h, splitOn_intercalate_words hc hwords' hne'] at hsplit
  exact (List.map_inj_right fun _ _ => String.toList_injective).mp hsplit.symm

/-- Between parts without the separator there is one separator less than there are parts. -/
theorem count_intercalate (hc : separator.toList = [c])
    (hwords : ∀ word ∈ words, c ∉ word.toList) (hne : words ≠ []) :
    (separator.intercalate words).toList.count c + 1 = words.length := by
  induction words with
  | nil => exact absurd rfl hne
  | cons word words ih =>
    rw [List.forall_mem_cons] at hwords
    cases words with
    | nil =>
      rw [String.intercalate_singleton, List.count_eq_zero_of_not_mem hwords.1]
      rfl
    | cons next words =>
      rw [String.intercalate_cons_cons, String.toList_append, String.toList_append, hc,
        List.count_append, List.count_append, List.count_eq_zero_of_not_mem hwords.1,
        List.count_singleton_self, List.length_cons, ← ih hwords.2 (List.cons_ne_nil _ _)]
      omega

end Intercalate

/-- Lines that are each ended are cut apart again at their ends. -/
theorem splitOn_join_lines {lines : List String} (h : ∀ line ∈ lines, '\n' ∉ line.toList) :
    (String.join (lines.map (· ++ "\n"))).toList.splitOn '\n' =
      lines.map String.toList ++ [[]] := by
  have hjoin : (String.join (lines.map (· ++ "\n"))).toList =
      ['\n'].intercalate (lines.map String.toList ++ [[]]) := by
    clear h
    induction lines with
    | nil => rfl
    | cons line lines ih =>
      rw [String.toList_join] at ih ⊢
      rw [List.map_cons, List.flatMap_cons, ih, String.toList_append, List.map_cons]
      cases lines <;> simp only [List.map_nil, List.map_cons, List.nil_append, List.cons_append,
        List.intercalate_cons_cons] <;> rfl
  rw [hjoin]
  refine List.splitOn_intercalate '\n' (fun line hline => ?_) (by simp)
  rcases List.mem_append.mp hline with hline | hline
  · obtain ⟨line, hmem, rfl⟩ := List.mem_map.mp hline
    exact h line hmem
  · rw [List.mem_singleton.mp hline]
    exact List.not_mem_nil

theorem toString_injective {m n : Nat} (h : toString m = toString n) : m = n := by
  rw [Nat.toString_eq_ofList_toDigits, Nat.toString_eq_ofList_toDigits] at h
  rw [← Nat.ofDigitChars_ten_toDigits (n := m), String.ofList_injective h,
    Nat.ofDigitChars_ten_toDigits]

theorem ofDigitChars_replicate_zero (k : Nat) (digits : List Char) :
    Nat.ofDigitChars 10 (List.replicate k '0' ++ digits) 0 = Nat.ofDigitChars 10 digits 0 := by
  induction k with
  | zero => rfl
  | succ k ih => exact ih

/-- Zeros in front do not change the number that digits denote. -/
theorem padded_injective {m n : Nat} (h : padded m = padded n) : m = n := by
  have value (k : Nat) : Nat.ofDigitChars 10 (padded k).toList 0 = k := by
    rw [padded_eq, String.toList_ofList, List.leftpad, ofDigitChars_replicate_zero,
      Nat.ofDigitChars_ten_toDigits]
  rw [← value m, h, value]

theorem isDigit_of_mem_toDigits {n : Nat} {c : Char} (h : c ∈ Nat.toDigits 10 n) :
    c.isDigit = true :=
  Nat.isDigit_of_mem_toDigits (by decide) (Nat.le_refl 10) h

theorem isDigit_of_mem_padded {n : Nat} {c : Char} (h : c ∈ (padded n).toList) :
    c.isDigit = true := by
  rw [padded_eq, String.toList_ofList, List.leftpad, List.mem_append] at h
  rcases h with h | h
  · obtain ⟨-, rfl⟩ := List.mem_replicate.mp h
    rfl
  · exact isDigit_of_mem_toDigits h

theorem Opcode.find?_name (op : Opcode) : all.find? (·.name == op.name) = some op := by
  cases op <;> decide +kernel

theorem Opcode.name_injective {op op' : Opcode} (h : op.name = op'.name) : op = op' := by
  have hfind := op.find?_name
  rw [h, op'.find?_name] at hfind
  exact (Option.some.inj hfind).symm

/-- All characters come behind the blank, so there are neither blanks nor line ends. -/
def IsWord (text : String) : Prop := ∀ c ∈ text.toList, ' '.toNat < c.toNat

instance : DecidablePred IsWord := fun text =>
  @List.decidableBAll Char (fun c => ' '.toNat < c.toNat) (fun _ => Nat.decLt _ _) text.toList

theorem IsWord.not_mem {text : String} (h : IsWord text) {c : Char}
    (hc : c.toNat ≤ ' '.toNat) : c ∉ text.toList :=
  fun hmem => absurd (h c hmem) (Nat.not_lt.mpr hc)

theorem isWord_of_isDigit {text : String} (h : ∀ c ∈ text.toList, c.isDigit = true) :
    IsWord text := by
  intro c hc
  have hdigit := h c hc
  rw [Char.isDigit, Bool.and_eq_true, decide_eq_true_eq] at hdigit
  have hblank : ' '.toNat < '0'.toNat := by decide
  exact Nat.lt_of_lt_of_le hblank (UInt32.le_iff_toNat_le.mp hdigit.1)

theorem isWord_toString (n : Nat) : IsWord (toString n) := by
  refine isWord_of_isDigit fun c hc => ?_
  rw [Nat.toString_eq_ofList_toDigits, String.toList_ofList] at hc
  exact isDigit_of_mem_toDigits hc

theorem Opcode.isWord_name (op : Opcode) : IsWord op.name := by
  cases op <;> decide

namespace CodeError

def words : CodeError → List String
  | undefinedOpcode byte => ["opcode", toString byte.toNat, "undefined"]
  | operandCount op expected got =>
    ["operand", "len", toString got, "does", "not", "match", "defined", toString expected, "for",
      op.name]
  | operandTooLarge op operand width =>
    ["operand", toString operand, "does", "not", "fit", "in", toString width, "byte(s)", "for",
      op.name]
  | truncated op expected available =>
    [op.name, "needs", toString expected, "operand", "byte(s)", "but", "only", toString available,
      "remain"]

theorem message_eq (e : CodeError) : e.message = " ".intercalate e.words := by
  apply String.toList_injective
  -- The equations of `message` would be slow to derive.
  cases e <;> delta message words <;>
    simp only [String.intercalate_cons_cons, String.intercalate_singleton, String.toList_append,
      List.append_assoc] <;>
    rfl

theorem isWord_of_mem_words (e : CodeError) : ∀ word ∈ e.words, IsWord word := by
  have number := isWord_toString
  cases e with
  | undefinedOpcode byte =>
    simp only [words, List.forall_mem_cons]
    exact ⟨by decide, number _, by decide, nofun⟩
  | operandCount op expected got =>
    simp only [words, List.forall_mem_cons]
    exact ⟨by decide, by decide, number _, by decide, by decide, by decide, by decide, number _,
      by decide, op.isWord_name, nofun⟩
  | operandTooLarge op operand width =>
    simp only [words, List.forall_mem_cons]
    exact ⟨by decide, number _, by decide, by decide, by decide, by decide, number _, by decide,
      by decide, op.isWord_name, nofun⟩
  | truncated op expected available =>
    simp only [words, List.forall_mem_cons]
    exact ⟨op.isWord_name, by decide, number _, by decide, by decide, by decide, by decide,
      number _, by decide, nofun⟩

theorem words_injective {e e' : CodeError} (h : e.words = e'.words) : e = e' := by
  cases e with
  | undefinedOpcode byte =>
    cases e' with
    | undefinedOpcode byte' =>
      simp only [words, List.cons.injEq, true_and, and_true] at h
      rw [UInt8.toNat_inj.mp (toString_injective h)]
    | _ => simp [words] at h
  | operandCount op expected got =>
    cases e' with
    | operandCount op' expected' got' =>
      simp only [words, List.cons.injEq, true_and, and_true] at h
      obtain ⟨hgot, hexpected, hname⟩ := h
      rw [toString_injective hgot, toString_injective hexpected, Opcode.name_injective hname]
    | _ => simp [words] at h
  | operandTooLarge op operand width =>
    cases e' with
    | operandTooLarge op' operand' width' =>
      simp only [words, List.cons.injEq, true_and, and_true] at h
      obtain ⟨hoperand, hwidth, hname⟩ := h
      rw [toString_injective hoperand, toString_injective hwidth, Opcode.name_injective hname]
    | _ => simp [words] at h
  | truncated op expected available =>
    cases e' with
    | truncated op' expected' available' =>
      simp only [words, List.cons.injEq, true_and, and_true] at h
      obtain ⟨hname, hexpected, havailable⟩ := h
      rw [Opcode.name_injective hname, toString_injective hexpected,
        toString_injective havailable]
    | _ => simp [words] at h

end CodeError

namespace Item

def words : Item → List String
  | .ok p => padded p.offset :: p.instruction.opcode.name :: p.instruction.operands.map toString
  | .error e => "ERROR:" :: e.words

theorem words_ne_nil (item : Item) : item.words ≠ [] := by
  cases item <;> exact List.cons_ne_nil _ _

theorem line_eq (item : Item) : item.line = " ".intercalate item.words := by
  cases item with
  | ok p => rw [line_ok, Placed.line, words, padded_eq]
  | error e =>
    have hline : Item.line (.error e) = "ERROR:" ++ " " ++ e.message := rfl
    have hwords : e.words ≠ [] := by cases e <;> exact List.cons_ne_nil _ _
    obtain ⟨word, rest, heq⟩ := List.exists_cons_of_ne_nil hwords
    rw [hline, e.message_eq, words, heq, String.intercalate_cons_cons]

theorem isWord_of_mem_words (item : Item) : ∀ word ∈ item.words, IsWord word := by
  cases item with
  | ok p =>
    simp only [words, List.forall_mem_cons, List.forall_mem_map]
    exact ⟨isWord_of_isDigit fun c => isDigit_of_mem_padded, Opcode.isWord_name _,
      fun n _ => isWord_toString n⟩
  | error e => exact List.forall_mem_cons.mpr ⟨by decide, e.isWord_of_mem_words⟩

theorem words_injective {item item' : Item} (h : item.words = item'.words) : item = item' := by
  have offset_ne (n : Nat) : padded n ≠ "ERROR:" := by
    intro h
    have hmem : 'E' ∈ (padded n).toList := by
      rw [h]
      decide
    exact absurd (isDigit_of_mem_padded hmem) (by decide)
  cases item with
  | ok p =>
    cases item' with
    | ok p' =>
      obtain ⟨offset, op, operands⟩ := p
      obtain ⟨offset', op', operands'⟩ := p'
      simp only [words, List.cons.injEq] at h
      obtain ⟨hoffset, hname, hoperands⟩ := h
      rw [padded_injective hoffset, Opcode.name_injective hname,
        (List.map_inj_right fun _ _ => toString_injective).mp hoperands]
    | error e' => exact absurd (List.cons.inj h).1 (offset_ne _)
  | error e =>
    cases item' with
    | ok p' => exact absurd (List.cons.inj h).1.symm (offset_ne _)
    | error e' => rw [CodeError.words_injective (List.cons.inj h).2]

theorem blank_not_mem_words (item : Item) : ∀ word ∈ item.words, ' ' ∉ word.toList :=
  fun word hword => (item.isWord_of_mem_words word hword).not_mem (Nat.le_refl _)

/-- No two items have the same line. -/
theorem line_injective {item item' : Item} (h : item.line = item'.line) : item = item' := by
  rw [line_eq, line_eq] at h
  exact words_injective (eq_of_intercalate_eq rfl item.blank_not_mem_words item.words_ne_nil
    item'.blank_not_mem_words item'.words_ne_nil h)

/-- A line has one blank less than it has words. -/
theorem count_blank_line (item : Item) : item.line.toList.count ' ' + 1 = item.words.length := by
  rw [line_eq]
  exact count_intercalate rfl item.blank_not_mem_words item.words_ne_nil

theorem lineEnd_not_mem_line (item : Item) : '\n' ∉ item.line.toList := by
  rw [line_eq]
  exact not_mem_intercalate (by decide) fun word hword =>
    (item.isWord_of_mem_words word hword).not_mem (by decide)

end Item

/-- The text of an instruction, which reports a wrong number of operands instead of listing them. -/
def Instruction.checkedText (i : Instruction) : String :=
  if i.operands.length ≠ i.opcode.widths.length then
    Item.line (.error (.operandCount i.opcode i.opcode.widths.length i.operands.length))
  else i.text

def Item.checkedLine : Item → String
  | .ok p => padded p.offset ++ " " ++ p.instruction.checkedText
  | .error e => Item.line (.error e)

theorem Opcode.length_widths_le (op : Opcode) : op.widths.length ≤ 2 := by
  cases op <;> decide

namespace Code

variable {code other : Code} {start stop : Nat} {item : Item}

theorem Spans.count_operands {p : Placed} (h : code.Spans start (.ok p) stop) :
    p.instruction.operands.length = p.instruction.opcode.widths.length := by
  cases h with
  | instruction inside encoded => exact (Instruction.encode_eq_ok encoded).1

theorem Spans.checkedLine_eq (h : code.Spans start item stop) : item.checkedLine = item.line := by
  cases item with
  | ok p =>
    rw [Item.checkedLine, Instruction.checkedText, if_neg (not_not.mpr h.count_operands), Item.line]
  | error e => rfl

theorem Spans.length_words_le (h : code.Spans start item stop) : item.words.length ≤ 10 := by
  cases h with
  | @instruction i inside encoded =>
    have hcount := (Instruction.encode_eq_ok encoded).1
    have hwidths := i.opcode.length_widths_le
    simp only [Item.words, List.length_cons, List.length_map]
    omega
  | undefined found beyond => exact (by decide : 4 ≤ 10)
  | truncated found short => exact Nat.le_refl 10

/-- The report of a wrong number of operands has more words than any line. -/
theorem Spans.not_infix (h : code.Spans start item stop) (op : Opcode) (expected got : Nat) :
    ¬(Item.line (.error (.operandCount op expected got))).toList <:+: item.line.toList := by
  intro hinfix
  have hcount := hinfix.sublist.count_le ' '
  have hreport := Item.count_blank_line (.error (.operandCount op expected got))
  have hline := item.count_blank_line
  have hwords := h.length_words_le
  simp only [Item.words, CodeError.words, List.length_cons, List.length_nil] at hreport
  omega

theorem exists_spans_of_mem_items (h : item ∈ code.items) :
    ∃ start stop, code.Spans start item stop := by
  obtain ⟨start, stop, -, found⟩ := mem_items_iff.mp h
  exact ⟨start, stop, spans_of_next? found⟩

theorem splitOn_listing (code : Code) :
    code.listing.toList.splitOn '\n' =
      code.items.toList.map (fun item => item.line.toList) ++ [[]] := by
  have unbroken : ∀ line ∈ code.lines, '\n' ∉ line.toList := by
    rw [lines, List.forall_mem_map]
    exact fun item _ => item.lineEnd_not_mem_line
  rw [listing_eq_join, splitOn_join_lines unbroken, lines, List.map_map]
  rfl

theorem items_eq_of_listing_eq (h : code.listing = other.listing) : code.items = other.items := by
  have hlines := code.splitOn_listing
  rw [h, splitOn_listing, List.append_left_inj] at hlines
  refine Array.toList_inj.mp ((List.map_inj_right fun _ _ heq => ?_).mp hlines).symm
  exact Item.line_injective (String.toList_injective heq)

/-- No instruction is cut off. -/
def Whole (code : Code) : Prop :=
  ∀ op expected available, .error (.truncated op expected available) ∉ code.items

theorem eq_of_items_eq (whole : code.Whole) (whole' : other.Whole)
    (h : code.items = other.items) : code = other := by
  have parts {c : Code} (hc : c.Whole) := c.tiledBy_items.exists_parts fun op expected available =>
    Array.mem_toList_iff.not.mpr (hc op expected available)
  obtain ⟨bytes, hbytes, hcode⟩ := parts whole
  obtain ⟨bytes', hbytes', hother⟩ := parts whole'
  rw [h, hbytes'] at hbytes
  rw [← hcode, ← hother, Except.ok.inj hbytes]

/-- What the text of a listing tells of the code. -/
structure Legible (code : Code) : Prop where
  /-- The text has one line for each item, and nothing follows the last line end. -/
  splitOn_listing : code.listing.toList.splitOn '\n' =
    code.items.toList.map (fun item => item.line.toList) ++ [[]]
  /-- The number of operands need not be checked. -/
  checkedLine_eq : ∀ item ∈ code.items, item.checkedLine = item.line
  /-- No line reports a wrong number of operands. -/
  not_infix : ∀ item ∈ code.items, ∀ op expected got,
    ¬(Item.line (.error (.operandCount op expected got))).toList <:+: item.line.toList
  items_eq_of_listing_eq : ∀ other : Code, code.listing = other.listing → code.items = other.items
  /-- Where no instruction is cut off, the text settles the code. -/
  eq_of_listing_eq : ∀ other : Code, code.Whole → other.Whole → code.listing = other.listing →
    code = other

theorem listing_legible (code : Code) : code.Legible where
  splitOn_listing := code.splitOn_listing
  checkedLine_eq item h := by
    obtain ⟨start, stop, spans⟩ := exists_spans_of_mem_items h
    exact spans.checkedLine_eq
  not_infix item h := by
    obtain ⟨start, stop, spans⟩ := exists_spans_of_mem_items h
    exact spans.not_infix
  items_eq_of_listing_eq other := items_eq_of_listing_eq
  eq_of_listing_eq other whole whole' h := eq_of_items_eq whole whole' (items_eq_of_listing_eq h)

/-- An instruction that is cut off does not show its bytes. -/
example : Code.listing #[13, 1] = Code.listing #[13, 2] := by
  decide +kernel

end Code
end BytecodeMachine

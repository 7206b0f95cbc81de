import BytecodeMachine.Code.Listing
import BytecodeMachine.Proofs.Decoding.Items
import BytecodeMachine.Proofs.Decoding.Listed
import Mathlib.Data.List.Induction

/-!
# Assembled code

Instructions that are assembled stand one behind the other. So each begins where those before it end
together, and this is where it is found again when the code is listed.
-/

namespace BytecodeMachine

namespace Instruction

variable {is : List Instruction} {parts : List (List UInt8)}

/-- The instructions with the lengths of those before them, added up. -/
def placed (is : List Instruction) : List Placed :=
  is.mapIdx fun k i => ⟨totalLength (is.take k), i⟩

theorem placed_concat (is : List Instruction) (i : Instruction) :
    placed (is ++ [i]) = placed is ++ [⟨totalLength is, i⟩] := by
  have hbefore : is.mapIdx (fun k j => (⟨totalLength ((is ++ [i]).take k), j⟩ : Placed)) =
      placed is := by
    refine List.mapIdx_eq_mapIdx_iff.mpr fun k hk => ?_
    rw [List.take_append_of_le_length (Nat.le_of_lt hk)]
  rw [placed, List.mapIdx_concat, hbefore, List.take_left]

theorem totalLength_concat (is : List Instruction) (i : Instruction) :
    totalLength (is ++ [i]) = totalLength is + i.length :=
  totalLength_append is [i]

theorem exists_parts (h : ∀ i ∈ is, ∃ bytes, i.encode = .ok bytes) :
    ∃ parts, is.mapM encode = .ok parts ∧ is.map encode = parts.map .ok := by
  induction is with
  | nil => exact ⟨[], rfl, rfl⟩
  | cons i is ih =>
    obtain ⟨bytes, hfirst⟩ := h i List.mem_cons_self
    obtain ⟨parts, hmapM, hmap⟩ := ih fun j hj => h j (List.mem_cons_of_mem i hj)
    refine ⟨bytes :: parts, ?_, ?_⟩
    · rw [List.mapM_cons, hfirst, hmapM]
      rfl
    · rw [List.map_cons, List.map_cons, hfirst, hmap]

theorem lengths_of_map_encode (h : is.map encode = parts.map .ok) :
    parts.map List.length = is.map length := by
  induction is generalizing parts with
  | nil =>
    obtain rfl := List.map_eq_nil_iff.mp h.symm
    rfl
  | cons i is ih =>
    obtain ⟨bytes, parts, rfl, hfirst, hrest⟩ := List.map_eq_cons_iff.mp h.symm
    rw [List.map_cons, List.map_cons, length_of_encode hfirst.symm, ih hrest.symm]

end Instruction

/-- Where the instruction starts and where it ends. -/
def Placed.extent (p : Placed) : Extent := ⟨p.offset, p.offset + p.instruction.length⟩

namespace Code

variable {code : Code} {is : List Instruction} {parts : List (List UInt8)}

theorem size_ofParts (h : parts.map List.length = is.map Instruction.length) :
    (ofParts parts).size = Instruction.totalLength is := by
  induction is generalizing parts with
  | nil =>
    obtain rfl := List.map_eq_nil_iff.mp h
    rfl
  | cons i is ih =>
    obtain ⟨bytes, parts, rfl, hfirst, hrest⟩ := List.map_eq_cons_iff.mp h
    have ih := ih hrest
    simp only [ofParts, List.size_toArray] at ih ⊢
    rw [List.flatten_cons, List.length_append, hfirst, ih, Instruction.totalLength]

theorem ofParts_concat (parts : List (List UInt8)) (bytes : List UInt8) :
    ofParts (parts ++ [bytes]) = ofParts parts ++ bytes := by
  simp [ofParts]

theorem emitPiece_of_encode {piece : Piece} {bytes : List UInt8} (h : piece.encode = .ok bytes) :
    code.emitPiece piece = (.ok ⟨code.size, (code ++ bytes).size⟩, code ++ bytes) := by
  rw [emitPiece, h]
  rfl

theorem emitPieces_concat (code : Code) (pieces : List Piece) (piece : Piece) :
    code.emitPieces (pieces ++ [piece]) =
      ((code.emitPieces pieces).1.push ((code.emitPieces pieces).2.emitPiece piece).1,
        ((code.emitPieces pieces).2.emitPiece piece).2) := by
  rw [emitPieces, List.foldl_append]
  rfl

/-- However the parts are pushed, each starts where those before it end. -/
theorem emitPieces_of_encode {pieces : List Piece}
    (hpieces : pieces.map Piece.encode = parts.map .ok)
    (hlengths : parts.map List.length = is.map Instruction.length) :
    emitPieces #[] pieces =
      (((Instruction.placed is).map fun p => .ok p.extent).toArray, ofParts parts) := by
  induction is using List.reverseRecOn generalizing parts pieces with
  | nil =>
    obtain rfl := List.map_eq_nil_iff.mp hlengths
    obtain rfl := List.map_eq_nil_iff.mp hpieces
    rfl
  | append_singleton is i ih =>
    obtain ⟨parts, last, rfl, hbefore, hlast⟩ :=
      List.map_eq_append_iff.mp (hlengths.trans List.map_append)
    obtain ⟨bytes, rfl, -⟩ := List.map_eq_singleton_iff.mp hlast
    rw [List.map_append] at hpieces
    obtain ⟨pieces, last, rfl, hfront, hlast⟩ := List.map_eq_append_iff.mp hpieces
    obtain ⟨piece, rfl, hpiece⟩ := List.map_eq_singleton_iff.mp hlast
    have hsize := size_ofParts hbefore
    have hstop := size_ofParts hlengths
    rw [ofParts_concat, Instruction.totalLength_concat] at hstop
    rw [emitPieces_concat, ih hfront hbefore, emitPiece_of_encode hpiece, ofParts_concat, hstop,
      hsize, Instruction.placed_concat]
    simp [Placed.extent]

/-- After any number of the listed instructions, those behind them are left. -/
theorem Lists.items_eq (h : code.Lists 0 is) :
    code.items = code.itemsFrom (Instruction.totalLength is)
      ((Instruction.placed is).map .ok).toArray := by
  induction is using List.reverseRecOn with
  | nil => rfl
  | append_singleton is i ih =>
    obtain ⟨before, last⟩ := lists_append_iff.mp h
    rw [Nat.zero_add] at last
    cases last with
    | cons inside found rest =>
      rw [ih before, itemsFrom_of_next?_some (next?_of_ok found), Instruction.placed_concat,
        Instruction.totalLength_concat]
      simp

theorem items_of_lists (h : code.Lists 0 is) (hsize : code.size = Instruction.totalLength is) :
    code.items = ((Instruction.placed is).map .ok).toArray := by
  have hnone : code.next? (Instruction.totalLength is) = none := by
    rw [next?, dif_neg (by omega)]
  rw [h.items_eq, itemsFrom_of_next?_none hnone]

end Code

theorem intercalate_append_cons (separator before word : String) (words : List String) :
    separator.intercalate ((before ++ word) :: words) =
      before ++ separator.intercalate (word :: words) := by
  cases words with
  | nil => rfl
  | cons next words =>
    rw [String.intercalate_cons_cons, String.intercalate_cons_cons]
    simp only [String.append_assoc]

theorem Instruction.text_eq (i : Instruction) :
    i.text = " ".intercalate (i.opcode.name :: i.operands.map toString) := by
  rw [text]
  generalize i.opcode.name = before
  induction i.operands generalizing before with
  | nil => rfl
  | cons operand operands ih =>
    rw [List.foldl_cons, ih, List.map_cons, String.intercalate_cons_cons, String.append_assoc,
      ← intercalate_append_cons, ← intercalate_append_cons]
    rfl

theorem toList_pushn (s : String) (c : Char) (n : Nat) :
    (s.pushn c n).toList = s.toList ++ List.replicate n c := by
  induction n with
  | zero => simp [String.pushn, Nat.repeat]
  | succ n ih =>
    rw [String.pushn] at ih ⊢
    rw [Nat.repeat, String.toList_push, ih, List.replicate_succ', List.append_assoc]

theorem padded_eq (n : Nat) : padded n = String.ofList ((Nat.toDigits 10 n).leftpad 4 '0') := by
  apply String.toList_injective
  rw [padded, Nat.toString_eq_ofList_toDigits]
  simp [toList_pushn, List.leftpad]

/-- The offset in at least four digits, the name of the opcode and the operands, with single blanks
between them. -/
def Placed.line (p : Placed) : String :=
  " ".intercalate (String.ofList ((Nat.toDigits 10 p.offset).leftpad 4 '0') ::
    p.instruction.opcode.name :: p.instruction.operands.map toString)

theorem Item.line_ok (p : Placed) : Item.line (.ok p) = p.line := by
  rw [Item.line, Placed.line, ← padded_eq, Instruction.text_eq, String.intercalate_cons_cons]

theorem not_mem_intercalate {c : Char} {separator : String} {words : List String}
    (hseparator : c ∉ separator.toList) (h : ∀ word ∈ words, c ∉ word.toList) :
    c ∉ (separator.intercalate words).toList := by
  induction words with
  | nil => exact List.not_mem_nil
  | cons word words ih =>
    have hword := h word List.mem_cons_self
    have ih := ih fun other hother => h other (List.mem_cons_of_mem word hother)
    cases words with
    | nil => exact hword
    | cons next words =>
      rw [String.intercalate_cons_cons, String.toList_append, String.toList_append]
      simp only [List.mem_append, not_or]
      exact ⟨⟨hword, hseparator⟩, ih⟩

theorem lineEnd_not_mem_digits (n : Nat) : '\n' ∉ Nat.toDigits 10 n := by
  intro h
  have hdigit := Nat.isDigit_of_mem_toDigits (by decide) (Nat.le_refl 10) h
  exact absurd hdigit (by decide)

theorem Opcode.lineEnd_not_mem_name (op : Opcode) : '\n' ∉ op.name.toList := by
  cases op <;> decide

theorem Placed.lineEnd_not_mem_line (p : Placed) : '\n' ∉ p.line.toList := by
  refine not_mem_intercalate (by decide) fun word hword => ?_
  simp only [List.mem_cons, List.mem_map] at hword
  obtain rfl | rfl | ⟨operand, -, rfl⟩ := hword
  · rw [String.toList_ofList, List.leftpad]
    simp [lineEnd_not_mem_digits]
  · exact p.instruction.opcode.lineEnd_not_mem_name
  · rw [Nat.toString_eq_ofList_toDigits, String.toList_ofList]
    exact lineEnd_not_mem_digits operand

namespace Code

theorem listing_eq_join (code : Code) :
    code.listing = String.join (code.lines.map (· ++ "\n")) := by
  rw [listing, String.join, List.foldl_map]
  simp only [String.append_assoc]

/-- The instructions are written as the parts, and code of these parts is listed as them. -/
structure Assembles (is : List Instruction) (parts : List (List UInt8)) : Prop where
  encoded : is.mapM Instruction.encode = .ok parts
  lengths : parts.map List.length = is.map Instruction.length
  pushed : emitPieces #[] (parts.map .bytes) =
    (((Instruction.placed is).map fun p => .ok p.extent).toArray, ofParts parts)
  /-- Encoding each instruction just before it is pushed makes no difference. -/
  pushed_encoded : emitPieces #[] (is.map fun i => .instruction i.opcode.toByte i.operands) =
    emitPieces #[] (parts.map .bytes)
  items : (ofParts parts).items = ((Instruction.placed is).map .ok).toArray
  lines : (ofParts parts).lines = (Instruction.placed is).map Placed.line
  unbroken : ∀ line ∈ (ofParts parts).lines, '\n' ∉ line.toList
  listing : (ofParts parts).listing = String.join ((ofParts parts).lines.map (· ++ "\n"))

theorem exists_assembles (is : List Instruction) (h : ∀ i ∈ is, ∃ bytes, i.encode = .ok bytes) :
    ∃ parts, Assembles is parts := by
  obtain ⟨parts, hmapM, hmap⟩ := Instruction.exists_parts h
  have hlengths := Instruction.lengths_of_map_encode hmap
  have hbytes : (parts.map Piece.bytes).map Piece.encode = parts.map .ok := by
    rw [List.map_map]
    rfl
  have hencode : (is.map fun i => Piece.instruction i.opcode.toByte i.operands).map Piece.encode =
      parts.map .ok := by
    rw [List.map_map, ← hmap]
    refine List.map_congr_left fun i _ => ?_
    rw [Function.comp_apply, Piece.encode, Instruction.encodeRaw, Opcode.ofByte_toByte]
    rfl
  obtain ⟨lists, hsize⟩ := lists_ofParts hmapM
  have hitems := items_of_lists lists hsize
  have hlines : (ofParts parts).lines = (Instruction.placed is).map Placed.line := by
    rw [lines, hitems, List.map_map]
    exact List.map_congr_left fun p _ => Item.line_ok p
  have hpushed := emitPieces_of_encode hbytes hlengths
  refine ⟨parts, hmapM, hlengths, hpushed, ?_, hitems, hlines, ?_, listing_eq_join _⟩
  · rw [emitPieces_of_encode hencode hlengths, hpushed]
  · intro line hline
    rw [hlines] at hline
    obtain ⟨p, -, rfl⟩ := List.mem_map.mp hline
    exact p.lineEnd_not_mem_line

/-- Instructions with two, three, no and one byte of operands, some of which look like opcodes. -/
def mixedWidths : List Instruction :=
  [⟨.constant, [1]⟩, ⟨.closure, [65534, 25]⟩, ⟨.add, []⟩, ⟨.getLocal, [7]⟩]

theorem exists_assembles_mixedWidths :
    (∀ i ∈ mixedWidths, ∃ bytes, i.encode = .ok bytes) ∧
      Assembles mixedWidths [[0, 0, 1], [27, 255, 254, 25], [1], [24, 7]] ∧
      (ofParts [[0, 0, 1], [27, 255, 254, 25], [1], [24, 7]]).lines =
        ["0000 OpConstant 1", "0003 OpClosure 65534 25", "0007 OpAdd", "0008 OpGetLocal 7"] := by
  have hencode : ∀ i ∈ mixedWidths, ∃ bytes, i.encode = .ok bytes := by
    simp only [mixedWidths, List.forall_mem_cons]
    exact ⟨⟨_, rfl⟩, ⟨_, rfl⟩, ⟨_, rfl⟩, ⟨_, rfl⟩, fun i hi => absurd hi List.not_mem_nil⟩
  obtain ⟨parts, assembles⟩ := exists_assembles mixedWidths hencode
  have hparts : mixedWidths.mapM Instruction.encode =
      .ok [[0, 0, 1], [27, 255, 254, 25], [1], [24, 7]] := rfl
  cases assembles.encoded.symm.trans hparts
  exact ⟨hencode, assembles, assembles.lines.trans (by decide +kernel)⟩

end Code
end BytecodeMachine

import BytecodeMachine.Code.Assembly

/-!
# Listed instructions

Code lists instructions from an offset on if they can be decoded there one after another. Assembled
code lists the instructions that it is assembled of.
-/

namespace BytecodeMachine

/-- The number of bytes that instructions take together. -/
def Instruction.totalLength : List Instruction → Nat
  | [] => 0
  | i :: is => i.length + totalLength is

theorem Instruction.totalLength_append (is js : List Instruction) :
    totalLength (is ++ js) = totalLength is + totalLength js := by
  induction is with
  | nil => simp [totalLength]
  | cons i is ih => rw [List.cons_append, totalLength, totalLength, ih, Nat.add_assoc]

namespace Instruction

variable {i : Instruction} {is : List Instruction} {bytes : List UInt8}

theorem encode_eq_ok (h : i.encode = .ok bytes) :
    i.operands.length = i.opcode.widths.length ∧
      ∃ operands, i.opcode.encodeOperands i.opcode.widths i.operands = .ok operands ∧
        bytes = i.opcode.toByte :: operands := by
  rw [encode] at h
  split at h
  · next count =>
    refine ⟨count, ?_⟩
    cases hoperands : i.opcode.encodeOperands i.opcode.widths i.operands with
    | ok operands =>
      rw [hoperands] at h
      cases h
      exact ⟨operands, rfl, rfl⟩
    | error e =>
      rw [hoperands] at h
      cases h
  · cases h

theorem length_of_encode (h : i.encode = .ok bytes) : bytes.length = i.length := by
  obtain ⟨count, operands, hoperands, rfl⟩ := encode_eq_ok h
  rw [List.length_cons, (splitOperands_encodeOperands count hoperands []).1]
  exact Nat.add_comm _ _

/-- An encoded instruction is decoded wherever its bytes stand. -/
theorem instructionAt_of_encode {code : Code} {before after : List UInt8}
    (h : i.encode = .ok bytes) (hcode : code.toList = before ++ (bytes ++ after)) :
    ∃ inside, code.instructionAt before.length inside = .ok i := by
  obtain ⟨count, operands, hoperands, rfl⟩ := encode_eq_ok h
  obtain ⟨hlength, hsplit⟩ := splitOperands_encodeOperands count hoperands after
  have inside : before.length < code.size := by
    rw [← Array.length_toList, hcode]
    simp
  have hopcode : code[before.length] = i.opcode.toByte := by
    rw [← Array.getElem_toList, List.getElem_of_eq hcode]
    simp
  have hbehind : code.toList.drop (before.length + 1) = operands ++ after := by
    rw [hcode, ← List.drop_drop, List.drop_left]
    rfl
  have enough : ¬(operands ++ after).length < i.opcode.operandLength := by
    rw [List.length_append, hlength, Opcode.operandLength]
    omega
  refine ⟨inside, ?_⟩
  rw [Code.instructionAt_eq, hopcode, hbehind, Opcode.ofByte_toByte]
  simp only [bind, Except.bind, Opcode.readOperands, if_neg enough, hsplit]
  rfl

end Instruction

theorem length_splitOperands (widths : List Nat) (bytes : List UInt8) :
    (splitOperands widths bytes).length = widths.length := by
  induction widths generalizing bytes with
  | nil => rfl
  | cons width widths ih => rw [splitOperands, List.length_cons, ih, List.length_cons]

/-- Operands are written as the bytes that they were read from. -/
theorem Opcode.encodeOperands_splitOperands (op : Opcode) {widths : List Nat} {bytes : List UInt8}
    (enough : totalWidth widths ≤ bytes.length) :
    op.encodeOperands widths (splitOperands widths bytes) =
      .ok (bytes.take (totalWidth widths)) := by
  induction widths generalizing bytes with
  | nil => rfl
  | cons width widths ih =>
    rw [totalWidth_cons] at enough ⊢
    have hlength : (bytes.take width).length = width := by
      rw [List.length_take]
      omega
    have hfits : BigEndian.decode (bytes.take width) < BigEndian.count width := by
      have hlt := BigEndian.decode_lt (bytes.take width)
      rwa [hlength] at hlt
    have hbytes : BigEndian.encode width (BigEndian.decode (bytes.take width)) =
        bytes.take width := by
      have hencode := BigEndian.encode_decode (bytes.take width)
      rwa [hlength] at hencode
    have hdrop : totalWidth widths ≤ (bytes.drop width).length := by
      rw [List.length_drop]
      omega
    have hrest := ih hdrop
    rw [splitOperands, encodeOperands, if_pos hfits, hrest, List.take_add, hbytes]
    rfl

namespace Code

variable {code : Code} {offset : Nat} {inside : offset < code.size} {i : Instruction}

/-- A decoded instruction ends in the code, and its operands stand behind its opcode. -/
theorem bounds_of_instructionAt (hi : code.instructionAt offset inside = .ok i) :
    offset + i.length ≤ code.size ∧
      i.operands = splitOperands i.opcode.widths (code.toList.drop (offset + 1)) ∧
      i.opcode.toByte = code[offset] := by
  rw [instructionAt_eq] at hi
  cases hop : Opcode.ofByte? code[offset] with
  | none => simp [Opcode.ofByte, hop, bind, Except.bind] at hi
  | some op =>
    simp only [Opcode.ofByte, hop, bind, Except.bind, Opcode.readOperands] at hi
    by_cases short : (code.toList.drop (offset + 1)).length < op.operandLength
    · rw [if_pos short] at hi
      cases hi
    · rw [if_neg short] at hi
      cases hi
      rw [List.length_drop, Array.length_toList] at short
      refine ⟨?_, rfl, Opcode.toByte_of_ofByte? hop⟩
      change offset + (1 + op.operandLength) ≤ code.size
      omega

/-- A decoded instruction is encoded as the bytes that it was decoded from. -/
theorem encode_of_instructionAt (hi : code.instructionAt offset inside = .ok i) :
    i.encode = .ok (code.extract offset (offset + i.length)).toList := by
  obtain ⟨hend, hoperands, hopcode⟩ := bounds_of_instructionAt hi
  have hlength : i.length = i.opcode.operandLength + 1 := Nat.add_comm _ _
  have hbytes : (code.extract offset (offset + i.length)).toList =
      i.opcode.toByte :: (code.toList.drop (offset + 1)).take i.opcode.operandLength := by
    rw [Array.toList_extract, List.extract_eq_take_drop, Nat.add_sub_cancel_left, hlength, hopcode,
      List.drop_eq_getElem_cons (by rwa [Array.length_toList]), List.take_succ_cons]
    rfl
  have count : i.operands.length = i.opcode.widths.length := by
    rw [hoperands, length_splitOperands]
  have enough : totalWidth i.opcode.widths ≤ (code.toList.drop (offset + 1)).length := by
    rw [List.length_drop, Array.length_toList]
    change i.opcode.operandLength ≤ _
    omega
  rw [Instruction.encode, if_pos count, hoperands,
    Opcode.encodeOperands_splitOperands i.opcode enough, hbytes]
  rfl

variable {is js : List Instruction}

/-- The instructions are decoded one after another from the offset on. -/
inductive Lists (code : Code) : Nat → List Instruction → Prop where
  | nil {offset : Nat} : Lists code offset []
  | cons {offset : Nat} {i : Instruction} {is : List Instruction} (inside : offset < code.size)
      (first : code.instructionAt offset inside = .ok i)
      (rest : Lists code (offset + i.length) is) :
      Lists code offset (i :: is)

theorem lists_append_iff :
    code.Lists offset (is ++ js) ↔
      code.Lists offset is ∧ code.Lists (offset + Instruction.totalLength is) js := by
  induction is generalizing offset with
  | nil => exact ⟨fun h => ⟨.nil, h⟩, And.right⟩
  | cons i is ih =>
    rw [Instruction.totalLength, ← Nat.add_assoc, List.cons_append]
    constructor
    · rintro (_ | ⟨inside, first, rest⟩)
      obtain ⟨hrest, hjs⟩ := ih.mp rest
      exact ⟨.cons inside first hrest, hjs⟩
    · rintro ⟨_ | ⟨inside, first, rest⟩, hjs⟩
      exact .cons inside first (ih.mpr ⟨rest, hjs⟩)

theorem lists_cons_iff :
    code.Lists offset (i :: is) ↔ code.Lists offset [i] ∧ code.Lists (offset + i.length) is :=
  @lists_append_iff code offset [i] is

/-- Each instruction stands behind those that are listed before it. -/
theorem Lists.nth {j : Nat} (h : code.Lists offset is) (hj : is[j]? = some i) :
    code.Lists (offset + Instruction.totalLength (is.take j)) [i] := by
  induction is generalizing offset j with
  | nil => cases hj
  | cons k is ih =>
    obtain ⟨first, rest⟩ := lists_cons_iff.mp h
    cases j with
    | zero =>
      obtain rfl := Option.some.inj hj
      exact first
    | succ j =>
      rw [List.take_succ_cons, Instruction.totalLength, ← Nat.add_assoc]
      exact ih rest hj

theorem lists_of_encode {parts : List (List UInt8)} {before : List UInt8}
    (h : is.mapM Instruction.encode = .ok parts) (hcode : code.toList = before ++ parts.flatten) :
    code.Lists before.length is ∧ parts.flatten.length = Instruction.totalLength is := by
  induction is generalizing parts before with
  | nil =>
    cases h
    exact ⟨.nil, rfl⟩
  | cons i is ih =>
    rw [List.mapM_cons] at h
    cases hfirst : i.encode with
    | error e =>
      rw [hfirst] at h
      cases h
    | ok bytes =>
      cases hrest : is.mapM Instruction.encode with
      | error e =>
        rw [hfirst, hrest] at h
        cases h
      | ok parts =>
        rw [hfirst, hrest] at h
        cases h
        rw [List.flatten_cons] at hcode
        have hlength := Instruction.length_of_encode hfirst
        obtain ⟨inside, hi⟩ := Instruction.instructionAt_of_encode hfirst hcode
        have hbehind : code.toList = before ++ bytes ++ parts.flatten :=
          hcode.trans (List.append_assoc ..).symm
        obtain ⟨listed, htotal⟩ := ih hrest hbehind
        rw [List.length_append, hlength] at listed
        refine ⟨.cons inside hi listed, ?_⟩
        rw [List.flatten_cons, List.length_append, hlength, htotal, Instruction.totalLength]

/-- Assembled code lists its instructions and nothing else. -/
theorem lists_ofParts {parts : List (List UInt8)} (h : is.mapM Instruction.encode = .ok parts) :
    (ofParts parts).Lists 0 is ∧ (ofParts parts).size = Instruction.totalLength is :=
  lists_of_encode h (List.nil_append _).symm

end Code
end BytecodeMachine

import BytecodeMachine.Proofs.Decoding.Tiling

/-!
# Code with more behind it

Decoding looks at no more bytes than an instruction takes. So code that goes on with other bytes is
decoded as before, unless its last instruction was cut off.
-/

namespace BytecodeMachine.Code

variable {code : Code} {offset : Nat} {inside : offset < code.size} {i : Instruction}

/-- The code ends before the operands of the instruction at the offset do. -/
def CutOffAt (code : Code) (offset : Nat) : Prop :=
  ∃ inside op expected available,
    code.instructionAt offset inside = .error (.truncated op expected available)

theorem instructionAt_append_of_ok (hi : code.instructionAt offset inside = .ok i) (more : Code)
    (inside' : offset < (code ++ more).size) :
    (code ++ more).instructionAt offset inside' = .ok i := by
  obtain ⟨hend, -, -⟩ := bounds_of_instructionAt hi
  have hlength : (code.toList.take offset).length = offset := by
    rw [List.length_take, Array.length_toList]
    omega
  have hcode : (code ++ more).toList = code.toList.take offset ++
      ((code.extract offset (offset + i.length)).toList ++
        (code.toList.drop (offset + i.length) ++ more.toList)) := by
    rw [Array.toList_append, Array.toList_extract, List.extract_eq_take_drop,
      Nat.add_sub_cancel_left, ← List.append_assoc (List.take i.length _), ← List.drop_drop,
      List.take_append_drop, ← List.append_assoc, List.take_append_drop]
  obtain ⟨_, decoded⟩ := Instruction.instructionAt_of_encode (encode_of_instructionAt hi) hcode
  simpa only [hlength] using decoded

theorem instructionAt_append (whole : ¬code.CutOffAt offset) (inside : offset < code.size)
    (more : Code) (inside' : offset < (code ++ more).size) :
    (code ++ more).instructionAt offset inside' = code.instructionAt offset inside := by
  cases hi : code.instructionAt offset inside with
  | ok i => exact instructionAt_append_of_ok hi more inside'
  | error e =>
    rcases error_cases hi with ⟨beyond, rfl⟩ | ⟨op, -, -, rfl⟩
    · have hbyte : (code ++ more)[offset] = code[offset] := Array.getElem_append_left inside
      rw [instructionAt, hbyte, Opcode.ofByte, Opcode.ofByte?_eq_none_iff.mpr beyond]
      rfl
    · exact absurd ⟨inside, _, _, _, hi⟩ whole

/-- A return of null behind the code is decoded there. -/
theorem instructionAt_push_returnNull (code : Code)
    (inside : code.size < (code.push Opcode.returnNull.toByte).size) :
    instructionAt (code.push Opcode.returnNull.toByte) code.size inside =
      .ok ⟨.returnNull, []⟩ := by
  have hencode : Instruction.encode ⟨.returnNull, []⟩ = .ok [Opcode.returnNull.toByte] := rfl
  have hcode : (code.push Opcode.returnNull.toByte).toList =
      code.toList ++ ([Opcode.returnNull.toByte] ++ []) := by simp
  obtain ⟨_, decoded⟩ := Instruction.instructionAt_of_encode hencode hcode
  simpa only [Array.length_toList] using decoded

end BytecodeMachine.Code

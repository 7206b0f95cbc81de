import Mathlib.Algebra.Group.Nat.Defs
import BytecodeMachine.Proofs.Decoding.Listed

/-!
# Operands

An instruction can be written if it has as many operands as its opcode takes and each of them fits
its width; otherwise the number is reported, or the first operand that is too large. Writing
operands and reading them are inverse to each other, whatever bytes follow.
-/

namespace BytecodeMachine

theorem BigEndian.count_eq_pow (width : Nat) : count width = 256 ^ width := by
  induction width with
  | zero => rfl
  | succ width ih => rw [count, ih, Nat.pow_succ, Nat.mul_comm]

namespace Opcode

variable {op : Opcode} {widths operands : List Nat} {bytes : List UInt8}

/-- The operand, which comes first, can be written in the width. -/
def Fits (pair : Nat × Nat) : Prop := pair.1 < 256 ^ pair.2

instance : DecidablePred Fits := fun _ => Nat.decLt _ _

theorem fits_iff {operand width : Nat} :
    Fits (operand, width) ↔ operand < BigEndian.count width := by
  rw [BigEndian.count_eq_pow, Fits]

theorem exists_encodeOperands (op : Opcode) (h : ∀ pair ∈ operands.zip widths, Fits pair) :
    ∃ bytes, op.encodeOperands widths operands = .ok bytes := by
  induction widths generalizing operands with
  | nil => exact ⟨[], by cases operands <;> rfl⟩
  | cons width widths ih =>
    cases operands with
    | nil => exact ⟨[], rfl⟩
    | cons operand operands =>
      rw [List.zip_cons_cons, List.forall_mem_cons, fits_iff] at h
      obtain ⟨bytes, hbytes⟩ := ih h.2
      refine ⟨BigEndian.encode width operand ++ bytes, ?_⟩
      rw [encodeOperands, if_pos h.1, hbytes]
      rfl

/-- The first operand that is too large is refused, whatever stands behind it. -/
theorem encodeOperands_eq_error {before after : List (Nat × Nat)} {operand width : Nat}
    (hzip : operands.zip widths = before ++ (operand, width) :: after)
    (hbefore : ∀ pair ∈ before, Fits pair) (large : ¬Fits (operand, width)) :
    op.encodeOperands widths operands = .error (.operandTooLarge op operand width) := by
  induction before generalizing widths operands with
  | nil =>
    obtain ⟨operands, widths, rfl, rfl, -⟩ := List.zip_eq_cons_iff.mp hzip
    rw [fits_iff] at large
    rw [encodeOperands, if_neg large]
    rfl
  | cons pair before ih =>
    obtain ⟨operands, widths, rfl, rfl, hrest⟩ := List.zip_eq_cons_iff.mp hzip
    rw [List.forall_mem_cons, fits_iff] at hbefore
    rw [encodeOperands, if_pos hbefore.1, ih hrest.symm hbefore.2]
    rfl

/-- Either all operands fit or there is a first one that does not. -/
theorem fits_or_exists_first (pairs : List (Nat × Nat)) :
    (∀ pair ∈ pairs, Fits pair) ∨
      ∃ before pair after, pairs = before ++ pair :: after ∧ (∀ other ∈ before, Fits other) ∧
        ¬Fits pair := by
  cases hfind : pairs.find? fun pair => ¬Fits pair with
  | none => exact .inl fun pair hpair => by simpa using List.find?_eq_none.mp hfind pair hpair
  | some pair =>
    obtain ⟨large, before, after, heq, hbefore⟩ := List.find?_eq_some_iff_append.mp hfind
    exact .inr ⟨before, pair, after, heq, fun other hother => by simpa using hbefore other hother,
      by simpa using large⟩

end Opcode

namespace Instruction

variable {op : Opcode} {operands : List Nat} {bytes : List UInt8}

theorem encode_of_count_ne (h : operands.length ≠ op.widths.length) :
    encode ⟨op, operands⟩ = .error (.operandCount op op.widths.length operands.length) :=
  if_neg h

theorem encode_of_first_large {before after : List (Nat × Nat)} {operand width : Nat}
    (count : operands.length = op.widths.length)
    (hzip : operands.zip op.widths = before ++ (operand, width) :: after)
    (hbefore : ∀ pair ∈ before, Opcode.Fits pair) (large : ¬Opcode.Fits (operand, width)) :
    encode ⟨op, operands⟩ = .error (.operandTooLarge op operand width) := by
  rw [encode, if_pos count, Opcode.encodeOperands_eq_error hzip hbefore large]
  rfl

theorem exists_encode (count : operands.length = op.widths.length)
    (h : ∀ pair ∈ operands.zip op.widths, Opcode.Fits pair) :
    ∃ bytes, encode ⟨op, operands⟩ = .ok bytes := by
  obtain ⟨bytes, hbytes⟩ := Opcode.exists_encodeOperands op h
  refine ⟨op.toByte :: bytes, ?_⟩
  rw [encode, if_pos count, hbytes]
  rfl

/-- Each list of operands is written or refused for one of the two reasons. -/
theorem encode_cases (op : Opcode) (operands : List Nat) :
    operands.length ≠ op.widths.length ∨
      operands.length = op.widths.length ∧
        ((∀ pair ∈ operands.zip op.widths, Opcode.Fits pair) ∨
          ∃ before pair after, operands.zip op.widths = before ++ pair :: after ∧
            (∀ other ∈ before, Opcode.Fits other) ∧ ¬Opcode.Fits pair) := by
  by_cases count : operands.length = op.widths.length
  · exact .inr ⟨count, Opcode.fits_or_exists_first _⟩
  · exact .inl count

theorem readOperands_of_encode (h : encode ⟨op, operands⟩ = .ok bytes) :
    ∃ written, bytes = op.toByte :: written ∧ written.length = totalWidth op.widths ∧
      ∀ rest, op.readOperands (written ++ rest) = .ok (operands, totalWidth op.widths) := by
  obtain ⟨count, written, hwritten, rfl⟩ := encode_eq_ok h
  have hlength : written.length = totalWidth op.widths :=
    (splitOperands_encodeOperands count hwritten []).1
  refine ⟨written, rfl, hlength, fun rest => ?_⟩
  have enough : ¬(written ++ rest).length < op.operandLength := by
    rw [List.length_append, hlength, Opcode.operandLength]
    omega
  rw [Opcode.readOperands, if_neg enough, (splitOperands_encodeOperands count hwritten rest).2]
  rfl

theorem encode_splitOperands (enough : totalWidth op.widths ≤ bytes.length) :
    encode ⟨op, splitOperands op.widths bytes⟩ =
      .ok (op.toByte :: bytes.take (totalWidth op.widths)) := by
  rw [encode, if_pos (length_splitOperands op.widths bytes),
    op.encodeOperands_splitOperands enough]
  rfl

end Instruction

namespace Opcode

/-- What the operands of an opcode are written as, and what bytes are read as its operands. -/
structure Inverse (op : Opcode) : Prop where
  encode_eq_ok_iff : ∀ operands : List Nat,
    (∃ bytes, Instruction.encode ⟨op, operands⟩ = .ok bytes) ↔
      operands.length = op.widths.length ∧
        ∀ pair ∈ operands.zip op.widths, pair.1 < 256 ^ pair.2
  /-- A wrong number of operands is reported whatever they are, and otherwise the first operand that
  is too large, with its width. -/
  encode_eq_error_iff : ∀ (operands : List Nat) e, Instruction.encode ⟨op, operands⟩ = .error e ↔
    operands.length ≠ op.widths.length ∧
        e = .operandCount op op.widths.length operands.length ∨
      operands.length = op.widths.length ∧ ∃ before operand width after,
        operands.zip op.widths = before ++ (operand, width) :: after ∧
          (∀ pair ∈ before, pair.1 < 256 ^ pair.2) ∧ 256 ^ width ≤ operand ∧
            e = .operandTooLarge op operand width
  /-- Whatever follows, exactly the operands are read back. -/
  readOperands_encode : ∀ (operands : List Nat) bytes,
    Instruction.encode ⟨op, operands⟩ = .ok bytes →
    bytes.length = 1 + totalWidth op.widths ∧
      ∃ byte written, bytes = byte :: written ∧ ofByte byte = .ok op ∧
        ∀ rest, op.readOperands (written ++ rest) = .ok (operands, totalWidth op.widths)
  /-- Reading fails if there are too few bytes, and for no other reason. -/
  readOperands_eq_error_iff : ∀ bytes e, op.readOperands bytes = .error e ↔
    bytes.length < totalWidth op.widths ∧ e = .truncated op (totalWidth op.widths) bytes.length
  /-- What is read is written as the bytes that it was read from. -/
  encode_readOperands : ∀ bytes : List UInt8, totalWidth op.widths ≤ bytes.length →
    ∃ operands count, op.readOperands bytes = .ok (operands, count) ∧
      Instruction.encode ⟨op, operands⟩ = .ok (op.toByte :: bytes.take count)

theorem operands_inverse (op : Opcode) : op.Inverse where
  encode_eq_ok_iff operands := by
    constructor
    · rintro ⟨bytes, h⟩
      rcases Instruction.encode_cases op operands with
        count | ⟨count, fits | ⟨before, pair, after, hzip, hbefore, large⟩⟩
      · cases h.symm.trans (Instruction.encode_of_count_ne count)
      · exact ⟨count, fits⟩
      · cases h.symm.trans (Instruction.encode_of_first_large count hzip hbefore large)
    · rintro ⟨count, fits⟩
      exact Instruction.exists_encode count fits
  encode_eq_error_iff operands e := by
    constructor
    · intro h
      rcases Instruction.encode_cases op operands with
        count | ⟨count, fits | ⟨before, pair, after, hzip, hbefore, large⟩⟩
      · cases h.symm.trans (Instruction.encode_of_count_ne count)
        exact .inl ⟨count, rfl⟩
      · obtain ⟨bytes, hbytes⟩ := Instruction.exists_encode count fits
        cases h.symm.trans hbytes
      · cases h.symm.trans (Instruction.encode_of_first_large count hzip hbefore large)
        exact .inr ⟨count, before, _, _, after, hzip, hbefore, Nat.not_lt.mp large, rfl⟩
    · rintro (⟨count, rfl⟩ | ⟨count, before, operand, width, after, hzip, hbefore, large, rfl⟩)
      · exact Instruction.encode_of_count_ne count
      · exact Instruction.encode_of_first_large count hzip hbefore (Nat.not_lt.mpr large)
  readOperands_encode operands bytes h := by
    obtain ⟨written, rfl, hlength, hread⟩ := Instruction.readOperands_of_encode h
    refine ⟨?_, op.toByte, written, rfl, ofByte_toByte op, hread⟩
    rw [List.length_cons, hlength, Nat.add_comm]
  readOperands_eq_error_iff bytes e := by
    rw [readOperands]
    by_cases short : bytes.length < op.operandLength
    · rw [if_pos short, Except.error.injEq, eq_comm]
      exact (and_iff_right short).symm
    · rw [if_neg short]
      exact iff_of_false (by simp) fun h => short h.1
  encode_readOperands bytes enough :=
    ⟨_, _, if_neg (Nat.not_lt.mpr enough), Instruction.encode_splitOperands enough⟩

/-- Both operands are too large, and the first one is reported. -/
example : Instruction.encode ⟨.closure, [65536, 256]⟩ =
    .error (.operandTooLarge .closure 65536 2) := rfl

end Opcode
end BytecodeMachine

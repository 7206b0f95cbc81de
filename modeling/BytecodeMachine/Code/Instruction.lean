import BytecodeMachine.BigEndian
import BytecodeMachine.Code.Error

/-!
# Instructions

An instruction is an opcode with its operands. `encode` writes it as bytes, refusing operands that
do not fit; `Opcode.readOperands` reads the operand bytes back.
-/

namespace BytecodeMachine

structure Instruction where
  opcode : Opcode
  operands : List Nat
deriving DecidableEq

/-- Writes operands in the given widths. The first one that is too large is refused. -/
def Opcode.encodeOperands (op : Opcode) : List Nat → List Nat → Except CodeError (List UInt8)
  | width :: widths, operand :: operands =>
    if operand < BigEndian.count width then do
      let rest ← op.encodeOperands widths operands
      return BigEndian.encode width operand ++ rest
    else throw (.operandTooLarge op operand width)
  | _, _ => return []

/-- Cuts bytes into numbers of the given widths. -/
def splitOperands : List Nat → List UInt8 → List Nat
  | [], _ => []
  | width :: widths, bytes =>
    BigEndian.decode (bytes.take width) :: splitOperands widths (bytes.drop width)

/-- The operands at the front of the bytes after an opcode, and how many bytes they take. -/
def Opcode.readOperands (op : Opcode) (bytes : List UInt8) : Except CodeError (List Nat × Nat) :=
  if bytes.length < op.operandLength then
    .error (.truncated op op.operandLength bytes.length)
  else
    .ok (splitOperands op.widths bytes, op.operandLength)

/-- Operands are read back from what they are written as. -/
theorem splitOperands_encodeOperands {op : Opcode} {widths operands : List Nat}
    {bytes : List UInt8} (hlen : operands.length = widths.length)
    (h : op.encodeOperands widths operands = .ok bytes) (rest : List UInt8) :
    bytes.length = totalWidth widths ∧ splitOperands widths (bytes ++ rest) = operands := by
  induction widths generalizing operands bytes with
  | nil =>
    obtain rfl : operands = [] := List.eq_nil_of_length_eq_zero hlen
    cases h
    exact ⟨rfl, rfl⟩
  | cons width widths ih =>
    obtain ⟨operand, operands, rfl⟩ := List.exists_cons_of_length_eq_add_one hlen
    unfold Opcode.encodeOperands at h
    split at h
    · next hfit =>
      cases hr : op.encodeOperands widths operands with
      | error e => simp [hr, bind, Except.bind] at h
      | ok tail =>
        simp only [hr, bind, Except.bind, pure, Except.pure, Except.ok.injEq] at h
        subst h
        obtain ⟨hl, hs⟩ := ih (by simpa using hlen) hr
        refine ⟨by simp [hl, totalWidth_cons], ?_⟩
        have hw : (BigEndian.encode width operand).length = width := BigEndian.length_encode ..
        simp only [splitOperands, List.append_assoc]
        rw [List.take_left' hw, List.drop_left' hw, hs, BigEndian.decode_encode,
          Nat.mod_eq_of_lt hfit]
    · cases h

namespace Instruction

@[inline] def length (i : Instruction) : Nat := i.opcode.length

/-- Operand number `n`, where an operand that the opcode does not have counts as zero. -/
@[inline] def operand (i : Instruction) (n : Nat) : Nat := i.operands.getD n 0

/-- The opcode byte followed by the operands. Their number is checked before their sizes. -/
def encode (i : Instruction) : Except CodeError (List UInt8) :=
  if i.operands.length = i.opcode.widths.length then do
    let operands ← i.opcode.encodeOperands i.opcode.widths i.operands
    return i.opcode.toByte :: operands
  else throw (.operandCount i.opcode i.opcode.widths.length i.operands.length)

/-- Encodes the instruction that an opcode byte and operands describe. -/
def encodeRaw (byte : UInt8) (operands : List Nat) : Except CodeError (List UInt8) := do
  encode ⟨← Opcode.ofByte byte, operands⟩

/-- The text of a listing: the name, then the operands in decimal. -/
def text (i : Instruction) : String :=
  i.operands.foldl (fun line operand => line ++ s!" {operand}") i.opcode.name

end Instruction
end BytecodeMachine

import BytecodeMachine.Opcode

/-!
# Errors of encoding and decoding

What can be wrong with a single instruction, and the text that reports it.
-/

namespace BytecodeMachine

inductive CodeError where
  /-- The byte is no opcode. -/
  | undefinedOpcode (byte : UInt8)
  /-- The operation takes another number of operands. -/
  | operandCount (op : Opcode) (expected got : Nat)
  /-- The operand is too large for its width. -/
  | operandTooLarge (op : Opcode) (operand width : Nat)
  /-- The code ends before the last operand byte. -/
  | truncated (op : Opcode) (expected available : Nat)
deriving DecidableEq

def CodeError.message : CodeError → String
  | undefinedOpcode byte => s!"opcode {byte.toNat} undefined"
  | operandCount op expected got =>
    s!"operand len {got} does not match defined {expected} for {op}"
  | operandTooLarge op operand width =>
    s!"operand {operand} does not fit in {width} byte(s) for {op}"
  | truncated op expected available =>
    s!"{op} needs {expected} operand byte(s) but only {available} remain"

instance : ToString CodeError := ⟨CodeError.message⟩

/-- The opcode that a byte stands for. -/
def Opcode.ofByte (byte : UInt8) : Except CodeError Opcode :=
  match Opcode.ofByte? byte with
  | some op => .ok op
  | none => .error (.undefinedOpcode byte)

@[simp] theorem Opcode.ofByte_toByte (op : Opcode) : Opcode.ofByte op.toByte = .ok op := by
  simp [Opcode.ofByte]

end BytecodeMachine

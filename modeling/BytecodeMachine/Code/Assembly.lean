import BytecodeMachine.Code.Basic

/-!
# Assembly

Code grows by appending pieces, each an encoded instruction or bytes taken as they are.
-/

namespace BytecodeMachine

inductive Piece where
  | bytes (bytes : List UInt8)
  | instruction (opcode : UInt8) (operands : List Nat)

def Piece.encode : Piece → Except CodeError (List UInt8)
  | bytes bs => .ok bs
  | instruction opcode operands => Instruction.encodeRaw opcode operands

/-- Where an appended piece starts and where the code ends after it. -/
structure Extent where
  start : Nat
  stop : Nat

namespace Code

/-- Appends bytes and tells the offset at which they start. -/
def emit (code : Code) (bytes : List UInt8) : Nat × Code := (code.size, code ++ bytes)

/-- The code that consists of the given parts in order. -/
def ofParts (parts : List (List UInt8)) : Code := parts.flatten.toArray

/-- Appends a piece unless its encoding fails. -/
def emitPiece (code : Code) (piece : Piece) : Except CodeError Extent × Code :=
  match piece.encode with
  | .error e => (.error e, code)
  | .ok bytes =>
    let (start, code) := code.emit bytes
    (.ok ⟨start, code.size⟩, code)

/-- Appends pieces one by one, with the outcome of each. -/
def emitPieces (code : Code) (pieces : List Piece) : Array (Except CodeError Extent) × Code :=
  pieces.foldl (fun (outcomes, code) piece =>
    let (outcome, code) := code.emitPiece piece
    (outcomes.push outcome, code)) (#[], code)

end Code
end BytecodeMachine

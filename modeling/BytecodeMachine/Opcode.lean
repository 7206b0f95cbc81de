/-!
# Opcodes

Every instruction starts with one opcode byte. The byte fixes the name of the operation and the
widths, in bytes, of the operands that follow. `ofByte?` inverts `toByte`.
-/

namespace BytecodeMachine

/-- The number of bytes that fields of the given widths take together. -/
def totalWidth : (widths : List Nat) → Nat
  | [] => 0
  | width :: widths => width + totalWidth widths

theorem totalWidth_cons (width : Nat) (widths : List Nat) :
    totalWidth (width :: widths) = width + totalWidth widths := rfl

/-- An operation of the machine, in the order of the opcode bytes. -/
inductive Opcode where
  | constant | add | pop | sub | mul | div | pushTrue | pushFalse
  | equal | notEqual | greaterThan | minus | bang | jumpNotTruthy | jump | pushNull
  | getGlobal | setGlobal | array | hash | index | call | returnValue | returnNull
  | getLocal | setLocal | getBuiltin | closure | getFree
deriving DecidableEq, Inhabited

namespace Opcode

/-- All opcodes in the order of their bytes. -/
def all : Array Opcode :=
  #[.constant, .add, .pop, .sub, .mul, .div, .pushTrue, .pushFalse,
    .equal, .notEqual, .greaterThan, .minus, .bang, .jumpNotTruthy, .jump, .pushNull,
    .getGlobal, .setGlobal, .array, .hash, .index, .call, .returnValue, .returnNull,
    .getLocal, .setLocal, .getBuiltin, .closure, .getFree]

def toByte (op : Opcode) : UInt8 := op.ctorIdx.toUInt8

def ofByte? (byte : UInt8) : Option Opcode := all[byte.toNat]?

/-- The name under which the operation is listed. -/
def name : Opcode → String
  | constant => "OpConstant"
  | add => "OpAdd"
  | pop => "OpPop"
  | sub => "OpSub"
  | mul => "OpMul"
  | div => "OpDiv"
  | pushTrue => "OpTrue"
  | pushFalse => "OpFalse"
  | equal => "OpEqual"
  | notEqual => "OpNotEqual"
  | greaterThan => "OpGreaterThan"
  | minus => "OpMinus"
  | bang => "OpBang"
  | jumpNotTruthy => "OpJumpNotTruthy"
  | jump => "OpJump"
  | pushNull => "OpNull"
  | getGlobal => "OpGetGlobal"
  | setGlobal => "OpSetGlobal"
  | array => "OpArray"
  | hash => "OpHash"
  | index => "OpIndex"
  | call => "OpCall"
  | returnValue => "OpReturnValue"
  | returnNull => "OpReturn"
  | getLocal => "OpGetLocal"
  | setLocal => "OpSetLocal"
  | getBuiltin => "OpGetBuiltin"
  | closure => "OpClosure"
  | getFree => "OpGetFree"

instance : ToString Opcode := ⟨name⟩

/-- The widths of the operands in bytes, in the order in which they are written. -/
def widths : Opcode → List Nat
  | constant | jumpNotTruthy | jump | getGlobal | setGlobal | array | hash => [2]
  | call | getLocal | setLocal | getBuiltin | getFree => [1]
  | closure => [2, 1]
  | _ => []

/-- The number of operand bytes. -/
def operandLength (op : Opcode) : Nat := totalWidth op.widths

/-- The length of the encoded instruction, its opcode byte included. -/
def length (op : Opcode) : Nat := 1 + op.operandLength

/-- Whether the operand is an absolute offset in the code. -/
def isJump (op : Opcode) : Bool := op == jump || op == jumpNotTruthy

@[simp] theorem ofByte?_toByte (op : Opcode) : ofByte? op.toByte = some op := by
  cases op <;> rfl

theorem toByte_of_ofByte? {byte : UInt8} {op : Opcode} (h : ofByte? byte = some op) :
    op.toByte = byte := by
  have table : ∀ i : Fin all.size, (all[i]).toByte.toNat = i := by decide
  obtain ⟨hi, rfl⟩ := Array.getElem?_eq_some_iff.mp h
  exact UInt8.toNat_inj.mp (table ⟨byte.toNat, hi⟩)

theorem ofByte?_eq_none_iff {byte : UInt8} : ofByte? byte = none ↔ 29 ≤ byte.toNat := by
  simp [ofByte?, all]

end Opcode
end BytecodeMachine

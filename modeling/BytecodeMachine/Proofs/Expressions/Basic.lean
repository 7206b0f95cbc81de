import BytecodeMachine.Proofs.Decoding.Listed
import BytecodeMachine.Value.Operator
import BytecodeMachine.Value.Pool

/-!
# Expressions

An expression denotes a value over a pool of constants, or the fault of its first operation that
has one. Its code lists the operands of every operation before the operation itself, and it jumps
over the branch of a conditional that is not taken.
-/

namespace BytecodeMachine

inductive UnaryOperator where
  | minus | bang
deriving DecidableEq

inductive BinaryOperator where
  | arithmetic (op : Arithmetic)
  | comparison (op : Comparison)
  | index
deriving DecidableEq

namespace UnaryOperator

def opcode : UnaryOperator → Opcode
  | minus => .minus
  | bang => .bang

def values : UnaryOperator → Value → Except Fault Value
  | minus, v => v.negate
  | bang, v => .ok (.boolean !v.isTruthy)

end UnaryOperator

namespace BinaryOperator

def opcode : BinaryOperator → Opcode
  | arithmetic op => op.opcode
  | comparison op => op.opcode
  | index => .index

def values : BinaryOperator → Value → Value → Except Fault Value
  | arithmetic op, left, right => op.values left right
  | comparison op, left, right => .boolean <$> op.values left right
  | index, container, key => container.index key

end BinaryOperator

inductive Expression where
  /-- The constant at an index of the pool. -/
  | constant (index : Nat)
  | boolean (b : Bool)
  | null
  | unary (op : UnaryOperator) (operand : Expression)
  | binary (op : BinaryOperator) (left right : Expression)
  | array (elements : List Expression)
  /-- A hash of alternating keys and values. -/
  | hash (operands : List Expression)
  | conditional (condition consequence alternative : Expression)

namespace Expression

mutual

/-- Operands are evaluated from left to right, and only one branch of a conditional is. -/
def evaluate (pool : Pool) : Expression → Except Fault Value
  | constant index =>
    match pool.get? index with
    | some v => .ok v
    | none => .error (.constantOutOfRange index pool.size)
  | boolean b => .ok (.boolean b)
  | null => .ok .null
  | unary op operand => do op.values (← evaluate pool operand)
  | binary op left right => do
    let l ← evaluate pool left
    let r ← evaluate pool right
    op.values l r
  | array elements => do return .array (← evaluateAll pool elements).toArray
  | hash operands => do Value.hashOf (← evaluateAll pool operands).toArray
  | conditional condition consequence alternative => do
    let v ← evaluate pool condition
    if v.isTruthy then evaluate pool consequence else evaluate pool alternative

def evaluateAll (pool : Pool) : List Expression → Except Fault (List Value)
  | [] => .ok []
  | e :: es => do
    let v ← evaluate pool e
    let vs ← evaluateAll pool es
    return v :: vs

end

mutual

/-- The number of bytes of the code. -/
def size : Expression → Nat
  | constant _ => Opcode.constant.length
  | boolean _ => Opcode.pushTrue.length
  | null => Opcode.pushNull.length
  | unary op operand => operand.size + op.opcode.length
  | binary op left right => left.size + right.size + op.opcode.length
  | array elements => sizeAll elements + Opcode.array.length
  | hash operands => sizeAll operands + Opcode.hash.length
  | conditional condition consequence alternative =>
    condition.size + Opcode.jumpNotTruthy.length + consequence.size + Opcode.jump.length +
      alternative.size

def sizeAll : List Expression → Nat
  | [] => 0
  | e :: es => e.size + sizeAll es

end

mutual

/-- The code of an expression that begins at an offset, to which its jumps are adjusted. -/
def code (start : Nat) : Expression → List Instruction
  | constant index => [⟨.constant, [index]⟩]
  | boolean b => [⟨if b then .pushTrue else .pushFalse, []⟩]
  | null => [⟨.pushNull, []⟩]
  | unary op operand => code start operand ++ [⟨op.opcode, []⟩]
  | binary op left right =>
    code start left ++ (code (start + left.size) right ++ [⟨op.opcode, []⟩])
  | array elements => codeAll start elements ++ [⟨.array, [elements.length]⟩]
  | hash operands => codeAll start operands ++ [⟨.hash, [operands.length]⟩]
  | conditional condition consequence alternative =>
    let first := start + condition.size + Opcode.jumpNotTruthy.length
    let second := first + consequence.size + Opcode.jump.length
    code start condition ++ ⟨.jumpNotTruthy, [second]⟩ ::
      (code first consequence ++ ⟨.jump, [second + alternative.size]⟩ :: code second alternative)

def codeAll (start : Nat) : List Expression → List Instruction
  | [] => []
  | e :: es => code start e ++ codeAll (start + e.size) es

end

/-- The code of an expression from the start on, with its value popped in the end. -/
def listing (e : Expression) : List Instruction := e.code 0 ++ [⟨.pop, []⟩]

mutual

/-- How many operands of the code are on the stack at once. -/
def depth : Expression → Nat
  | constant _ | boolean _ | null => 1
  | unary _ operand => operand.depth
  | binary _ left right => max left.depth (1 + right.depth)
  | array elements => max 1 (depthAll elements)
  | hash operands => max 1 (depthAll operands)
  | conditional condition consequence alternative =>
    max condition.depth (max consequence.depth alternative.depth)

def depthAll : List Expression → Nat
  | [] => 0
  | e :: es => max e.depth (1 + depthAll es)

end

mutual

theorem depth_pos : (e : Expression) → 0 < e.depth
  | constant _ | boolean _ | null => Nat.one_pos
  | unary _ operand => depth_pos operand
  | binary _ left right => by
    have := depth_pos left
    rw [depth]
    omega
  | array _ | hash _ => by
    rw [depth]
    omega
  | conditional condition _ _ => by
    have := depth_pos condition
    rw [depth]
    omega

end

mutual

theorem totalLength_code (start : Nat) :
    (e : Expression) → Instruction.totalLength (e.code start) = e.size
  | constant _ | null => rfl
  | boolean b => by cases b <;> rfl
  | unary op operand => by
    rw [code, Instruction.totalLength_append, totalLength_code, size]
    rfl
  | binary op left right => by
    rw [code, Instruction.totalLength_append, Instruction.totalLength_append, totalLength_code,
      totalLength_code, size, ← Nat.add_assoc]
    rfl
  | array elements | hash elements => by
    rw [code, Instruction.totalLength_append, totalLength_codeAll, size]
    rfl
  | conditional condition consequence alternative => by
    simp only [code, Instruction.totalLength_append, Instruction.totalLength, totalLength_code,
      size, Instruction.length]
    omega

theorem totalLength_codeAll (start : Nat) :
    (es : List Expression) → Instruction.totalLength (codeAll start es) = sizeAll es
  | [] => rfl
  | e :: es => by
    rw [codeAll, Instruction.totalLength_append, totalLength_code, totalLength_codeAll, sizeAll]

end

end Expression
end BytecodeMachine

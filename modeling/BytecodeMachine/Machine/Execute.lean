import BytecodeMachine.Machine.Basic
import BytecodeMachine.Machine.Event
import BytecodeMachine.Value.Operator

/-!
# Execution of instructions

`execute` carries out one decoded instruction. A fault leaves the machine as it is by then: operands
that were popped stay popped, and nothing else has changed.
-/

namespace BytecodeMachine

/-- A part of an instruction, which changes the machine and may end in a fault. -/
abbrev Exec := EStateM Fault Machine

namespace Exec

variable {α : Type}

@[inline] def observe (f : Machine → α) : Exec α := fun m => .ok (f m) m

/-- Continues at an offset of the running code. -/
@[inline] def jump (offset : Nat) : Exec Unit :=
  modify fun m => { m with calls := { m.calls with top := { m.calls.top with ip := offset } } }

def push (v : Value) : Exec Unit := fun m =>
  if h : m.stack.size < m.stack.capacity then
    .ok () { m with stack := m.stack.push v h }
  else .error (.stackOverflow m.stack.capacity) m

/-- Pops an operand of the running frame, never one of its local slots. -/
def pop : Exec Value := fun m =>
  if h : m.floor < m.stack.size then
    .ok (m.stack.top (Nat.zero_lt_of_lt h)) { m with stack := m.stack.pop }
  else .error .stackUnderflow m

/-- Pops `n` operands at once, in the order in which they were pushed. -/
def popMany (n : Nat) : Exec (Array Value) := fun m =>
  if n ≤ m.stack.size - m.floor then
    .ok (m.stack.topmost n) { m with stack := m.stack.truncate (m.stack.size - n) }
  else .error .stackUnderflow m

@[inline] def unary (f : Value → Except Fault Value) : Exec Unit := do
  let operand ← pop
  push (← MonadExcept.ofExcept (f operand))

/-- The right operand lies above the left one. -/
@[inline] def binary (f : Value → Value → Except Fault Value) : Exec Unit := do
  let right ← pop
  let left ← pop
  push (← MonadExcept.ofExcept (f left right))

def jumpUnlessTruthy (offset : Nat) : Exec Unit := do
  let condition ← pop
  unless condition.isTruthy do jump offset

def constant (index : Nat) : Exec Value := do
  match ← observe (·.environment.constants.get? index) with
  | some v => return v
  | none => throw (.constantOutOfRange index (← observe (·.environment.constants.size)))

def getGlobal (index : Nat) : Exec Unit := do
  match ← observe (·.globals[index]?) with
  | some v => push v
  | none => throw (.globalOutOfRange index (← observe (·.globals.size)))

def assignGlobal (index : Nat) (v : Value) : Exec Unit := fun m =>
  if h : index < m.globals.size then
    .ok () { m with globals := m.globals.set index v }
  else .error (.globalOutOfRange index m.globals.size) m

/-- The operand is popped before the index is looked at. -/
def setGlobal (index : Nat) : Exec Unit := do
  assignGlobal index (← pop)

/-- The stack position of a local slot of the running frame. -/
def localSlot (index : Nat) : Exec Nat := do
  let numSlots ← observe (·.calls.top.numSlots)
  if index < numSlots then
    return (← observe (·.calls.top.base)) + index
  else throw (.localOutOfRange index numSlots)

def getLocal (index : Nat) : Exec Unit := do
  let slot ← localSlot index
  match ← observe (·.stack.get? slot) with
  | some v => push v
  | none => throw .stackUnderflow

def assignSlot (slot : Nat) (v : Value) : Exec Unit := fun m =>
  if h : slot < m.stack.size then
    .ok () { m with stack := m.stack.set slot v h }
  else .error .stackUnderflow m

/-- The index is checked before the operand is popped. -/
def setLocal (index : Nat) : Exec Unit := do
  let slot ← localSlot index
  assignSlot slot (← pop)

def getBuiltin (index : Nat) : Exec Unit := do
  match ← observe (·.environment.builtins[index]?) with
  | some b => push (.builtin b)
  | none => throw (.builtinOutOfRange index (← observe (·.environment.builtins.size)))

def getCaptured (index : Nat) : Exec Unit := do
  let captured ← observe (·.calls.top.closure.captured)
  match captured[index]? with
  | some v => push v
  | none => throw (.capturedOutOfRange index captured.size)

/-- Pushes a new closure over a function of the pool and the operands it captures. -/
def pushClosure (index count : Nat) : Exec Unit := do
  match ← constant index with
  | .function f =>
    let captured ← popMany count
    push (.closure ⟨.created (← observe (·.numCreated)), f, captured⟩)
    modify fun m => { m with numCreated := m.numCreated + 1 }
  | other => throw (.notAFunction other.kind)

/-- Reserves the slots of a frame above its arguments. -/
def reserve (f : Frame) : Exec Unit := fun m =>
  if h : f.floor ≤ m.stack.capacity then
    .ok () { m with stack := m.stack.growTo f.floor h }
  else .error (.stackOverflow m.stack.capacity) m

/-- Sets up a frame on a closure that lies below its arguments on the stack. -/
def callClosure (c : Closure Value) (numArguments : Nat) : Exec Event := do
  unless numArguments = c.function.numParameters do
    throw (.argumentCount c.function.numParameters numArguments)
  let depth ← observe (·.calls.depth)
  let maxFrames ← observe (·.environment.maxFrames)
  unless depth < maxFrames do
    throw (.callStackOverflow maxFrames)
  let base := (← observe (·.stack.size)) - numArguments
  let frame := Frame.enter c base
  reserve frame
  modify fun m => { m with calls := m.calls.push frame }
  return .called (depth + 1) base numArguments

/-- Runs a native function on the topmost values and puts its answer in the place of the builtin
and its arguments. -/
def callBuiltin (b : Builtin) (numArguments : Nat) : Exec Event := do
  let host ← observe (·.environment.host)
  let reply := host b.native (← observe (·.stack.topmost numArguments)).toList
  modify fun m =>
    { m with
      stack := m.stack.truncate (m.stack.size - (numArguments + 1))
      printed := m.printed ++ reply.printed }
  push reply.value
  return .calledBuiltin b.name numArguments

def call (numArguments : Nat) : Exec Event := do
  let size ← observe (·.stack.size)
  unless (← observe (·.floor)) + numArguments < size do
    throw .stackUnderflow
  match ← observe (·.stack.get? (size - (numArguments + 1))) with
  | some (.closure c) => callClosure c numArguments
  | some (.builtin b) => callBuiltin b numArguments
  | some other => throw (.notCallable other.kind)
  | none => throw .stackUnderflow

/-- Resumes the caller of the running frame. -/
def popFrame : Exec Frame := fun m =>
  match m.calls.callers.back? with
  | none => .error .returnOutsideFunction m
  | some caller =>
    .ok m.calls.top { m with calls := ⟨m.calls.callers.pop, caller⟩ }

/-- Leaves the running frame. The value takes the place of the closure and its arguments. -/
def leave (v : Value) : Exec Event := do
  let frame ← popFrame
  modify fun m => { m with stack := m.stack.truncate (frame.base - 1) }
  push v
  return .returned ((← observe (·.calls.depth)) + 1)

/-- Carries out an instruction. The instruction pointer is already behind it. -/
def execute (i : Instruction) : Exec (Option Event) :=
  match i.opcode with
  | .constant => quietly do push (← constant (i.operand 0))
  | .add => quietly <| binary Arithmetic.add.values
  | .sub => quietly <| binary Arithmetic.sub.values
  | .mul => quietly <| binary Arithmetic.mul.values
  | .div => quietly <| binary Arithmetic.div.values
  | .equal => quietly <| compare .equal
  | .notEqual => quietly <| compare .notEqual
  | .greaterThan => quietly <| compare .greaterThan
  | .minus => quietly <| unary Value.negate
  | .bang => quietly <| unary fun v => .ok (.boolean !v.isTruthy)
  | .pop => quietly <| discard pop
  | .pushTrue => quietly <| push (.boolean true)
  | .pushFalse => quietly <| push (.boolean false)
  | .pushNull => quietly <| push .null
  | .jump => quietly <| jump (i.operand 0)
  | .jumpNotTruthy => quietly <| jumpUnlessTruthy (i.operand 0)
  | .getGlobal => quietly <| getGlobal (i.operand 0)
  | .setGlobal => quietly <| setGlobal (i.operand 0)
  | .getLocal => quietly <| getLocal (i.operand 0)
  | .setLocal => quietly <| setLocal (i.operand 0)
  | .getBuiltin => quietly <| getBuiltin (i.operand 0)
  | .getFree => quietly <| getCaptured (i.operand 0)
  | .array => quietly do push (.array (← popMany (i.operand 0)))
  | .hash => quietly do
    let operands ← popMany (i.operand 0)
    push (← MonadExcept.ofExcept (Value.hashOf operands))
  | .index => quietly <| binary Value.index
  | .closure => quietly <| pushClosure (i.operand 0) (i.operand 1)
  | .call => some <$> call (i.operand 0)
  | .returnValue => do some <$> leave (← pop)
  | .returnNull => some <$> leave .null
where
  @[inline] quietly (x : Exec Unit) : Exec (Option Event) := do
    x
    return none
  @[inline] compare (op : Comparison) : Exec Unit :=
    binary fun left right => .boolean <$> op.values left right

end Exec
end BytecodeMachine

import BytecodeMachine.Machine.Run
import Mathlib.Algebra.Group.Nat.Defs

/-!
# Checked runs

A machine on words of 64 bits cannot do all that is done here on numbers: a sum may be too large, a
difference negative, an index or a range outside its array. A checked run looks each of them up
before it goes on, and it has no result if one is out of range.
-/

namespace BytecodeMachine

namespace Word

variable {α : Type}

def add (a b : Nat) : Option Nat := if a + b < 2 ^ 64 then some (a + b) else none

def sub (a b : Nat) : Option Nat := if b ≤ a then some (a - b) else none

def div (l r : Int64) : Option Int64 := if r = 0 then none else some (l / r)

/-- The elements from one position up to another. -/
def slice (xs : Array α) (start stop : Nat) : Option (Array α) :=
  if start ≤ stop ∧ stop ≤ xs.size then some (xs.extract start stop) else none

end Word

open Word

namespace Code

/-- The number in the first bytes, of which there are one or two. -/
def checkedNumber (width : Nat) (bytes : Array UInt8) : Option Nat :=
  if width = 1 then do return (← bytes[0]?).toNat
  else do return 256 * (← bytes[0]?).toNat + (← bytes[1]?).toNat

def checkedOperands (bytes : Array UInt8) (offset : Nat) : (widths : List Nat) → Option (List Nat)
  | [] => some []
  | width :: widths => do
    let operand ← checkedNumber width (← slice bytes offset bytes.size)
    let operands ← checkedOperands bytes (← add offset width) widths
    return operand :: operands

/-- Decodes the instruction at an offset. -/
def checkedInstruction (code : Code) (offset : Nat) : Option (Except CodeError Instruction) := do
  match Opcode.ofByte (← code[offset]?) with
  | .error e => return .error e
  | .ok op =>
    let bytes ← slice code (← add offset 1) code.size
    if bytes.size < op.operandLength then
      return .error (.truncated op op.operandLength bytes.size)
    else return .ok ⟨op, ← checkedOperands bytes 0 op.widths⟩

end Code

/-- The quotient is looked up only if the divisor is not zero. -/
def Arithmetic.checkedIntegers : Arithmetic → Int64 → Int64 → Option (Except Fault Int64)
  | div, l, r => if r = 0 then some (.error .divisionByZero) else do return .ok (← Word.div l r)
  | op, l, r => some (op.integers l r)

def Arithmetic.checkedValues (op : Arithmetic) (left right : Value) :
    Option (Except Fault Value) :=
  match left, right with
  | .integer l, .integer r => do return .integer <$> (← op.checkedIntegers l r)
  | l, r => some (op.values l r)

namespace Value

/-- Cuts a list into pieces of two. What is left over is dropped. -/
def inTwos : List Value → List (List Value)
  | key :: value :: rest => [key, value] :: inTwos rest
  | _ => []

def checkedHashOf (operands : Array Value) : Option (Except Fault Value) :=
  if operands.size % 2 = 0 then do
    let pairs ← (inTwos operands.toList).mapM fun piece => do return (← piece[0]?, ← piece[1]?)
    match Table.ofPairs pairs with
    | .ok entries => return .ok (hash entries)
    | .error kind => return .error (.unusableKey kind)
  else some (.error (.oddHashOperands operands.size))

end Value

namespace Native

/-- Checks the number of arguments before it looks at the only one. -/
def checkedOne (f : List Value → Value) (args : List Value) : Option Value :=
  if args.length = 1 then do return f [← args[0]?] else some (wrongCount args.length 1)

def checkedPush (args : List Value) : Option Value :=
  if args.length = 2 then do
    match ← args[0]? with
    | .array elements => return .array (elements.push (← args[1]?))
    | v => return notAnArray "push" v
  else some (wrongCount args.length 2)

def checked : List (String × (List Value → Option Reply)) :=
  [("len", fun args => do return ⟨← checkedOne len args, []⟩),
    ("puts", fun args => some ⟨.null, args⟩),
    ("first", fun args => do return ⟨← checkedOne first args, []⟩),
    ("last", fun args => do return ⟨← checkedOne last args, []⟩),
    ("rest", fun args => do return ⟨← checkedOne rest args, []⟩),
    ("push", fun args => do return ⟨← checkedPush args, []⟩)]

end Native

def Host.checked (native : String) (args : List Value) : Option Reply :=
  match Native.checked.lookup native with
  | some f => f args
  | none => some ⟨.error s!"no native function `{native}`", []⟩

/-- A part of an instruction without a result where an operation is out of range. -/
def Checked (α : Type) : Type := Machine → Option (EStateM.Result Fault Machine α)

namespace Checked

variable {α : Type}

instance : Monad Checked where
  pure a := fun m => some (.ok a m)
  bind x f := fun m =>
    match x m with
    | some (.ok a m) => f a m
    | some (.error fault m) => some (.error fault m)
    | none => none

instance : MonadLift Option Checked := ⟨fun x m => x.map (.ok · m)⟩

instance : MonadLift Exec Checked := ⟨fun x m => some (x m)⟩

def observe (f : Machine → α) : Checked α := fun m => some (.ok (f m) m)

def modify (f : Machine → Machine) : Checked Unit := fun m => some (.ok ⟨⟩ (f m))

def fail (fault : Fault) : Checked α := fun m => some (.error fault m)

/-- The last one of all frames. -/
def frame : Checked Frame := do
  let frames ← observe (·.calls.frames)
  let top ← sub frames.length 1
  frames[top]?

/-- The lowest stack position above the local slots of the running frame. -/
def floor : Checked Nat := do
  let f ← frame
  add f.base f.numSlots

/-- Puts a stack together from its slots and its size, which must not exceed them. -/
def setStack (slots : Array Value) (size : Nat) : Checked Unit := fun m =>
  if h : size ≤ slots.size then some (.ok ⟨⟩ { m with stack := ⟨slots, size, h⟩ }) else none

/-- The live slots. -/
def live : Checked (Array Value) := do
  let s ← observe (·.stack)
  slice s.slots 0 s.size

def push (v : Value) : Checked Unit := do
  let s ← observe (·.stack)
  if s.size < s.capacity then
    setStack (s.slots.setIfInBounds s.size v) (← add s.size 1)
  else fail (.stackOverflow s.capacity)

def truncate (n : Nat) : Checked Unit := do
  let s ← observe (·.stack)
  setStack s.slots (min s.size n)

def pop : Checked Value := do
  let s ← observe (·.stack)
  if s.size ≤ (← floor) then fail .stackUnderflow
  else
    let top ← sub s.size 1
    setStack s.slots top
    s.slots[top]?

def topmost (n : Nat) : Checked (Array Value) := do
  let s ← observe (·.stack)
  if n ≤ s.size then slice s.slots (s.size - n) s.size else fail .stackUnderflow

def popMany (n : Nat) : Checked (Array Value) := do
  let floor ← floor
  let size ← observe (·.stack.size)
  if size - floor < n then fail .stackUnderflow
  else
    let operands ← topmost n
    truncate (← sub size n)
    return operands

/-- Raises the size, the slots gained being a range of the storage. -/
def growTo (n : Nat) : Checked Unit := do
  let s ← observe (·.stack)
  if s.capacity < n then fail (.stackOverflow s.capacity)
  else if s.size < n then
    let gained ← slice s.slots s.size n
    setStack (Stack.reset s.slots s.size gained.size) n

def pushAnswer (x : Option (Except Fault Value)) : Checked Unit := do
  match ← x with
  | .ok v => push v
  | .error fault => fail fault

def unary (f : Value → Except Fault Value) : Checked Unit := do
  let operand ← pop
  pushAnswer (f operand)

def binary (f : Value → Value → Option (Except Fault Value)) : Checked Unit := do
  let right ← pop
  let left ← pop
  pushAnswer (f left right)

def jump (offset : Nat) : Checked Unit := do
  let _ ← frame
  Exec.jump offset

def jumpUnlessTruthy (offset : Nat) : Checked Unit := do
  let condition ← pop
  unless condition.isTruthy do jump offset

def getGlobal (index : Nat) : Checked Unit := do
  match ← observe (·.globals[index]?) with
  | some v => push v
  | none => fail (.globalOutOfRange index (← observe (·.globals.size)))

def setGlobal (index : Nat) : Checked Unit := do
  let v ← pop
  Exec.assignGlobal index v

def localSlot (index : Nat) : Checked Nat := do
  let f ← frame
  if index < f.numSlots then add f.base index else fail (.localOutOfRange index f.numSlots)

def getLocal (index : Nat) : Checked Unit := do
  let slot ← localSlot index
  match (← live)[slot]? with
  | some v => push v
  | none => fail .stackUnderflow

def assignSlot (slot : Nat) (v : Value) : Checked Unit := do
  let s ← observe (·.stack)
  if slot < (← live).size then setStack (s.slots.setIfInBounds slot v) s.size
  else fail .stackUnderflow

def setLocal (index : Nat) : Checked Unit := do
  let slot ← localSlot index
  let v ← pop
  assignSlot slot v

def getBuiltin (index : Nat) : Checked Unit := do
  match ← observe (·.environment.builtins[index]?) with
  | some b => push (.builtin b)
  | none => fail (.builtinOutOfRange index (← observe (·.environment.builtins.size)))

def getCaptured (index : Nat) : Checked Unit := do
  let f ← frame
  match f.closure.captured[index]? with
  | some v => push v
  | none => fail (.capturedOutOfRange index f.closure.captured.size)

def pushClosure (index count : Nat) : Checked Unit := do
  match ← Exec.constant index with
  | .function f =>
    let captured ← popMany count
    push (.closure ⟨.created (← observe (·.numCreated)), f, captured⟩)
    modify fun m => { m with numCreated := m.numCreated + 1 }
  | other => fail (.notAFunction other.kind)

def callClosure (c : Closure Value) (numArguments : Nat) : Checked Event := do
  if numArguments = c.function.numParameters then
    let depth ← observe (·.calls.depth)
    let maxFrames ← observe (·.environment.maxFrames)
    if depth < maxFrames then
      let base ← sub (← observe (·.stack.size)) numArguments
      growTo (← add base c.function.numSlots)
      let event := Event.called (← add depth 1) base numArguments
      modify fun m => { m with calls := m.calls.push (Frame.enter c base) }
      return event
    else fail (.callStackOverflow maxFrames)
  else fail (.argumentCount c.function.numParameters numArguments)

def callBuiltin (b : Builtin) (numArguments : Nat) : Checked Event := do
  let args ← topmost numArguments
  let reply ← Host.checked b.native args.toList
  let below ← sub (← observe (·.stack.size)) numArguments
  truncate (← sub below 1)
  modify fun m => { m with printed := m.printed ++ reply.printed }
  push reply.value
  return .calledBuiltin b.name numArguments

def call (numArguments : Nat) : Checked Event := do
  let size ← observe (·.stack.size)
  let needed ← add numArguments 1
  if size < needed then fail .stackUnderflow
  else if size - needed < (← floor) then fail .stackUnderflow
  else
    match (← live)[size - needed]? with
    | some (.closure c) => callClosure c numArguments
    | some (.builtin b) => callBuiltin b numArguments
    | some other => fail (.notCallable other.kind)
    | none => fail .stackUnderflow

def leave (v : Value) : Checked Event := do
  let frame ← Exec.popFrame
  let depth ← add (← observe (·.calls.depth)) 1
  truncate (← sub frame.base 1)
  push v
  return .returned depth

/-- Carries out an instruction, whose operands are looked up by number. -/
def execute (i : Instruction) : Checked (Option Event) :=
  match i.opcode with
  | .constant => quietly do push (← Exec.constant (← i.operands[0]?))
  | .add => quietly <| binary Arithmetic.add.checkedValues
  | .sub => quietly <| binary Arithmetic.sub.checkedValues
  | .mul => quietly <| binary Arithmetic.mul.checkedValues
  | .div => quietly <| binary Arithmetic.div.checkedValues
  | .equal => quietly <| compare .equal
  | .notEqual => quietly <| compare .notEqual
  | .greaterThan => quietly <| compare .greaterThan
  | .minus => quietly <| unary Value.negate
  | .bang => quietly <| unary fun v => .ok (.boolean !v.isTruthy)
  | .pop => quietly <| discard pop
  | .pushTrue => quietly <| push (.boolean true)
  | .pushFalse => quietly <| push (.boolean false)
  | .pushNull => quietly <| push .null
  | .jump => quietly do jump (← i.operands[0]?)
  | .jumpNotTruthy => quietly do jumpUnlessTruthy (← i.operands[0]?)
  | .getGlobal => quietly do getGlobal (← i.operands[0]?)
  | .setGlobal => quietly do setGlobal (← i.operands[0]?)
  | .getLocal => quietly do getLocal (← i.operands[0]?)
  | .setLocal => quietly do setLocal (← i.operands[0]?)
  | .getBuiltin => quietly do getBuiltin (← i.operands[0]?)
  | .getFree => quietly do getCaptured (← i.operands[0]?)
  | .array => quietly do push (.array (← popMany (← i.operands[0]?)))
  | .hash => quietly do pushAnswer (Value.checkedHashOf (← popMany (← i.operands[0]?)))
  | .index => quietly <| binary fun container key => some (container.index key)
  | .closure => quietly do pushClosure (← i.operands[0]?) (← i.operands[1]?)
  | .call => some <$> do call (← i.operands[0]?)
  | .returnValue => do some <$> leave (← pop)
  | .returnNull => some <$> leave .null
where
  quietly (x : Checked Unit) : Checked (Option Event) := do
    x
    return none
  compare (op : Comparison) : Checked Unit :=
    binary fun left right => some (.boolean <$> op.values left right)

end Checked

namespace Machine

/-- The topmost value on the stack, if there is one. -/
def checkedTop (m : Machine) : Option (Option Value) :=
  if m.stack.size = 0 then some none
  else do return some (← m.stack.slots[← sub m.stack.size 1]?)

/-- One step, which has no result if an operation in it is out of range. -/
def checkedStep (m : Machine) : Option Transition := do
  let depth := m.calls.frames.length
  let frame ← m.calls.frames[← sub depth 1]?
  if frame.ip < frame.code.size then
    match ← frame.code.checkedInstruction frame.ip with
    | .error e => return .failed m ⟨.illegalInstruction e, frame.ip, depth⟩ []
    | .ok i =>
      let dispatch : Checked (Option Event) := do
        Checked.jump (← add frame.ip i.length)
        Checked.execute i
      return transition frame.ip depth [.dispatched frame.ip depth i] (← dispatch m)
  else if depth = 1 then return .ended m
  else
    let leave : Checked (Option Event) := some <$> Checked.leave .null
    return transition frame.ip depth [] (← leave m)

def checkedLoop : (fuel : Nat) → Machine → Option (Option (Outcome × Machine))
  | 0, _ => some none
  | fuel + 1, m => do
    match ← m.checkedStep with
    | .continued m _ => checkedLoop fuel m
    | .ended m => return some (.ok (), m)
    | .failed m error _ => return some (.error error, m)

/-- Runs the program, with no result if an operation is out of range before the run has ended. -/
def checkedRun (fuel : Nat) (m : Machine) : Option (Option (Outcome × Machine)) :=
  if m.started then some (some (.error ⟨.alreadyRun, 0, 0⟩, m))
  else checkedLoop fuel { m with started := true }

end Machine
end BytecodeMachine

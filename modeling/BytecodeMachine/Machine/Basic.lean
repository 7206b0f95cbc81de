import BytecodeMachine.Frame
import BytecodeMachine.Host
import BytecodeMachine.Program
import BytecodeMachine.Stack.Basic

/-!
# Machines

The state of a run: globals, operand stack and frames, beside the tables that instructions refer to
by index. `load` builds the state in which a program starts.
-/

namespace BytecodeMachine

/-- Sizes that are fixed when a program is loaded. The main frame counts as one of the frames. -/
structure Limits where
  stackSize : Nat := 2048
  globalsSize : Nat := 65536
  maxFrames : Nat := 1024

/-- What a program is loaded with: limits, the registry of builtins and the host that runs them. -/
structure Setup where
  limits : Limits := {}
  builtins : Array Builtin := Builtin.standard
  host : Host := Host.standard

/-- The tables and the limit that no instruction changes. -/
structure Environment where
  constants : Pool
  builtins : Array Builtin
  host : Host
  maxFrames : Nat

structure Machine where
  environment : Environment
  globals : Array Value
  stack : Stack Value
  calls : CallStack
  /-- How many closures were created so far. -/
  numCreated : Nat
  /-- The values that were printed so far. -/
  printed : Array Value
  /-- Whether the machine was run already. -/
  started : Bool

namespace Machine

/-- The program's code becomes the body of a closure without parameters, on an empty stack. -/
def load (p : Program) (setup : Setup) : Machine where
  environment := ⟨p.constants, setup.builtins, setup.host, setup.limits.maxFrames⟩
  globals := .replicate setup.limits.globalsSize .null
  stack := .empty setup.limits.stackSize
  calls := ⟨#[], .enter ⟨.main, ⟨.main, p.code, 0, 0⟩, #[]⟩ 0⟩
  numCreated := 0
  printed := #[]
  started := false

/-- The position below which the running frame pops nothing. -/
def floor (m : Machine) : Nat := m.calls.top.floor

/-- The value popped last, which after a run is the value of the program. It is null if the stack
is full. -/
def result (m : Machine) : Value := m.stack.lastPopped?.getD .null

end Machine
end BytecodeMachine

import BytecodeMachine.Code.Listing
import BytecodeMachine.Value.Basic

/-!
# Faults

The causes for which a run is aborted, their texts, and where in the run they occurred.
-/

namespace BytecodeMachine

inductive Fault where
  /-- The bytes at the instruction pointer are no instruction. -/
  | illegalInstruction (error : CodeError)
  | constantOutOfRange (index poolSize : Nat)
  | globalOutOfRange (index capacity : Nat)
  | localOutOfRange (index numLocals : Nat)
  | capturedOutOfRange (index count : Nat)
  | builtinOutOfRange (index registrySize : Nat)
  | operandKinds (op : Opcode) (left right : Kind)
  | operandKind (op : Opcode) (operand : Kind)
  | oddHashOperands (count : Nat)
  | unusableKey (kind : Kind)
  | divisionByZero
  | notCallable (kind : Kind)
  | notAFunction (kind : Kind)
  | argumentCount (expected got : Nat)
  | callStackOverflow (maxDepth : Nat)
  | stackOverflow (capacity : Nat)
  | stackUnderflow
  | returnOutsideFunction
  | alreadyRun
deriving DecidableEq

namespace Fault

def message : Fault → String
  | illegalInstruction (.undefinedOpcode byte) => CodeError.message (.undefinedOpcode byte)
  | illegalInstruction error => s!"malformed instruction: {error}"
  | constantOutOfRange index poolSize =>
    s!"constant index {index} out of range (pool has {poolSize})"
  | globalOutOfRange index capacity => s!"global index {index} out of range (capacity {capacity})"
  | localOutOfRange index numLocals => s!"local index {index} out of range (frame has {numLocals})"
  | capturedOutOfRange index count =>
    s!"free variable index {index} out of range (closure has {count})"
  | builtinOutOfRange index registrySize =>
    s!"builtin index {index} out of range (registry has {registrySize})"
  | operandKinds op left right => s!"unsupported types for {op}: {left} {right}"
  | operandKind op operand => s!"unsupported type for {op}: {operand}"
  | oddHashOperands count =>
    s!"hash literal needs an even number of keys and values, got {count}"
  | unusableKey kind => s!"unusable as hash key: {kind}"
  | divisionByZero => "division by zero"
  | notCallable kind => s!"calling non-function and non-built-in: {kind}"
  | notAFunction kind => s!"not a function: {kind}"
  | argumentCount expected got => s!"wrong number of arguments: want={expected}, got={got}"
  | callStackOverflow maxDepth => s!"call stack overflow: depth exceeds {maxDepth}"
  | stackOverflow capacity => s!"stack overflow: capacity {capacity} exceeded"
  | stackUnderflow => "stack underflow"
  | returnOutsideFunction => "return outside of a function"
  | alreadyRun => "program already ran"

instance : ToString Fault := ⟨message⟩

/-- Whether a limit was exceeded by a program that may otherwise be in order. -/
def isResourceExceeded : Fault → Bool
  | callStackOverflow _ | stackOverflow _ => true
  | _ => false

end Fault

/-- A fault with the offset of the instruction and the number of frames at the time. -/
structure RunError where
  fault : Fault
  offset : Nat
  depth : Nat
deriving DecidableEq

def RunError.message (e : RunError) : String :=
  s!"{e.fault} (at offset {padded e.offset}, call depth {e.depth})"

end BytecodeMachine

import BytecodeMachine.Fault

/-!
# Events

What a run reports while it goes on, and the line of the log for each event.
-/

namespace BytecodeMachine

inductive Event where
  | started (codeSize poolSize : Nat)
  /-- An instruction was decoded and is about to be executed. -/
  | dispatched (offset depth : Nat) (instruction : Instruction)
  /-- A frame was set up, which makes the depth what it says. -/
  | called (depth base numArguments : Nat)
  | calledBuiltin (name : String) (numArguments : Nat)
  /-- The frame at the depth was left. -/
  | returned (depth : Nat)
  | finished (stackSize : Nat)
  | aborted (error : RunError)
deriving DecidableEq

def Event.line : Event → String
  | started codeSize poolSize => s!"vm start instructions={codeSize} constants={poolSize}"
  | dispatched offset depth i =>
    s!"dispatch offset={offset} depth={depth} op={i.opcode} operands=[" ++
      ", ".intercalate (i.operands.map toString) ++ "]"
  | called depth base numArguments =>
    s!"call depth={depth} base_pointer={base} num_args={numArguments}"
  | calledBuiltin name numArguments => s!"call builtin builtin={name} num_args={numArguments}"
  | returned depth => s!"return depth={depth}"
  | finished stackSize => s!"vm finished stack={stackSize}"
  | aborted error => s!"vm aborted err={error.message}"

end BytecodeMachine

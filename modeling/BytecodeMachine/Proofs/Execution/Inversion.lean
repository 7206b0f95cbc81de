import BytecodeMachine.Proofs.Execution.Step

/-!
# Effects by opcode

The effect that an instruction has is determined by its opcode, as far as the number of operands and
the kind of effect go.
-/

namespace BytecodeMachine

@[simp] theorem CallStack.depth_push (calls : CallStack) (f : Frame) :
    (calls.push f).depth = calls.depth + 1 := by
  simp [depth, push]

@[simp] theorem CallStack.length_frames (calls : CallStack) :
    calls.frames.length = calls.depth := by
  simp [frames, depth]

namespace CallStack

/-- The frames above the main one, outermost first. -/
def inner (calls : CallStack) : List Frame := calls.frames.tail

theorem depth_eq_length_inner (calls : CallStack) : calls.depth = calls.inner.length + 1 := by
  rw [inner, List.length_tail, length_frames]
  rfl

@[simp] theorem inner_push (calls : CallStack) (f : Frame) :
    (calls.push f).inner = calls.inner ++ [f] := by
  have hframes : (calls.push f).frames = calls.frames ++ [f] := by simp [push, frames]
  rw [inner, hframes, List.tail_append_of_ne_nil (by simp [frames]), inner]

/-- Leaving the running frame takes it off the inner ones. -/
theorem inner_eq_of_resumed {calls : CallStack} {callers : Array Frame} {caller : Frame}
    (resumed : calls.callers = callers.push caller) :
    calls.inner = (⟨callers, caller⟩ : CallStack).inner ++ [calls.top] := by
  rw [← inner_push, push, ← resumed]

end CallStack

/-- Whether the operation does no more than push a value that it computes from its operands. -/
def Opcode.yields : Opcode → Bool
  | pop | jump | jumpNotTruthy | setGlobal | setLocal | closure | call | returnValue
  | returnNull => false
  | _ => true

theorem Computes.yields {m : Machine} {i : Instruction} {operands : List Value} {v : Value}
    (h : Computes m i operands v) : i.opcode.yields = true := by
  have literal : ∀ op v, Opcode.literal? op = some v → op.yields = true := by
    intro op v hop
    cases op <;> first | rfl | cases hop
  have unary : ∀ op f, Opcode.unary? op = some f → op.yields = true := by
    intro op f hop
    cases op <;> first | rfl | cases hop
  have binary : ∀ op f, Opcode.binary? op = some f → op.yields = true := by
    intro op f hop
    cases op <;> first | rfl | cases hop
  cases h with
  | literal op => exact literal _ _ op
  | unary op value => exact unary _ _ op
  | binary op value => exact binary _ _ op
  | constant op | readGlobal op | readLocal op | readBuiltin op | readCaptured op | array op
  | hash op => rw [op]; rfl

namespace Effect

variable {m m' : Machine} {i : Instruction} {event : Option Event}

theorem of_yields (h : Effect m i event m') (hop : i.opcode.yields = true) :
    ∃ below operands v, m.Supplies below operands ∧ Computes m i operands v ∧
      m'.stack.toList = below ++ [v] ∧ m'.calls = m.calls := by
  cases h with
  | compute supplies value room =>
    refine ⟨_, _, _, supplies, value, ?_, rfl⟩
    rw [Stack.toList_push, supplies.toList_drop]
  | discard op | jump op | pass op | branch op | assignGlobal op | assignLocal op | create op
  | native op | enter op =>
    rw [op] at hop
    cases hop
  | leave op =>
    rcases op with ⟨op, -⟩ | ⟨op, -⟩ <;> rw [op] at hop <;> cases hop

theorem of_setGlobal (h : Effect m i event m') (hop : i.opcode = .setGlobal) :
    ∃ v, m.stack.top? = some v ∧ ∃ slot : i.operand 0 < m.globals.size,
      m'.globals = m.globals.set (i.operand 0) v := by
  cases h with
  | assignGlobal op supplies slot =>
    refine ⟨_, ?_, slot, rfl⟩
    rw [Stack.top?_eq_getLast?, supplies.split, List.getLast?_concat]
  | compute supplies value room =>
    have hyields := value.yields
    rw [hop] at hyields
    cases hyields
  | discard op | jump op | pass op | branch op | assignLocal op | create op | native op
  | enter op => cases op.symm.trans hop
  | leave op => rcases op with ⟨op, -⟩ | ⟨op, -⟩ <;> cases op.symm.trans hop

theorem globals_eq (h : Effect m i event m') (hop : i.opcode ≠ .setGlobal) :
    m'.globals = m.globals := by
  cases h with
  | assignGlobal op => exact absurd op hop
  | _ => rfl

theorem of_setLocal (h : Effect m i event m') (hop : i.opcode = .setLocal) :
    ∃ below v, m.Supplies below [v] ∧ i.operand 0 < m.calls.top.numSlots ∧
      m'.stack.toList = below.set (m.calls.top.base + i.operand 0) v ∧ m'.calls = m.calls := by
  cases h with
  | assignLocal op supplies slot live =>
    refine ⟨_, _, supplies, slot, ?_, rfl⟩
    rw [Stack.toList_set]
    exact congrArg (List.set · _ _) supplies.toList_drop
  | compute supplies value room =>
    have hyields := value.yields
    rw [hop] at hyields
    cases hyields
  | discard op | jump op | pass op | branch op | assignGlobal op | create op | native op
  | enter op => cases op.symm.trans hop
  | leave op => rcases op with ⟨op, -⟩ | ⟨op, -⟩ <;> cases op.symm.trans hop

theorem of_closure (h : Effect m i event m') (hop : i.opcode = .closure) :
    ∃ below operands f, m.environment.constants.get? (i.operand 0) = some (.function f) ∧
      m.Supplies below operands ∧ operands.length = i.operand 1 ∧
      m'.stack.toList = below ++ [.closure ⟨.created m.numCreated, f, operands.toArray⟩] := by
  cases h with
  | create op found supplies count room =>
    refine ⟨_, _, _, found, supplies, count, ?_⟩
    rw [Stack.toList_push, supplies.toList_drop]
  | compute supplies value room =>
    have hyields := value.yields
    rw [hop] at hyields
    cases hyields
  | discard op | jump op | pass op | branch op | assignGlobal op | assignLocal op | native op
  | enter op => cases op.symm.trans hop
  | leave op => rcases op with ⟨op, -⟩ | ⟨op, -⟩ <;> cases op.symm.trans hop

/-- A call of what lies below its arguments runs a native function or enters a closure. -/
theorem of_call (h : Effect m i event m') (hop : i.opcode = .call) :
    (∃ below args b, m.Supplies below (.builtin b :: args) ∧ args.length = i.operand 0 ∧
      m'.calls = m.calls) ∨
    ∃ below args c, m.Supplies below (.closure c :: args) ∧ args.length = i.operand 0 ∧
      args.length = c.function.numParameters ∧
      m'.calls = m.calls.push (.enter c (below.length + 1)) ∧
      m'.stack.toList = m.stack.toList ++ .replicate (m'.floor - m.stack.size) .null := by
  cases h with
  | native op supplies count answer room => exact .inl ⟨_, _, _, supplies, count, rfl⟩
  | enter op supplies count arity depth room =>
    exact .inr ⟨_, _, _, supplies, count, arity, rfl, Stack.toList_growTo _ _ room⟩
  | compute supplies value room =>
    have hyields := value.yields
    rw [hop] at hyields
    cases hyields
  | discard op | jump op | pass op | branch op | assignGlobal op | assignLocal op | create op =>
    cases op.symm.trans hop
  | leave op => rcases op with ⟨op, -⟩ | ⟨op, -⟩ <;> cases op.symm.trans hop

/-- Only a call of a closure adds a frame. -/
theorem opcode_of_depth_lt (h : Effect m i event m') (hdepth : m.calls.depth < m'.calls.depth) :
    i.opcode = .call := by
  cases h with
  | enter op => exact op
  | leave op supplies resumed room =>
    simp only [CallStack.depth, resumed, Array.size_push] at hdepth
    omega
  | _ => exact absurd hdepth (Nat.lt_irrefl _)

/-- Only a return removes a frame, and it puts the value that it returns on top. -/
theorem of_depth_gt (h : Effect m i event m') (hdepth : m'.calls.depth < m.calls.depth) :
    ∃ below popped v, m.Supplies below popped ∧ m'.stack.top? = some v ∧
      (i.opcode = .returnNull ∧ popped = [] ∧ v = .null ∨
        i.opcode = .returnValue ∧ popped = [v]) := by
  cases h with
  | leave op supplies resumed room =>
    refine ⟨_, _, _, supplies, ?_, op⟩
    rw [Stack.top?_eq_getLast?, Stack.toList_push, List.getLast?_concat]
  | enter =>
    rw [CallStack.depth_push] at hdepth
    omega
  | _ => exact absurd hdepth (Nat.lt_irrefl _)

end Effect
end BytecodeMachine

import BytecodeMachine.Proofs.Execution.Step

/-!
# Effects are complete

An instruction that can have an effect has it: if its operands lie on the stack, what it refers to
is there and there is room, then it succeeds. So the effects are exactly the ways to succeed.
-/

namespace BytecodeMachine

namespace Machine.Supplies

variable {m : Machine} {below vs : List Value} {v : Value}

theorem pop_eq (h : m.Supplies below (vs ++ [v])) :
    Exec.pop m = .ok v { m with stack := m.stack.drop 1 } ∧
      Supplies { m with stack := m.stack.drop 1 } below vs := by
  have hsplit := h.split
  rw [← List.append_assoc] at hsplit
  have henough := h.enough
  rw [List.length_append, List.length_singleton] at henough
  have htop : m.stack.top? = some v := by
    rw [Stack.top?_eq_getLast?, hsplit, List.getLast?_concat]
  refine ⟨Exec.pop_eq_ok.mpr ⟨by omega, htop, rfl⟩, Stack.toList_drop_append hsplit, ?_⟩
  change vs.length ≤ (m.stack.drop 1).size - m.floor
  rw [Stack.size_drop]
  omega

theorem pop_eq_one (h : m.Supplies below [v]) :
    Exec.pop m = .ok v { m with stack := m.stack.drop 1 } := by
  have h : m.Supplies below ([] ++ [v]) := h
  exact h.pop_eq.1

theorem popMany_eq (h : m.Supplies below vs) :
    Exec.popMany vs.length m = .ok vs.toArray { m with stack := m.stack.drop vs.length } := by
  refine Exec.popMany_eq_ok.mpr ⟨h.enough, ?_, rfl⟩
  rw [← Stack.toList_topmost h.split, Array.toArray_toList, Stack.toList_topmost h.split]

theorem hasRoom (h : m.Supplies below vs) (room : below.length < m.stack.capacity) :
    (m.stack.drop vs.length).HasRoom := by
  rw [Stack.HasRoom, Stack.size_drop, ← h.length_below]
  exact room

/-- A value fits in the place of operands. -/
theorem hasRoom_of_cons (h : m.Supplies below (v :: vs)) :
    (m.stack.drop (v :: vs).length).HasRoom := by
  have hfloor := h.floor_add_lt
  have hsize : m.stack.size ≤ m.stack.capacity := m.stack.size_le
  refine h.hasRoom ?_
  rw [h.length_below, List.length_cons]
  omega

end Machine.Supplies

namespace Exec

variable {m m' : Machine} {i : Instruction} {event : Option Event} {below operands : List Value}
  {v : Value}

theorem execute_of_literal (op : i.opcode.literal? = some v) :
    execute i = execute.quietly (push v) := by
  cases hop : i.opcode <;> rw [hop] at op <;> cases op <;> simp only [execute, hop]

theorem execute_of_unary {f : Value → Except Fault Value} (op : i.opcode.unary? = some f) :
    execute i = execute.quietly (unary f) := by
  cases hop : i.opcode <;> rw [hop] at op <;> cases op <;> simp only [execute, hop]

theorem execute_of_binary {f : Value → Value → Except Fault Value}
    (op : i.opcode.binary? = some f) : execute i = execute.quietly (binary f) := by
  cases hop : i.opcode <;> rw [hop] at op <;> cases op <;>
    simp only [execute, hop, execute.compare]

private theorem quietly_of_ok {part : Exec Unit} (h : part m = .ok ⟨⟩ m') :
    execute.quietly part m = .ok none m' := bind_of_ok h

private theorem drop_zero_eq (m : Machine) : { m with stack := m.stack.drop 0 } = m := by
  rw [Stack.drop_zero]

private theorem push_of_room (room : (m.stack.drop 0).HasRoom) :
    push v m = .ok ⟨⟩ { m with stack := (m.stack.drop 0).push v room } := by
  have hpush : push v { m with stack := m.stack.drop 0 } =
      .ok ⟨⟩ { m with stack := (m.stack.drop 0).push v room } := push_eq_ok.mpr ⟨room, rfl⟩
  rwa [drop_zero_eq] at hpush

private theorem getLocal_of_found {k : Nat} (slot : k < m.calls.top.numSlots)
    (found : m.stack.toList[m.calls.top.base + k]? = some v) : getLocal k m = push v m := by
  rw [← Stack.get?_eq_getElem?] at found
  rw [getLocal, bind_of_ok (localSlot_eq_ok.mpr ⟨slot, rfl, rfl⟩), observe_bind, found]

/-- The value that an instruction computes takes the place of the operands. -/
theorem execute_of_computes (value : Computes m i operands v)
    (supplies : m.Supplies below operands) (room : (m.stack.drop operands.length).HasRoom) :
    execute i m = .ok none { m with stack := (m.stack.drop operands.length).push v room } := by
  cases value with
  | literal op =>
    rw [execute_of_literal op]
    exact quietly_of_ok (push_of_room room)
  | constant op found =>
    simp only [execute, op]
    refine quietly_of_ok ?_
    rw [bind_of_ok (constant_eq_ok.mpr ⟨found, rfl⟩)]
    exact push_of_room room
  | readGlobal op found =>
    simp only [execute, op]
    refine quietly_of_ok ?_
    rw [getGlobal, observe_bind, found]
    exact push_of_room room
  | readLocal op slot found =>
    simp only [execute, op]
    exact quietly_of_ok ((getLocal_of_found slot found).trans (push_of_room room))
  | readBuiltin op found =>
    simp only [execute, op]
    refine quietly_of_ok ?_
    rw [getBuiltin, observe_bind, found]
    exact push_of_room room
  | readCaptured op found =>
    simp only [execute, op]
    refine quietly_of_ok ?_
    rw [getCaptured, observe_bind, found]
    exact push_of_room room
  | unary op value =>
    rw [execute_of_unary op]
    refine quietly_of_ok ?_
    rw [unary, bind_of_ok supplies.pop_eq_one, value]
    exact push_eq_ok.mpr ⟨room, rfl⟩
  | @binary f l r w op value =>
    have supplies : m.Supplies below ([l] ++ [r]) := supplies
    obtain ⟨hright, supplies⟩ := supplies.pop_eq
    have hleft := supplies.pop_eq_one
    rw [Stack.drop_drop] at hleft
    rw [execute_of_binary op]
    refine quietly_of_ok ?_
    rw [binary, bind_of_ok hright, bind_of_ok hleft, value]
    exact push_eq_ok.mpr ⟨room, rfl⟩
  | array op count =>
    simp only [execute, op, ← count]
    refine quietly_of_ok ?_
    have hpop := supplies.popMany_eq
    rw [Array.toArray_toList, Array.length_toList] at hpop
    rw [bind_of_ok hpop]
    exact push_eq_ok.mpr ⟨room, rfl⟩
  | hash op count value =>
    simp only [execute, op, ← count]
    refine quietly_of_ok ?_
    have hpop := supplies.popMany_eq
    rw [Array.toArray_toList, Array.length_toList] at hpop
    rw [bind_of_ok hpop, value]
    exact push_eq_ok.mpr ⟨room, rfl⟩

private theorem jumpUnlessTruthy_of_supplies {offset : Nat} (supplies : m.Supplies below [v]) :
    jumpUnlessTruthy offset m =
      (unless v.isTruthy do jump offset : Exec Unit) { m with stack := m.stack.drop 1 } := by
  rw [jumpUnlessTruthy, bind_of_ok supplies.pop_eq_one]

private theorem call_of_native {args : List Value} {b : Builtin}
    (supplies : m.Supplies below (.builtin b :: args))
    (room : (m.stack.drop (args.length + 1)).HasRoom) :
    call args.length m = .ok (.calledBuiltin b.name args.length)
      { m with
        stack := (m.stack.drop (args.length + 1)).push
          (m.environment.host b.native args).value room
        printed := m.printed ++ (m.environment.host b.native args).printed } := by
  rw [call_of_supplies supplies]
  refine callBuiltin_eq_ok.mpr ⟨room, rfl, ?_⟩
  rw [supplies.toList_topmost]

private theorem call_of_enter {args : List Value} {c : Closure Value}
    (supplies : m.Supplies below (.closure c :: args))
    (arity : args.length = c.function.numParameters)
    (depth : m.calls.depth < m.environment.maxFrames)
    (room : (Frame.enter c (below.length + 1)).floor ≤ m.stack.capacity) :
    call args.length m = .ok (.called (m.calls.depth + 1) (below.length + 1) args.length)
      { m with
        stack := m.stack.growTo (Frame.enter c (below.length + 1)).floor room
        calls := m.calls.push (.enter c (below.length + 1)) } := by
  have hbase := supplies.base_eq
  rw [call_of_supplies supplies]
  generalize below.length + 1 = base at hbase room ⊢
  subst hbase
  exact callClosure_eq_ok.mpr ⟨arity, depth, room, rfl, rfl⟩

private theorem leave_of_resumed {callers : Array Frame} {caller : Frame}
    (resumed : m.calls.callers = callers.push caller)
    (room : ((m.stack.drop 0).truncate (m.calls.top.base - 1)).HasRoom) :
    leave v m = .ok (.returned m.calls.depth)
      { m with
        stack := ((m.stack.drop 0).truncate (m.calls.top.base - 1)).push v room
        calls := ⟨callers, caller⟩ } := by
  have hleave : leave v { m with stack := m.stack.drop 0 } = .ok (.returned m.calls.depth)
      { m with
        stack := ((m.stack.drop 0).truncate (m.calls.top.base - 1)).push v room
        calls := ⟨callers, caller⟩ } := leave_eq_ok.mpr ⟨_, _, resumed, room, rfl, rfl⟩
  rwa [drop_zero_eq] at hleave

/-- An instruction that can have an effect has it. -/
theorem execute_of_effect (h : Effect m i event m') : execute i m = .ok event m' := by
  cases h with
  | compute supplies value room => exact execute_of_computes value supplies room
  | discard op supplies =>
    simp only [execute, op]
    exact quietly_of_ok (map_eq_ok.mpr ⟨_, supplies.pop_eq_one, rfl⟩)
  | jump op =>
    simp only [execute, op]
    rfl
  | pass op supplies truthy =>
    simp only [execute, op]
    refine quietly_of_ok ?_
    rw [jumpUnlessTruthy_of_supplies supplies, truthy]
    rfl
  | branch op supplies falsy =>
    simp only [execute, op]
    refine quietly_of_ok ?_
    rw [jumpUnlessTruthy_of_supplies supplies, falsy]
    rfl
  | assignGlobal op supplies slot =>
    simp only [execute, op]
    refine quietly_of_ok ?_
    rw [setGlobal, bind_of_ok supplies.pop_eq_one]
    exact assignGlobal_eq_ok.mpr ⟨slot, rfl⟩
  | assignLocal op supplies slot live =>
    simp only [execute, op]
    refine quietly_of_ok ?_
    rw [setLocal, bind_of_ok (localSlot_eq_ok.mpr ⟨slot, rfl, rfl⟩),
      bind_of_ok supplies.pop_eq_one]
    exact assignSlot_eq_ok.mpr ⟨live, rfl⟩
  | @create _ operands f op found supplies count room =>
    simp only [execute, op, ← count]
    refine quietly_of_ok ((bind_of_ok (constant_eq_ok.mpr ⟨found, rfl⟩)).trans ?_)
    refine (bind_of_ok supplies.popMany_eq).trans ?_
    have hpush : push (.closure ⟨.created m.numCreated, f, operands.toArray⟩)
        { m with stack := m.stack.drop operands.length } = .ok ⟨⟩ _ :=
      push_eq_ok.mpr ⟨room, rfl⟩
    exact bind_of_ok hpush
  | native op supplies count answer room =>
    subst answer
    simp only [execute, op, ← count]
    exact map_eq_ok.mpr ⟨_, call_of_native supplies room, rfl⟩
  | enter op supplies count arity depth room =>
    simp only [execute, op, ← count]
    exact map_eq_ok.mpr ⟨_, call_of_enter supplies arity depth room, rfl⟩
  | leave op supplies resumed room =>
    rcases op with ⟨op, rfl, rfl⟩ | ⟨op, rfl⟩
    · simp only [execute, op]
      exact map_eq_ok.mpr ⟨_, leave_of_resumed resumed room, rfl⟩
    · simp only [execute, op]
      refine (bind_of_ok supplies.pop_eq_one).trans ?_
      exact map_eq_ok.mpr ⟨_, leave_eq_ok.mpr ⟨_, _, resumed, room, rfl, rfl⟩, rfl⟩

/-- The effects of an instruction are exactly the ways in which it succeeds. -/
theorem execute_eq_ok_iff : execute i m = .ok event m' ↔ Effect m i event m' :=
  ⟨effect_of_execute, execute_of_effect⟩

end Exec

namespace Machine

variable {m m' : Machine} {events : List Event}

theorem step_of_continues (h : m.Continues events m') : m.step = .continued m' events := by
  cases h with
  | @dispatch i event _ found effect =>
    rw [step_of_instruction? found, Exec.execute_of_effect effect]
    cases event <;> rfl
  | @finish event _ beyond inner effect =>
    rw [step_of_finish beyond inner, Exec.execute_of_effect effect]
    cases event <;> rfl

theorem step_eq_continued_iff : m.step = .continued m' events ↔ m.Continues events m' :=
  ⟨continues_of_step, step_of_continues⟩

end Machine
end BytecodeMachine

import BytecodeMachine.Proofs.Execution.Parts

/-!
# Effects of instructions

An effect says everything that a successful instruction does to the machine. Most instructions
compute a value from operands, which they replace by it; the others discard an operand, jump,
assign a variable, create a closure, run a native function, or enter or leave a frame.
-/

namespace BytecodeMachine

namespace Opcode

/-- The value that the operation pushes on its own account. -/
def literal? : Opcode → Option Value
  | pushTrue => some (.boolean true)
  | pushFalse => some (.boolean false)
  | pushNull => some .null
  | _ => none

/-- The function that the operation applies to one operand. -/
def unary? : Opcode → Option (Value → Except Fault Value)
  | minus => some Value.negate
  | bang => some fun v => .ok (.boolean !v.isTruthy)
  | _ => none

/-- The function that the operation applies to its left and right operand. -/
def binary? : Opcode → Option (Value → Value → Except Fault Value)
  | add => some Arithmetic.add.values
  | sub => some Arithmetic.sub.values
  | mul => some Arithmetic.mul.values
  | div => some Arithmetic.div.values
  | equal => some fun l r => .boolean <$> Comparison.equal.values l r
  | notEqual => some fun l r => .boolean <$> Comparison.notEqual.values l r
  | greaterThan => some fun l r => .boolean <$> Comparison.greaterThan.values l r
  | index => some Value.index
  | _ => none

end Opcode

theorem Arithmetic.binary?_opcode (op : Arithmetic) : op.opcode.binary? = some op.values := by
  cases op <;> rfl

/-- The value that an instruction computes from its operands, listed in the order in which they
were pushed. -/
inductive Computes (m : Machine) (i : Instruction) : List Value → Value → Prop where
  | literal {v} (op : i.opcode.literal? = some v) : Computes m i [] v
  | constant {v} (op : i.opcode = .constant)
      (found : m.environment.constants.get? (i.operand 0) = some v) : Computes m i [] v
  | readGlobal {v} (op : i.opcode = .getGlobal) (found : m.globals[i.operand 0]? = some v) :
      Computes m i [] v
  | readLocal {v} (op : i.opcode = .getLocal) (slot : i.operand 0 < m.calls.top.numSlots)
      (found : m.stack.toList[m.calls.top.base + i.operand 0]? = some v) : Computes m i [] v
  | readBuiltin {b} (op : i.opcode = .getBuiltin)
      (found : m.environment.builtins[i.operand 0]? = some b) : Computes m i [] (.builtin b)
  | readCaptured {v} (op : i.opcode = .getFree)
      (found : m.calls.top.closure.captured[i.operand 0]? = some v) : Computes m i [] v
  | unary {f v w} (op : i.opcode.unary? = some f) (value : f v = .ok w) : Computes m i [v] w
  | binary {f l r w} (op : i.opcode.binary? = some f) (value : f l r = .ok w) :
      Computes m i [l, r] w
  | array {vs : Array Value} (op : i.opcode = .array) (count : vs.size = i.operand 0) :
      Computes m i vs.toList (.array vs)
  | hash {vs : Array Value} {w} (op : i.opcode = .hash) (count : vs.size = i.operand 0)
      (value : Value.hashOf vs = .ok w) : Computes m i vs.toList w

namespace Machine

/-- Continues at an offset of the running code. -/
def jump (m : Machine) (offset : Nat) : Machine :=
  { m with calls := { m.calls with top := { m.calls.top with ip := offset } } }

/-- Operands of the running frame lie on top of the stack, above the part `below`. -/
structure Supplies (m : Machine) (below operands : List Value) : Prop where
  split : m.stack.toList = below ++ operands
  enough : operands.length ≤ m.stack.size - m.floor

end Machine

/-- What a successful instruction does to the machine, with the event it reports. -/
inductive Effect (m : Machine) (i : Instruction) : Option Event → Machine → Prop where
  | compute {below operands v} (supplies : m.Supplies below operands)
      (value : Computes m i operands v)
      (room : (m.stack.drop operands.length).HasRoom) :
      Effect m i none { m with stack := (m.stack.drop operands.length).push v room }
  | discard {below v} (op : i.opcode = .pop) (supplies : m.Supplies below [v]) :
      Effect m i none { m with stack := m.stack.drop 1 }
  | jump (op : i.opcode = .jump) : Effect m i none (m.jump (i.operand 0))
  | pass {below v} (op : i.opcode = .jumpNotTruthy) (supplies : m.Supplies below [v])
      (truthy : v.isTruthy = true) : Effect m i none { m with stack := m.stack.drop 1 }
  | branch {below v} (op : i.opcode = .jumpNotTruthy) (supplies : m.Supplies below [v])
      (falsy : v.isTruthy = false) :
      Effect m i none ({ m with stack := m.stack.drop 1 }.jump (i.operand 0))
  | assignGlobal {below v} (op : i.opcode = .setGlobal) (supplies : m.Supplies below [v])
      (slot : i.operand 0 < m.globals.size) :
      Effect m i none
        { m with stack := m.stack.drop 1, globals := m.globals.set (i.operand 0) v }
  | assignLocal {below v} (op : i.opcode = .setLocal) (supplies : m.Supplies below [v])
      (slot : i.operand 0 < m.calls.top.numSlots)
      (live : m.calls.top.base + i.operand 0 < (m.stack.drop 1).size) :
      Effect m i none
        { m with stack := (m.stack.drop 1).set (m.calls.top.base + i.operand 0) v live }
  | create {below operands f} (op : i.opcode = .closure)
      (found : m.environment.constants.get? (i.operand 0) = some (.function f))
      (supplies : m.Supplies below operands) (count : operands.length = i.operand 1)
      (room : (m.stack.drop operands.length).HasRoom) :
      Effect m i none
        { m with
          stack := (m.stack.drop operands.length).push
            (.closure ⟨.created m.numCreated, f, operands.toArray⟩) room
          numCreated := m.numCreated + 1 }
  | native {below args b reply} (op : i.opcode = .call)
      (supplies : m.Supplies below (.builtin b :: args)) (count : args.length = i.operand 0)
      (answer : m.environment.host b.native args = reply)
      (room : (m.stack.drop (args.length + 1)).HasRoom) :
      Effect m i (some (.calledBuiltin b.name args.length))
        { m with
          stack := (m.stack.drop (args.length + 1)).push reply.value room
          printed := m.printed ++ reply.printed }
  | enter {below args c} (op : i.opcode = .call)
      (supplies : m.Supplies below (.closure c :: args)) (count : args.length = i.operand 0)
      (arity : args.length = c.function.numParameters)
      (depth : m.calls.depth < m.environment.maxFrames)
      (room : (Frame.enter c (below.length + 1)).floor ≤ m.stack.capacity) :
      Effect m i (some (.called (m.calls.depth + 1) (below.length + 1) args.length))
        { m with
          stack := m.stack.growTo (Frame.enter c (below.length + 1)).floor room
          calls := m.calls.push (.enter c (below.length + 1)) }
  | leave {callers caller below} {popped : List Value} {v}
      (op : i.opcode = .returnNull ∧ popped = [] ∧ v = .null ∨
        i.opcode = .returnValue ∧ popped = [v])
      (supplies : m.Supplies below popped)
      (resumed : m.calls.callers = callers.push caller)
      (room : ((m.stack.drop popped.length).truncate (m.calls.top.base - 1)).HasRoom) :
      Effect m i (some (.returned m.calls.depth))
        { m with
          stack := ((m.stack.drop popped.length).truncate (m.calls.top.base - 1)).push v room
          calls := ⟨callers, caller⟩ }

namespace Effect

variable {m m' : Machine} {i : Instruction} {event : Option Event}

theorem environment_eq (h : Effect m i event m') : m'.environment = m.environment := by
  cases h <;> rfl

theorem capacity_eq (h : Effect m i event m') : m'.stack.capacity = m.stack.capacity := by
  cases h with
  | compute | create | native | leave => exact Stack.capacity_push ..
  | assignLocal op supplies slot live => exact Stack.capacity_set _ _ _ live
  | enter op supplies count arity depth room => exact Stack.capacity_growTo _ _ room
  | _ => rfl

theorem numGlobals_eq (h : Effect m i event m') : m'.globals.size = m.globals.size := by
  cases h with
  | assignGlobal op supplies slot => exact Array.size_set slot
  | _ => rfl

end Effect

namespace Machine.Supplies

variable {m : Machine} {below operands : List Value}

theorem length_below (h : m.Supplies below operands) :
    below.length = m.stack.size - operands.length := by
  rw [← Stack.length_toList, h.split, List.length_append, Nat.add_sub_cancel]

/-- All operands but the first one still lie above the floor. -/
theorem floor_add_lt {v : Value} (h : m.Supplies below (v :: operands)) :
    m.floor + operands.length < m.stack.size := by
  have henough := h.enough
  rw [List.length_cons] at henough
  omega

/-- A frame on what lies above the first operand begins behind the slot of that operand. -/
theorem base_eq {v : Value} (h : m.Supplies below (v :: operands)) :
    m.stack.size - operands.length = below.length + 1 := by
  rw [← Stack.length_toList, h.split, List.length_append, List.length_cons]
  omega

theorem toList_drop (h : m.Supplies below operands) :
    (m.stack.drop operands.length).toList = below := Stack.toList_drop_append h.split

/-- All operands but the first one are the topmost values. -/
theorem toList_topmost {v : Value} (h : m.Supplies below (v :: operands)) :
    (m.stack.topmost operands.length).toList = operands := by
  have hsplit : m.stack.toList = (below ++ [v]) ++ operands := by
    rw [h.split, List.append_assoc, List.singleton_append]
  exact Stack.toList_topmost hsplit

/-- The slots of a frame on a closure begin with what lies above the closure. -/
theorem floor_sub_size {c : Closure Value} (h : m.Supplies below (.closure c :: operands))
    (noWrap : (Frame.enter c (below.length + 1)).NoWrap) :
    (Frame.enter c (below.length + 1)).floor - m.stack.size =
      c.function.numSlots - operands.length := by
  have hsize : m.stack.size = below.length + 1 + operands.length := by
    rw [← Stack.length_toList, h.split, List.length_append, List.length_cons]
    omega
  rw [Frame.floor_eq noWrap, hsize]
  exact Nat.add_sub_add_left ..

/-- The other slots of the frame hold null. -/
theorem toList_growTo {c : Closure Value} (h : m.Supplies below (.closure c :: operands))
    (noWrap : (Frame.enter c (below.length + 1)).NoWrap)
    (room : (Frame.enter c (below.length + 1)).floor ≤ m.stack.capacity) :
    (m.stack.growTo (Frame.enter c (below.length + 1)).floor room).toList =
      m.stack.toList ++ .replicate (c.function.numSlots - operands.length) .null := by
  rw [Stack.toList_growTo _ _ room, h.floor_sub_size noWrap]
  rfl

theorem none : m.Supplies m.stack.toList [] := ⟨by simp, by simp⟩

theorem one {v : Value} (hfloor : m.floor < m.stack.size) (htop : m.stack.top? = some v) :
    m.Supplies (m.stack.drop 1).toList [v] :=
  ⟨Stack.eq_append_of_top? htop, by simp; omega⟩

theorem two {l r : Value} (hfloor : m.floor < (m.stack.drop 1).size)
    (hright : m.stack.top? = some r) (hleft : (m.stack.drop 1).top? = some l) :
    m.Supplies (m.stack.drop 2).toList [l, r] := by
  constructor
  · rw [Stack.eq_append_of_top? hright, Stack.eq_append_of_top? hleft, Stack.drop_drop,
      List.append_assoc]
    rfl
  · rw [Stack.size_drop] at hfloor
    simp
    omega

theorem many {n : Nat} (h : n ≤ m.stack.size - m.floor) :
    m.Supplies (m.stack.drop n).toList (m.stack.topmost n).toList ∧
      (m.stack.topmost n).toList.length = n := by
  have hlen : (m.stack.topmost n).toList.length = n := Stack.length_topmost (by omega)
  exact ⟨⟨Stack.toList_topmost_append _ _, by rwa [hlen]⟩, hlen⟩

end Machine.Supplies

namespace Exec

variable {m m' : Machine} {i : Instruction} {event : Option Event}

private theorem quietly_eq_ok {x : Exec Unit} :
    execute.quietly x m = .ok event m' ↔ x m = .ok ⟨⟩ m' ∧ event = none := by
  rw [execute.quietly, bind_eq_ok]
  constructor
  · rintro ⟨_, _, hx, ⟨⟩⟩
    exact ⟨hx, rfl⟩
  · rintro ⟨hx, rfl⟩
    exact ⟨_, _, hx, rfl⟩

private theorem effect_of_push {v : Value} (value : Computes m i [] v)
    (h : push v m = .ok ⟨⟩ m') : Effect m i none m' := by
  obtain ⟨room, rfl⟩ := push_eq_ok.mp h
  simpa using Effect.compute .none value (by simpa using room)

private theorem effect_of_unary {f : Value → Except Fault Value} (op : i.opcode.unary? = some f)
    (h : unary f m = .ok ⟨⟩ m') : Effect m i none m' := by
  simp only [unary, bind_eq_ok, pop_eq_ok, ofExcept_eq_ok, push_eq_ok] at h
  obtain ⟨v, _, ⟨hfloor, htop, rfl⟩, w, _, ⟨hw, rfl⟩, room, rfl⟩ := h
  exact .compute (.one hfloor htop) (.unary op hw) (by simpa using room)

private theorem effect_of_binary {f : Value → Value → Except Fault Value}
    (op : i.opcode.binary? = some f) (h : binary f m = .ok ⟨⟩ m') : Effect m i none m' := by
  simp only [binary, bind_eq_ok, pop_eq_ok, ofExcept_eq_ok, push_eq_ok] at h
  obtain ⟨r, _, ⟨_, hright, rfl⟩, l, _, ⟨hfloor, hleft, rfl⟩, w, _, ⟨hw, rfl⟩, room, rfl⟩ := h
  simp only [Stack.drop_drop] at room ⊢
  exact .compute (.two hfloor hright hleft) (.binary op hw) room

private theorem effect_of_getGlobal (op : i.opcode = .getGlobal)
    (h : getGlobal (i.operand 0) m = .ok ⟨⟩ m') : Effect m i none m' := by
  rw [getGlobal, observe_bind] at h
  cases found : m.globals[i.operand 0]? with
  | none => simp [found] at h
  | some v => exact effect_of_push (.readGlobal op found) (by simpa [found] using h)

private theorem effect_of_getBuiltin (op : i.opcode = .getBuiltin)
    (h : getBuiltin (i.operand 0) m = .ok ⟨⟩ m') : Effect m i none m' := by
  rw [getBuiltin, observe_bind] at h
  cases found : m.environment.builtins[i.operand 0]? with
  | none => simp [found] at h
  | some v => exact effect_of_push (.readBuiltin op found) (by simpa [found] using h)

private theorem effect_of_getCaptured (op : i.opcode = .getFree)
    (h : getCaptured (i.operand 0) m = .ok ⟨⟩ m') : Effect m i none m' := by
  rw [getCaptured, observe_bind] at h
  cases found : m.calls.top.closure.captured[i.operand 0]? with
  | none => simp [found] at h
  | some v => exact effect_of_push (.readCaptured op found) (by simpa [found] using h)

private theorem effect_of_getLocal (op : i.opcode = .getLocal)
    (h : getLocal (i.operand 0) m = .ok ⟨⟩ m') : Effect m i none m' := by
  simp only [getLocal, bind_eq_ok, localSlot_eq_ok] at h
  obtain ⟨_, _, ⟨slot, rfl, rfl⟩, v, _, ⟨⟩, h⟩ := h
  cases found : m.stack.get? (m.calls.top.base + i.operand 0) with
  | none => simp [found] at h
  | some v =>
    rw [Stack.get?_eq_getElem?] at found
    exact effect_of_push (.readLocal op slot found)
      (by simpa [Stack.get?_eq_getElem?, found] using h)

private theorem effect_of_jumpUnlessTruthy (op : i.opcode = .jumpNotTruthy)
    (h : jumpUnlessTruthy (i.operand 0) m = .ok ⟨⟩ m') : Effect m i none m' := by
  simp only [jumpUnlessTruthy, bind_eq_ok, pop_eq_ok] at h
  obtain ⟨v, _, ⟨hfloor, htop, rfl⟩, h⟩ := h
  cases truth : v.isTruthy with
  | true =>
    rw [truth] at h
    cases h
    exact .pass op (.one hfloor htop) truth
  | false =>
    rw [truth] at h
    cases h
    exact .branch op (.one hfloor htop) truth

private theorem effect_of_setGlobal (op : i.opcode = .setGlobal)
    (h : setGlobal (i.operand 0) m = .ok ⟨⟩ m') : Effect m i none m' := by
  simp only [setGlobal, bind_eq_ok, pop_eq_ok, assignGlobal_eq_ok] at h
  obtain ⟨v, _, ⟨hfloor, htop, rfl⟩, slot, rfl⟩ := h
  exact .assignGlobal op (.one hfloor htop) slot

private theorem effect_of_setLocal (op : i.opcode = .setLocal)
    (h : setLocal (i.operand 0) m = .ok ⟨⟩ m') : Effect m i none m' := by
  simp only [setLocal, bind_eq_ok, localSlot_eq_ok, pop_eq_ok, assignSlot_eq_ok] at h
  obtain ⟨_, _, ⟨slot, rfl, rfl⟩, v, _, ⟨hfloor, htop, rfl⟩, live, rfl⟩ := h
  exact .assignLocal op (.one hfloor htop) slot live

private theorem effect_of_array (op : i.opcode = .array)
    (h : (do push (.array (← popMany (i.operand 0))) : Exec Unit) m = .ok ⟨⟩ m') :
    Effect m i none m' := by
  simp only [bind_eq_ok, popMany_eq_ok, push_eq_ok] at h
  obtain ⟨_, _, ⟨enough, rfl, rfl⟩, room, rfl⟩ := h
  obtain ⟨supplies, count⟩ := Machine.Supplies.many enough
  have effect := Effect.compute supplies (.array op (by simpa using count)) (by rwa [count])
  simpa only [count] using effect

private theorem effect_of_hash (op : i.opcode = .hash)
    (h : (do
      let operands ← popMany (i.operand 0)
      push (← MonadExcept.ofExcept (Value.hashOf operands)) : Exec Unit) m = .ok ⟨⟩ m') :
    Effect m i none m' := by
  simp only [bind_eq_ok, popMany_eq_ok, ofExcept_eq_ok, push_eq_ok] at h
  obtain ⟨_, _, ⟨enough, rfl, rfl⟩, w, _, ⟨value, rfl⟩, room, rfl⟩ := h
  obtain ⟨supplies, count⟩ := Machine.Supplies.many enough
  have effect := Effect.compute supplies (.hash op (by simpa using count) value) (by rwa [count])
  simpa only [count] using effect

private theorem effect_of_pushClosure (op : i.opcode = .closure)
    (h : pushClosure (i.operand 0) (i.operand 1) m = .ok ⟨⟩ m') : Effect m i none m' := by
  simp only [pushClosure, bind_eq_ok, constant_eq_ok] at h
  obtain ⟨c, _, ⟨found, rfl⟩, h⟩ := h
  cases c with
  | function f =>
    simp only [bind_eq_ok, popMany_eq_ok, observe_bind, push_eq_ok, modify_apply] at h
    obtain ⟨_, _, ⟨enough, rfl, rfl⟩, _, _, ⟨room, rfl⟩, ⟨⟩⟩ := h
    obtain ⟨supplies, count⟩ := Machine.Supplies.many enough
    have effect := Effect.create op found supplies count (by rwa [count])
    simpa only [count, Array.toArray_toList] using effect
  | _ => cases h

/-- What a call with so many arguments does with the callee. -/
def invoke (numArguments : Nat) : Value → Exec Event
  | .closure c => callClosure c numArguments
  | .builtin b => callBuiltin b numArguments
  | other => throw (.notCallable other.kind)

/-- The callee lies below the arguments. -/
theorem call_of_supplies {below args : List Value} {callee : Value}
    (supplies : m.Supplies below (callee :: args)) :
    call args.length m = invoke args.length callee m := by
  have hbelow := supplies.length_below
  rw [List.length_cons] at hbelow
  have found : m.stack.get? (m.stack.size - (args.length + 1)) = some callee := by
    rw [Stack.get?_eq_getElem?, supplies.split, ← hbelow]
    simp
  simp only [call, observe_bind, if_pos supplies.floor_add_lt, found]
  cases callee <;> rfl

/-- A call lacks operands, or it finds a callee below its arguments. -/
theorem call_cases (m : Machine) (n : Nat) :
    m.stack.size - m.floor < n + 1 ∧ call n m = .error .stackUnderflow m ∨
      ∃ below callee args, m.Supplies below (callee :: args) ∧ args.length = n ∧
        call n m = invoke n callee m := by
  rcases Nat.lt_or_ge (m.stack.size - m.floor) (n + 1) with few | enough
  · have lacking : ¬m.floor + n < m.stack.size := by omega
    refine .inl ⟨few, ?_⟩
    simp only [call, observe_bind, if_neg lacking]
    rfl
  · obtain ⟨supplies, count⟩ := Machine.Supplies.many enough
    obtain ⟨callee, args, hsplit⟩ := List.exists_cons_of_length_eq_add_one count
    rw [hsplit] at supplies count
    obtain rfl : args.length = n := Nat.succ.inj count
    exact .inr ⟨_, callee, args, supplies, rfl, call_of_supplies supplies⟩

private theorem effect_of_callClosure {below args : List Value} {c : Closure Value} {e : Event}
    (op : i.opcode = .call) (supplies : m.Supplies below (.closure c :: args))
    (count : args.length = i.operand 0) (h : callClosure c (i.operand 0) m = .ok e m') :
    Effect m i (some e) m' := by
  have hbase : m.stack.size - i.operand 0 = below.length + 1 := count ▸ supplies.base_eq
  obtain ⟨arity, depth, room, rfl, rfl⟩ := callClosure_eq_ok.mp h
  have effect := Effect.enter op supplies count (count.trans arity) depth (by rwa [hbase] at room)
  simpa only [hbase, count] using effect

private theorem effect_of_callBuiltin {below args : List Value} {b : Builtin} {e : Event}
    (op : i.opcode = .call) (supplies : m.Supplies below (.builtin b :: args))
    (count : args.length = i.operand 0) (h : callBuiltin b (i.operand 0) m = .ok e m') :
    Effect m i (some e) m' := by
  have hargs : (m.stack.topmost (i.operand 0)).toList = args := count ▸ supplies.toList_topmost
  obtain ⟨room, rfl, rfl⟩ := callBuiltin_eq_ok.mp h
  have effect := Effect.native op supplies count rfl (by rwa [count])
  simpa only [count, hargs] using effect

private theorem effect_of_call {e : Event} (op : i.opcode = .call)
    (h : call (i.operand 0) m = .ok e m') : Effect m i (some e) m' := by
  rcases call_cases m (i.operand 0) with ⟨-, heq⟩ | ⟨below, callee, args, supplies, count, heq⟩
  · cases heq.symm.trans h
  · rw [heq] at h
    cases callee with
    | closure c => exact effect_of_callClosure op supplies count h
    | builtin b => exact effect_of_callBuiltin op supplies count h
    | _ => cases h

private theorem effect_of_returnNull {e : Event} (op : i.opcode = .returnNull)
    (h : leave .null m = .ok e m') : Effect m i (some e) m' := by
  obtain ⟨callers, caller, resumed, room, rfl, rfl⟩ := leave_eq_ok.mp h
  have effect := Effect.leave (.inl ⟨op, rfl, rfl⟩) .none resumed (by simpa using room)
  simpa using effect

private theorem effect_of_returnValue (op : i.opcode = .returnValue)
    (h : (do some <$> leave (← pop) : Exec (Option Event)) m = .ok event m') :
    Effect m i event m' := by
  simp only [bind_eq_ok, pop_eq_ok, map_eq_ok] at h
  obtain ⟨v, _, ⟨hfloor, htop, rfl⟩, e, h, rfl⟩ := h
  obtain ⟨callers, caller, resumed, room, rfl, rfl⟩ := leave_eq_ok.mp h
  exact .leave (.inr ⟨op, rfl⟩) (.one hfloor htop) resumed room

private theorem effect_of_constant (op : i.opcode = .constant)
    (h : (do push (← constant (i.operand 0)) : Exec Unit) m = .ok ⟨⟩ m') :
    Effect m i none m' := by
  simp only [bind_eq_ok, constant_eq_ok] at h
  obtain ⟨v, _, ⟨found, rfl⟩, h⟩ := h
  exact effect_of_push (.constant op found) h

private theorem effect_of_pop (op : i.opcode = .pop)
    (h : (discard pop : Exec Unit) m = .ok ⟨⟩ m') : Effect m i none m' := by
  have hmap : (discard pop : Exec Unit) = (fun _ => ⟨⟩) <$> pop := rfl
  rw [hmap, map_eq_ok] at h
  obtain ⟨v, hpop, -⟩ := h
  obtain ⟨hfloor, htop, rfl⟩ := pop_eq_ok.mp hpop
  exact .discard op (.one hfloor htop)

/-- A successful instruction has one of the effects. -/
theorem effect_of_execute (h : execute i m = .ok event m') : Effect m i event m' := by
  cases op : i.opcode
  all_goals simp only [execute, op, quietly_eq_ok, map_eq_ok] at h
  case returnValue => exact effect_of_returnValue op h
  case call =>
    obtain ⟨e, h, rfl⟩ := h
    exact effect_of_call op h
  case returnNull =>
    obtain ⟨e, h, rfl⟩ := h
    exact effect_of_returnNull op h
  all_goals obtain ⟨h, rfl⟩ := h
  case constant => exact effect_of_constant op h
  case pop => exact effect_of_pop op h
  case pushTrue | pushFalse | pushNull => exact effect_of_push (.literal (by rw [op]; rfl)) h
  case add | sub | mul | div | equal | notEqual | greaterThan | index =>
    exact effect_of_binary (by rw [op]; rfl) h
  case minus | bang => exact effect_of_unary (by rw [op]; rfl) h
  case jump =>
    cases h
    exact .jump op
  case jumpNotTruthy => exact effect_of_jumpUnlessTruthy op h
  case getGlobal => exact effect_of_getGlobal op h
  case setGlobal => exact effect_of_setGlobal op h
  case getLocal => exact effect_of_getLocal op h
  case setLocal => exact effect_of_setLocal op h
  case getBuiltin => exact effect_of_getBuiltin op h
  case getFree => exact effect_of_getCaptured op h
  case array => exact effect_of_array op h
  case hash => exact effect_of_hash op h
  case closure => exact effect_of_pushClosure op h

end Exec
end BytecodeMachine

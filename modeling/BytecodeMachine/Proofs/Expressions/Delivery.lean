import BytecodeMachine.Proofs.Execution.Completeness
import BytecodeMachine.Proofs.Execution.Step
import BytecodeMachine.Proofs.Expressions.Basic

/-!
# Delivered answers

While a frame computes, its code, its place on the stack and the pool stay as they are. A piece of
its code delivers an answer if running it leads behind the piece with the answer on the stack, or
into the fault that the answer is.
-/

namespace BytecodeMachine

/-- The answer of an instruction to operands, listed in the order in which they were pushed. -/
inductive Instruction.Answers (constants : Pool) (i : Instruction) :
    List Value → Except Fault Value → Prop where
  | literal {v : Value} (op : i.opcode.literal? = some v) : Answers constants i [] (.ok v)
  | constant (op : i.opcode = .constant) :
      Answers constants i [] ((Expression.constant (i.operand 0)).evaluate constants)
  | unary {f : Value → Except Fault Value} {v : Value} (op : i.opcode.unary? = some f) :
      Answers constants i [v] (f v)
  | binary {f : Value → Value → Except Fault Value} {l r : Value}
      (op : i.opcode.binary? = some f) : Answers constants i [l, r] (f l r)
  | array {vs : List Value} (op : i.opcode = .array) (count : vs.length = i.operand 0) :
      Answers constants i vs (.ok (.array vs.toArray))
  | hash {vs : List Value} (op : i.opcode = .hash) (count : vs.length = i.operand 0) :
      Answers constants i vs (Value.hashOf vs.toArray)

namespace Exec

variable {α β : Type} {m m' : Machine} {i : Instruction} {below vs : List Value}
  {x : Except Fault Value}

theorem bind_congr_apply {part part' : Exec α} {f : α → Exec β} (h : part m = part' m) :
    (part >>= f) m = (part' >>= f) m := by
  change EStateM.bind part f m = EStateM.bind part' f m
  rw [EStateM.bind, EStateM.bind, h]

/-- What is left of a machine once an answer has taken the place of operands. A fault is no answer,
and only the operands are gone. -/
def replaced (m : Machine) (n : Nat) (room : (m.stack.drop n).HasRoom) (a : α) :
    Except Fault Value → EStateM.Result Fault Machine α
  | .ok v => .ok a { m with stack := (m.stack.drop n).push v room }
  | .error fault => .error fault { m with stack := m.stack.drop n }

section

variable {n : Nat} {room : (m.stack.drop n).HasRoom}

theorem pushAnswer_eq :
    (MonadExcept.ofExcept x >>= push : Exec Unit) { m with stack := m.stack.drop n } =
      replaced m n room ⟨⟩ x := by
  cases x with
  | ok v => exact push_eq_ok.mpr ⟨room, rfl⟩
  | error fault => rfl

/-- Without operands, the answer is pushed at once. -/
theorem pushAnswer_eq_zero {room : (m.stack.drop 0).HasRoom} :
    (MonadExcept.ofExcept x >>= push : Exec Unit) m = replaced m 0 room ⟨⟩ x := by
  rw [← pushAnswer_eq, Stack.drop_zero]

theorem quietly_eq {part : Exec Unit} (h : part m = replaced m n room ⟨⟩ x) :
    execute.quietly part m = replaced m n room none x := by
  cases x with
  | ok v => exact bind_of_ok h
  | error fault => exact bind_of_error h

end

theorem constant_eq {k : Nat} :
    constant k m =
      (MonadExcept.ofExcept ((Expression.constant k).evaluate m.environment.constants) :
        Exec Value) m := by
  rw [constant, observe_bind, Expression.evaluate]
  cases m.environment.constants.get? k <;> rfl

theorem unary_eq {f : Value → Except Fault Value} {v : Value} (supplies : m.Supplies below [v])
    (room : (m.stack.drop 1).HasRoom) : unary f m = replaced m 1 room ⟨⟩ (f v) := by
  rw [unary, bind_of_ok supplies.pop_eq_one]
  exact pushAnswer_eq

theorem binary_eq {f : Value → Value → Except Fault Value} {l r : Value}
    (supplies : m.Supplies below [l, r]) (room : (m.stack.drop 2).HasRoom) :
    binary f m = replaced m 2 room ⟨⟩ (f l r) := by
  have supplies : m.Supplies below ([l] ++ [r]) := supplies
  obtain ⟨hright, supplies⟩ := supplies.pop_eq
  have hleft := supplies.pop_eq_one
  rw [Stack.drop_drop] at hleft
  rw [binary, bind_of_ok hright, bind_of_ok hleft]
  exact pushAnswer_eq (m := m)

/-- An instruction that computes replaces its operands by its answer. -/
theorem execute_of_answers (answers : i.Answers m.environment.constants vs x)
    (supplies : m.Supplies below vs) (room : (m.stack.drop vs.length).HasRoom) :
    execute i m = replaced m vs.length room none x := by
  cases answers with
  | literal op =>
    rw [execute_of_literal op]
    exact quietly_eq (pushAnswer_eq_zero (x := .ok _))
  | constant op =>
    simp only [execute, op]
    refine quietly_eq (Eq.trans ?_ pushAnswer_eq_zero)
    exact bind_congr_apply constant_eq
  | unary op =>
    rw [execute_of_unary op]
    exact quietly_eq (unary_eq supplies room)
  | binary op =>
    rw [execute_of_binary op]
    exact quietly_eq (binary_eq supplies room)
  | array op count =>
    simp only [execute, op, ← count]
    refine quietly_eq ?_
    rw [bind_of_ok supplies.popMany_eq]
    exact pushAnswer_eq (x := .ok _)
  | hash op count =>
    simp only [execute, op, ← count]
    refine quietly_eq ?_
    rw [bind_of_ok supplies.popMany_eq]
    exact pushAnswer_eq

theorem execute_pop {v : Value} (supplies : m.Supplies below [v]) :
    execute ⟨.pop, []⟩ m = .ok none { m with stack := m.stack.drop 1 } :=
  execute_of_effect (.discard rfl supplies)

theorem execute_jumpNotTruthy {v : Value} {target : Nat} (supplies : m.Supplies below [v]) :
    execute ⟨.jumpNotTruthy, [target]⟩ m =
      .ok none ({ m with stack := m.stack.drop 1 }.jump
        (if v.isTruthy then m.calls.top.ip else target)) := by
  cases truth : v.isTruthy with
  | true => exact execute_of_effect (.pass rfl supplies truth)
  | false => exact execute_of_effect (.branch rfl supplies truth)

end Exec

/-- What stays as it is while a frame computes. -/
structure Activation where
  code : Code
  constants : Pool
  capacity : Nat
  floor : Nat
  depth : Nat

namespace Activation

open Machine

variable {α β : Type} {act : Activation} {m m' : Machine} {start mid stop : Nat}
  {below values vs : List Value} {i : Instruction} {is : List Instruction}

/-- The machine goes on with the frame at an offset, over the given stack. -/
structure At (act : Activation) (m : Machine) (offset : Nat) (values : List Value) : Prop where
  code_eq : m.calls.top.code = act.code
  constants_eq : m.environment.constants = act.constants
  capacity_eq : m.stack.capacity = act.capacity
  floor_eq : m.floor = act.floor
  depth_eq : m.calls.depth = act.depth
  ip_eq : m.calls.top.ip = offset
  toList_eq : m.stack.toList = values

theorem At.moved (h : act.At m start values) (offset : Nat) (s : Stack Value)
    (capacity : s.capacity = m.stack.capacity) :
    act.At ({ m with stack := s }.jump offset) offset s.toList :=
  ⟨h.code_eq, h.constants_eq, capacity.trans h.capacity_eq, h.floor_eq, h.depth_eq, rfl, rfl⟩

theorem At.instruction? (h : act.At m start values) (listed : act.code.Lists start (i :: is)) :
    m.instruction? = some i := by
  obtain ⟨⟩ | ⟨inside, first, -⟩ := listed
  simp only [Machine.instruction?, h.code_eq, h.ip_eq, dif_pos inside, first]
  rfl

theorem At.supplies (h : act.At m start (below ++ vs)) (floor : act.floor ≤ below.length)
    (offset : Nat) : (m.jump offset).Supplies below vs := by
  refine ⟨h.toList_eq, ?_⟩
  have hsize : m.stack.size = below.length + vs.length := by
    rw [← Stack.length_toList, h.toList_eq, List.length_append]
  have hfloor := h.floor_eq
  change vs.length ≤ m.stack.size - m.floor
  omega

/-- The run goes on to an offset with the answer on the stack, or it fails in this frame. -/
def Reaches (act : Activation) (m : Machine) (stop : Nat) (after : α → List Value) :
    Except Fault α → Prop
  | .ok a => ∃ past m', Run m past m' ∧ act.At m' stop (after a)
  | .error fault => ∃ past m' offset m'' events,
      Run m past m' ∧ m'.step = .failed m'' ⟨fault, offset, act.depth⟩ events

/-- From an offset and a stack, the frame computes the answer. -/
def Delivers (act : Activation) (start : Nat) (values : List Value) (stop : Nat)
    (after : α → List Value) (x : Except Fault α) : Prop :=
  ∀ m, act.At m start values → act.Reaches m stop after x

variable {before : α → List Value} {after : β → List Value}

theorem Reaches.of_run {past : List Machine} {x : Except Fault α} (run : Run m past m')
    (h : act.Reaches m' stop before x) : act.Reaches m stop before x := by
  cases x with
  | ok a =>
    obtain ⟨later, last, run', hat⟩ := h
    exact ⟨_, last, run.trans run', hat⟩
  | error fault =>
    obtain ⟨later, last, offset, failed, events, run', hstep⟩ := h
    exact ⟨_, last, offset, failed, events, run.trans run', hstep⟩

/-- What is computed next starts from the first answer. -/
theorem Delivers.bind {x : Except Fault α} {f : α → Except Fault β}
    (h : act.Delivers start values mid before x)
    (hf : ∀ a, x = .ok a → act.Delivers mid (before a) stop after (f a)) :
    act.Delivers start values stop after (x >>= f) := by
  intro m hat
  cases x with
  | error fault => exact h m hat
  | ok a =>
    obtain ⟨past, m', run, hat'⟩ := h m hat
    exact (hf a rfl m' hat').of_run run

theorem delivers_pure (a : α) : act.Delivers start (before a) start before (.ok a) :=
  fun m hat => ⟨[], m, .refl, hat⟩

/-- The answer is computed from what a first piece of code leaves on the stack. -/
theorem Delivers.andThen {values' : List Value} {x : Except Fault α}
    (h : act.Delivers start values mid (fun _ : Unit => values') (.ok ⟨⟩))
    (hx : act.Delivers mid values' stop before x) : act.Delivers start values stop before x :=
  h.bind (f := fun _ => x) fun _ _ => hx

/-- The run goes on elsewhere once it has the answer. -/
theorem Delivers.leads {x : Except Fault α} (h : act.Delivers start values mid before x)
    (hx : ∀ a, act.Delivers mid (before a) stop (fun _ : Unit => before a) (.ok ⟨⟩)) :
    act.Delivers start values stop before x := by
  rw [← bind_pure x]
  exact h.bind fun a _ => (hx a).andThen (delivers_pure a)

theorem Reaches.of_execute_ok {a : α} (found : m.instruction? = some i)
    (thrown : Exec.execute i (m.pass i) = .ok none m') (hat : act.At m' stop (before a)) :
    act.Reaches m stop before (.ok a) := by
  have hstep := step_of_instruction? found
  rw [thrown] at hstep
  exact ⟨_, m', .step .refl hstep, hat⟩

theorem Reaches.of_execute_error {fault : Fault} (hat : act.At m start values)
    (found : m.instruction? = some i) (thrown : Exec.execute i (m.pass i) = .error fault m') :
    act.Reaches m stop before (.error fault) := by
  have hstep := step_of_instruction? found
  rw [thrown, hat.depth_eq] at hstep
  exact ⟨[], m, _, m', _, .refl, hstep⟩

/-- An instruction that computes takes its operands from the stack. -/
theorem delivers_of_answers {x : Except Fault Value} (listed : act.code.Lists start [i])
    (answers : i.Answers act.constants vs x) (floor : act.floor ≤ below.length)
    (room : below.length < act.capacity) :
    act.Delivers start (below ++ vs) (start + i.length) (fun v => below ++ [v]) x := by
  intro m hat
  obtain rfl := hat.ip_eq
  have found := hat.instruction? listed
  have supplies : (m.pass i).Supplies below vs := hat.supplies floor _
  have hroom : (m.stack.drop vs.length).HasRoom := supplies.hasRoom (hat.capacity_eq ▸ room)
  have hexecute :=
    Exec.execute_of_answers (m := m.pass i) (hat.constants_eq ▸ answers) supplies hroom
  cases x with
  | ok v =>
    have hmoved := hat.moved (m.calls.top.ip + i.length) ((m.stack.drop vs.length).push v hroom)
      (Stack.capacity_push ..)
    have hbelow : (m.stack.drop vs.length).toList = below := supplies.toList_drop
    rw [Stack.toList_push, hbelow] at hmoved
    exact .of_execute_ok found hexecute hmoved
  | error fault => exact .of_execute_error hat found hexecute

theorem delivers_of_answers_nil {x : Except Fault Value} (listed : act.code.Lists start [i])
    (answers : i.Answers act.constants [] x) (floor : act.floor ≤ values.length)
    (room : values.length < act.capacity) :
    act.Delivers start values (start + i.length) (fun v => values ++ [v]) x := by
  have h := delivers_of_answers listed answers floor room
  rwa [List.append_nil] at h

theorem delivers_jump {target : Nat} (listed : act.code.Lists start [⟨.jump, [target]⟩]) :
    act.Delivers start values target (fun _ : Unit => values) (.ok ⟨⟩) := by
  intro m hat
  have hmoved := hat.moved target m.stack rfl
  rw [hat.toList_eq] at hmoved
  exact .of_execute_ok (hat.instruction? listed) rfl hmoved

theorem delivers_jumpNotTruthy {target : Nat} {v : Value}
    (listed : act.code.Lists start [⟨.jumpNotTruthy, [target]⟩])
    (floor : act.floor ≤ values.length) :
    act.Delivers start (values ++ [v])
      (if v.isTruthy then start + Opcode.jumpNotTruthy.length else target)
      (fun _ : Unit => values) (.ok ⟨⟩) := by
  intro m hat
  obtain rfl := hat.ip_eq
  have supplies := hat.supplies floor (m.calls.top.ip + Opcode.jumpNotTruthy.length)
  have hmoved := hat.moved
    (if v.isTruthy then m.calls.top.ip + Opcode.jumpNotTruthy.length else target)
    (m.stack.drop 1) rfl
  have hbelow : (m.stack.drop 1).toList = values := supplies.toList_drop
  rw [hbelow] at hmoved
  exact .of_execute_ok (hat.instruction? listed) (Exec.execute_jumpNotTruthy supplies) hmoved

/-- What is popped stays in the slot above the stack. -/
theorem At.exists_popped {v : Value} (hat : act.At m start (values ++ [v]))
    (listed : act.code.Lists start [⟨.pop, []⟩]) (floor : act.floor ≤ values.length) :
    ∃ m' events, m.step = .continued m' events ∧
      act.At m' (start + Opcode.pop.length) values ∧ m'.stack.lastPopped? = some v := by
  obtain rfl := hat.ip_eq
  have supplies := hat.supplies floor (m.calls.top.ip + Opcode.pop.length)
  have hpop := step_of_instruction? (hat.instruction? listed)
  rw [show Exec.execute ⟨.pop, []⟩ (m.pass ⟨.pop, []⟩) = _ from Exec.execute_pop supplies] at hpop
  have hmoved := hat.moved (m.calls.top.ip + Opcode.pop.length) (m.stack.drop 1) rfl
  have hbelow : (m.stack.drop 1).toList = values := supplies.toList_drop
  rw [hbelow] at hmoved
  have hpos : 0 < m.stack.size := by
    rw [← Stack.length_toList, hat.toList_eq, List.length_append, List.length_singleton]
    omega
  have htop : m.stack.top? = some v := by
    rw [Stack.top?_eq_getLast?, hat.toList_eq, List.getLast?_concat]
  exact ⟨_, _, hpop, hmoved, (Stack.lastPopped?_drop_one hpos).trans htop⟩

end Activation

end BytecodeMachine

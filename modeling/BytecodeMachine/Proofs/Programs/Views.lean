import BytecodeMachine.Proofs.Decoding.Listed
import BytecodeMachine.Proofs.Execution.Completeness

/-!
# Views

The view of a machine is what its program can see of it, so neither the slots above the live values
nor what was printed. A program is followed from view to view: each rule says where an instruction
leads, and a call and the return from it lead back behind the call.
-/

namespace BytecodeMachine

/-- What a program can see. -/
structure View where
  environment : Environment
  globals : Array Value
  capacity : Nat
  numCreated : Nat
  calls : CallStack
  /-- The live values, topmost first. -/
  values : List Value

def Machine.view (m : Machine) : View :=
  ⟨m.environment, m.globals, m.stack.capacity, m.numCreated, m.calls, m.stack.toList.reverse⟩

namespace View

open Machine

/-- The next instruction. -/
def Next (v : View) (i : Instruction) : Prop := v.calls.top.code.Lists v.calls.top.ip [i]

/-- The running frame goes on at an offset, over the given values. -/
def goto (v : View) (offset : Nat) (values : List Value) : View :=
  { v with calls := { v.calls with top := { v.calls.top with ip := offset } }, values }

/-- The running frame goes on behind its next instruction. -/
def pass (v : View) (i : Instruction) (values : List Value) : View :=
  v.goto (v.calls.top.ip + i.length) values

/-- A closure begins to run on slots from the base on, above the running frame. -/
def callee (v : View) (c : Closure Value) (base : Nat) : View :=
  { v with calls := v.calls.push (.enter c base) }

/-- From every machine with the one view, a run leads to a machine with the other. -/
def Leads (v w : View) : Prop :=
  ∀ m : Machine, m.view = v → ∃ past m', Run m past m' ∧ m'.view = w

/-- From every machine with the view, a run fails at the depth with the fault. -/
def Fails (v : View) (fault : Fault) (depth : Nat) : Prop :=
  ∀ m : Machine, m.view = v → ∃ past m' m'' offset events,
    Run m past m' ∧ m'.step = .failed m'' ⟨fault, offset, depth⟩ events

variable {u v w : View} {m : Machine} {i : Instruction} {fault : Fault} {depth target n : Nat}
  {operands rest args : List Value} {a l r : Value} {c : Closure Value} {f : Function}

theorem Leads.trans (h : u.Leads v) (h' : v.Leads w) : u.Leads w := by
  intro m hm
  obtain ⟨past, m', run, hm'⟩ := h m hm
  obtain ⟨later, m'', run', hm''⟩ := h' m' hm'
  exact ⟨_, m'', run.trans run', hm''⟩

theorem Leads.fails (h : v.Leads w) (h' : w.Fails fault depth) : v.Fails fault depth := by
  intro m hm
  obtain ⟨past, m', run, hm'⟩ := h m hm
  obtain ⟨later, last, failed, offset, events, run', hstep⟩ := h' m' hm'
  exact ⟨_, last, failed, offset, events, run.trans run', hstep⟩

theorem supplies (operands : List Value) (split : m.view.values = operands ++ rest)
    (floor : m.floor ≤ rest.length) : m.Supplies rest.reverse operands.reverse := by
  have hlive : m.stack.toList = rest.reverse ++ operands.reverse := by
    rw [← List.reverse_append, ← split]
    exact (List.reverse_reverse _).symm
  have hsize : m.stack.size = rest.length + operands.length := by
    rw [← Stack.length_toList, hlive]
    simp
  exact ⟨hlive, by rw [List.length_reverse]; omega⟩

theorem view_with {s : Stack Value} {calls : CallStack} {values : List Value}
    (capacity : s.capacity = m.stack.capacity) (live : s.toList = values.reverse) :
    ({ m with stack := s, calls } : Machine).view = { m.view with calls, values } := by
  simp only [view, capacity, live, List.reverse_reverse]

theorem view_drop (h : m.Supplies rest.reverse operands) :
    ({ m with stack := m.stack.drop operands.length } : Machine).view =
      { m.view with values := rest } := view_with rfl h.toList_drop

theorem view_replace (h : m.Supplies rest.reverse operands)
    (room : (m.stack.drop operands.length).HasRoom) :
    ({ m with stack := (m.stack.drop operands.length).push a room } : Machine).view =
      { m.view with values := a :: rest } := by
  refine view_with (Stack.capacity_push ..) ?_
  rw [Stack.toList_push, h.toList_drop, List.reverse_cons]

theorem instruction?_of_next (next : m.view.Next i) : m.instruction? = some i := by
  obtain ⟨⟩ | ⟨inside, first, -⟩ := next
  exact instruction?_eq inside first

/-- An instruction leads where its effect does. -/
theorem leads_of_effect (next : v.Next i)
    (effect : ∀ m : Machine, m.view = v → ∃ event m',
      Effect (m.pass i) i event m' ∧ m'.view = w) : v.Leads w := by
  rintro m rfl
  obtain ⟨event, m', heffect, hw⟩ := effect m rfl
  exact ⟨[m], m', .step .refl (step_of_continues (.dispatch (instruction?_of_next next) heffect)),
    hw⟩

/-- A computed value takes the place of the operands. -/
theorem leads_of_computes (operands : List Value) (next : v.Next i)
    (split : v.values = operands ++ rest)
    (value : ∀ m : Machine, m.view = v → Computes (m.pass i) i operands.reverse a)
    (floor : v.calls.top.floor ≤ rest.length) (room : rest.length < v.capacity) :
    v.Leads (v.pass i (a :: rest)) := by
  refine leads_of_effect next ?_
  rintro m rfl
  have supplies : (m.pass i).Supplies rest.reverse operands.reverse :=
    supplies operands split floor
  have hroom := supplies.hasRoom (by rw [List.length_reverse]; exact room)
  exact ⟨none, _, .compute supplies (value m rfl) hroom, view_replace supplies hroom⟩

theorem leads_constant (next : v.Next ⟨.constant, [n]⟩)
    (found : v.environment.constants.get? n = some a)
    (floor : v.calls.top.floor ≤ v.values.length) (room : v.values.length < v.capacity) :
    v.Leads (v.pass ⟨.constant, [n]⟩ (a :: v.values)) := by
  refine leads_of_computes [] next rfl ?_ floor room
  rintro m rfl
  exact .constant rfl found

theorem leads_getGlobal (next : v.Next ⟨.getGlobal, [n]⟩) (found : v.globals[n]? = some a)
    (floor : v.calls.top.floor ≤ v.values.length) (room : v.values.length < v.capacity) :
    v.Leads (v.pass ⟨.getGlobal, [n]⟩ (a :: v.values)) := by
  refine leads_of_computes [] next rfl ?_ floor room
  rintro m rfl
  exact .readGlobal rfl found

theorem leads_getLocal (next : v.Next ⟨.getLocal, [n]⟩) (slot : n < v.calls.top.numSlots)
    (found : v.values.reverse[v.calls.top.base + n]? = some a)
    (floor : v.calls.top.floor ≤ v.values.length) (room : v.values.length < v.capacity) :
    v.Leads (v.pass ⟨.getLocal, [n]⟩ (a :: v.values)) := by
  refine leads_of_computes [] next rfl ?_ floor room
  rintro m rfl
  refine .readLocal rfl slot ?_
  rw [← List.reverse_reverse (m.pass ⟨.getLocal, [n]⟩).stack.toList]
  exact found

theorem leads_binary {function : Value → Value → Except Fault Value} (next : v.Next i)
    (op : i.opcode.binary? = some function) (split : v.values = r :: l :: rest)
    (answer : function l r = .ok a)
    (floor : v.calls.top.floor ≤ rest.length) (room : rest.length < v.capacity) :
    v.Leads (v.pass i (a :: rest)) :=
  leads_of_computes [r, l] next split (fun _ _ => .binary op answer) floor room

theorem leads_jumpNotTruthy (next : v.Next ⟨.jumpNotTruthy, [target]⟩)
    (split : v.values = a :: rest) (floor : v.calls.top.floor ≤ rest.length) :
    v.Leads (if a.isTruthy then v.pass ⟨.jumpNotTruthy, [target]⟩ rest else v.goto target rest) := by
  refine leads_of_effect next ?_
  rintro m rfl
  have supplies : (m.pass ⟨.jumpNotTruthy, [target]⟩).Supplies rest.reverse [a] :=
    supplies [a] split floor
  have hview := view_drop supplies
  cases truth : a.isTruthy with
  | true => exact ⟨none, _, .pass rfl supplies truth, hview⟩
  | false =>
    exact ⟨none, _, .branch rfl supplies truth,
      congrArg (fun w : View => w.goto target w.values) hview⟩

theorem leads_setGlobal (next : v.Next ⟨.setGlobal, [n]⟩) (split : v.values = a :: rest)
    (slot : n < v.globals.size) (floor : v.calls.top.floor ≤ rest.length) :
    v.Leads { v.pass ⟨.setGlobal, [n]⟩ rest with globals := v.globals.setIfInBounds n a } := by
  refine leads_of_effect next ?_
  rintro m rfl
  have supplies : (m.pass ⟨.setGlobal, [n]⟩).Supplies rest.reverse [a] :=
    supplies [a] split floor
  have hset : m.view.globals.setIfInBounds n a = m.globals.set n a slot := dif_pos slot
  refine ⟨none, _, .assignGlobal (i := ⟨.setGlobal, [n]⟩) rfl supplies slot, ?_⟩
  rw [hset]
  exact congrArg (fun w : View => { w with globals := m.globals.set n a slot }) (view_drop supplies)

theorem leads_closure (next : v.Next ⟨.closure, [n, 0]⟩)
    (found : v.environment.constants.get? n = some (.function f))
    (floor : v.calls.top.floor ≤ v.values.length) (room : v.values.length < v.capacity) :
    v.Leads { v.pass ⟨.closure, [n, 0]⟩ (.closure ⟨.created v.numCreated, f, #[]⟩ :: v.values) with
      numCreated := v.numCreated + 1 } := by
  refine leads_of_effect next ?_
  rintro m rfl
  have supplies : (m.pass ⟨.closure, [n, 0]⟩).Supplies m.view.values.reverse [] :=
    supplies [] rfl floor
  have hroom := supplies.hasRoom (by rw [List.length_reverse]; exact room)
  exact ⟨none, _, .create rfl found supplies rfl hroom,
    congrArg (fun w : View => { w with numCreated := m.numCreated + 1 })
      (view_replace supplies hroom)⟩

/-- The callee lies below its arguments. -/
theorem supplies_call (split : m.view.values = args ++ .closure c :: rest)
    (floor : m.floor ≤ rest.length) :
    m.Supplies rest.reverse (Value.closure c :: args.reverse) := by
  have supplies : m.Supplies rest.reverse (args ++ [Value.closure c]).reverse :=
    supplies (args ++ [Value.closure c]) (by rw [List.append_assoc]; exact split) floor
  rwa [List.reverse_concat] at supplies

/-- A call puts the closure's slots in the place of its arguments. -/
theorem leads_call (args : List Value) (next : v.Next ⟨.call, [n]⟩)
    (split : v.values = args ++ .closure c :: rest) (count : args.length = n)
    (parameters : c.function.numParameters = n) (slots : c.function.numSlots = n)
    (depth : v.calls.depth < v.environment.maxFrames)
    (floor : v.calls.top.floor ≤ rest.length) (room : rest.length + 1 + n ≤ v.capacity) :
    v.Leads ((v.pass ⟨.call, [n]⟩ v.values).callee c (rest.length + 1)) := by
  refine leads_of_effect next ?_
  rintro m rfl
  have supplies := supplies_call (m := m.pass ⟨.call, [n]⟩) split floor
  rw [← List.length_reverse] at count
  -- The arguments fill all slots, so the stack does not grow, wherever the slots are said to end.
  have hfloor : (Frame.enter c (rest.reverse.length + 1)).floor ≤ rest.length + 1 + n := by
    rw [← slots, ← @List.length_reverse _ rest]
    exact Nat.mod_le _ _
  have hroom : (Frame.enter c (rest.reverse.length + 1)).floor ≤ m.stack.capacity :=
    Nat.le_trans hfloor room
  refine ⟨_, _, .enter (i := ⟨.call, [n]⟩) rfl supplies count (count.trans parameters.symm) depth
    hroom, ?_⟩
  have hlive : (m.stack.growTo (Frame.enter c (rest.reverse.length + 1)).floor hroom).toList =
      m.view.values.reverse := by
    have hsize : m.stack.size = rest.length + 1 + n := by
      have hlength := congrArg List.length supplies.split
      rw [Stack.length_toList, List.length_append, List.length_cons, List.length_reverse,
        count] at hlength
      exact hlength.trans (by omega)
    rw [Stack.toList_growTo _ _ hroom, hsize, Nat.sub_eq_zero_of_le hfloor, List.replicate_zero,
      List.append_nil]
    exact (List.reverse_reverse _).symm
  refine (view_with (Stack.capacity_growTo _ _ hroom) hlive).trans ?_
  rw [List.length_reverse]
  rfl

/-- A return resumes the caller, and the value takes the place of the closure and its slots. -/
theorem leads_returnValue {callers : Array Frame} {caller : Frame} (args : List Value)
    (next : v.Next ⟨.returnValue, []⟩) (resumed : v.calls.callers = callers.push caller)
    (split : v.values = a :: (args ++ rest)) (base : v.calls.top.base = rest.length + 1)
    (floor : v.calls.top.floor ≤ (args ++ rest).length) (room : rest.length < v.capacity) :
    v.Leads { v with calls := ⟨callers, caller⟩, values := a :: rest } := by
  refine leads_of_effect next ?_
  rintro m rfl
  have supplies : (m.pass ⟨.returnValue, []⟩).Supplies (args ++ rest).reverse [a] :=
    supplies [a] split floor
  have hkept : ((m.stack.drop 1).truncate (m.calls.top.base - 1)).toList = rest.reverse := by
    rw [Stack.toList_truncate, show (m.stack.drop 1).toList = _ from supplies.toList_drop,
      show m.calls.top.base = _ from base, List.reverse_append]
    simp
  have hroom : ((m.stack.drop 1).truncate (m.calls.top.base - 1)).HasRoom := by
    rw [Stack.HasRoom, ← Stack.length_toList, hkept, List.length_reverse]
    exact room
  refine ⟨_, _, .leave (.inr ⟨rfl, rfl⟩) supplies resumed hroom, ?_⟩
  refine view_with (Stack.capacity_push ..) ?_
  refine (Stack.toList_push ..).trans ?_
  rw [List.reverse_cons]
  exact congrArg (· ++ [a]) hkept

/-- With all frames in use a call fails. -/
theorem fails_call (args : List Value) (next : v.Next ⟨.call, [n]⟩)
    (split : v.values = args ++ .closure c :: rest) (count : args.length = n)
    (parameters : c.function.numParameters = n)
    (depth : v.environment.maxFrames ≤ v.calls.depth) (floor : v.calls.top.floor ≤ rest.length) :
    v.Fails (.callStackOverflow v.environment.maxFrames) v.calls.depth := by
  rintro m rfl
  have supplies := supplies_call (m := m.pass ⟨.call, [n]⟩) split floor
  rw [← List.length_reverse] at count
  subst count
  have thrown := (Exec.call_of_supplies supplies).trans (Exec.callClosure_eq_error.mpr
    (.inr (.inl ⟨parameters.symm, Nat.not_lt.mpr depth, rfl, rfl⟩)))
  have executed : Exec.execute ⟨.call, [args.reverse.length]⟩ (m.pass _) = .error _ _ :=
    Exec.map_eq_error.mpr thrown
  have failed := step_of_instruction? (instruction?_of_next next)
  rw [executed] at failed
  exact ⟨[], m, _, _, _, .refl, failed⟩

theorem Fails.exists_run {p : Program} {setup : Setup}
    (h : (initial p setup).view.Fails fault depth) :
    ∃ fuel offset m, (load p setup).run fuel = some (.error ⟨fault, offset, depth⟩, m) := by
  obtain ⟨past, m, m', offset, events, run, failed⟩ := h _ rfl
  exact ⟨_, offset, m', run.run_of_failed failed⟩

end View
end BytecodeMachine

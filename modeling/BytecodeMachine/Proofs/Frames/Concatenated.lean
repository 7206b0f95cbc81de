import BytecodeMachine.Proofs.Decoding.Extended
import BytecodeMachine.Proofs.Execution.Completeness
import BytecodeMachine.Proofs.Execution.Log
import BytecodeMachine.Proofs.Objects.Sources

/-!
# Concatenated main code

A program whose main code goes on behind that of another program runs like this one first. The two
machines differ in the code of the outermost frame only, which no instruction looks at, and the
instructions of the shorter code are decoded in the longer one as well. So when the first run ends
behind its code, the second one stands there too, with the same stack, globals and output.
-/

namespace BytecodeMachine

/-- The frame with more code behind that of its function. -/
def Frame.extend (f : Frame) (more : Code) : Frame :=
  { f with
    closure := { f.closure with
      function := { f.closure.function with code := f.closure.function.code ++ more } } }

namespace CallStack

/-- The outermost frame has more code in the second list of frames, and the others are the same. -/
inductive Extends (more : Code) : CallStack → CallStack → Prop where
  | main (f : Frame) : Extends more ⟨#[], f⟩ ⟨#[], f.extend more⟩
  | call {calls calls' : CallStack} (outer : Extends more calls calls') (f : Frame) :
      Extends more (calls.push f) (calls'.push f)

variable {more : Code} {calls calls' : CallStack}

namespace Extends

theorem depth_eq (h : Extends more calls calls') : calls'.depth = calls.depth := by
  induction h with
  | main f => rfl
  | call outer f ih => rw [depth_push, depth_push, ih]

/-- The running frame is the same if it has a caller. -/
theorem top_cases (h : Extends more calls calls') :
    calls.depth ≠ 1 ∧ calls'.top = calls.top ∨
      calls.depth = 1 ∧ calls'.top = calls.top.extend more := by
  cases h with
  | main f => exact .inr ⟨rfl, rfl⟩
  | @call calls calls' outer f =>
    have hdepth : 0 < calls.depth := Nat.succ_pos _
    refine .inl ⟨?_, rfl⟩
    rw [depth_push]
    omega

theorem ip_eq (h : Extends more calls calls') : calls'.top.ip = calls.top.ip := by
  cases h <;> rfl

theorem base_eq (h : Extends more calls calls') : calls'.top.base = calls.top.base := by
  cases h <;> rfl

theorem numSlots_eq (h : Extends more calls calls') :
    calls'.top.numSlots = calls.top.numSlots := by
  cases h <;> rfl

theorem captured_eq (h : Extends more calls calls') :
    calls'.top.closure.captured = calls.top.closure.captured := by
  cases h <;> rfl

theorem jump (h : Extends more calls calls') (offset : Nat) :
    Extends more { calls with top := { calls.top with ip := offset } }
      { calls' with top := { calls'.top with ip := offset } } := by
  cases h with
  | main f => exact .main { f with ip := offset }
  | call outer f => exact .call outer { f with ip := offset }

theorem resume (h : Extends more calls calls') {callers : Array Frame} {caller : Frame}
    (resumed : calls.callers = callers.push caller) :
    ∃ callers' caller', calls'.callers = callers'.push caller' ∧
      Extends more ⟨callers, caller⟩ ⟨callers', caller'⟩ := by
  cases h with
  | main f => simp at resumed
  | @call calls calls' outer f =>
    obtain ⟨rfl, rfl⟩ := Array.push_eq_push.mp resumed
    exact ⟨_, _, rfl, outer⟩

end Extends
end CallStack

open CallStack (Extends)

namespace Machine

/-- The machine with other frames. -/
def withCalls (m : Machine) (calls : CallStack) : Machine := { m with calls }

variable {more : Code} {m m' : Machine} {i : Instruction} {event : Option Event}
  {calls : CallStack} {below operands : List Value} {v : Value}

theorem floor_withCalls (h : Extends more m.calls calls) : (m.withCalls calls).floor = m.floor := by
  have hbase := h.base_eq
  have hnumSlots := h.numSlots_eq
  rw [floor, Frame.floor, floor, Frame.floor, ← hbase, ← hnumSlots]
  rfl

theorem Supplies.withCalls (supplies : m.Supplies below operands)
    (h : Extends more m.calls calls) : (m.withCalls calls).Supplies below operands :=
  ⟨supplies.split, by
    rw [floor_withCalls h]
    exact supplies.enough⟩

end Machine

open Machine

variable {more : Code} {m m' : Machine} {i : Instruction} {event : Option Event}
  {calls : CallStack} {operands : List Value} {v : Value}

theorem Computes.withCalls (value : Computes m i operands v) (h : Extends more m.calls calls) :
    Computes (m.withCalls calls) i operands v := by
  cases value with
  | literal op => exact .literal op
  | constant op found => exact .constant op found
  | readGlobal op found => exact .readGlobal op found
  | readLocal op slot found =>
    rw [← h.numSlots_eq] at slot
    rw [← h.base_eq] at found
    exact .readLocal op slot found
  | readBuiltin op found => exact .readBuiltin op found
  | readCaptured op found =>
    rw [← h.captured_eq] at found
    exact .readCaptured op found
  | unary op value => exact .unary op value
  | binary op value => exact .binary op value
  | array op count => exact .array op count
  | hash op count value => exact .hash op count value

/-- An instruction has the same effect if the outermost frame has more code. -/
theorem Effect.withCalls (effect : Effect m i event m') (h : Extends more m.calls calls) :
    ∃ calls', Extends more m'.calls calls' ∧
      Effect (m.withCalls calls) i event (m'.withCalls calls') := by
  cases effect with
  | compute supplies value room =>
    exact ⟨calls, h, .compute (supplies.withCalls h) (value.withCalls h) room⟩
  | discard op supplies => exact ⟨calls, h, .discard op (supplies.withCalls h)⟩
  | jump op => exact ⟨_, h.jump _, .jump op⟩
  | pass op supplies truthy => exact ⟨calls, h, .pass op (supplies.withCalls h) truthy⟩
  | branch op supplies falsy => exact ⟨_, h.jump _, .branch op (supplies.withCalls h) falsy⟩
  | assignGlobal op supplies slot =>
    exact ⟨calls, h, .assignGlobal op (supplies.withCalls h) slot⟩
  | assignLocal op supplies slot live =>
    revert live
    rw [← h.base_eq]
    intro live
    rw [← h.numSlots_eq] at slot
    exact ⟨calls, h, .assignLocal op (supplies.withCalls h) slot live⟩
  | create op found supplies count room =>
    have supplies := supplies.withCalls h
    have effect := Effect.create (m := m.withCalls calls) op found supplies count room
    exact ⟨calls, h, effect⟩
  | native op supplies count answer room =>
    exact ⟨calls, h, .native op (supplies.withCalls h) count answer room⟩
  | @enter below args c op supplies count arity depth room =>
    rw [← h.depth_eq] at depth ⊢
    have supplies := supplies.withCalls h
    exact ⟨_, h.call (.enter c (below.length + 1)), .enter op supplies count arity depth room⟩
  | leave op supplies resumed room =>
    obtain ⟨callers, caller, resumed, outer⟩ := h.resume resumed
    revert room
    rw [← h.base_eq, ← h.depth_eq]
    intro room
    have supplies := supplies.withCalls h
    exact ⟨_, outer, .leave op supplies resumed room⟩

namespace Machine

variable {start : Machine} {past : List Machine} {events : List Event}

theorem instruction?_withCalls (h : Extends more m.calls calls) (found : m.instruction? = some i) :
    (m.withCalls calls).instruction? = some i := by
  have hip : (m.withCalls calls).calls.top.ip = m.calls.top.ip := h.ip_eq
  obtain ⟨inside, decoded⟩ := exists_of_instruction? found
  rcases h.top_cases with ⟨-, htop⟩ | ⟨-, htop⟩
  · have hcode : (m.withCalls calls).calls.top.code = m.calls.top.code := congrArg Frame.code htop
    refine instruction?_eq (by rwa [hip, hcode]) ?_
    simpa only [hip, hcode] using decoded
  · have hcode : (m.withCalls calls).calls.top.code = m.calls.top.code ++ more :=
      congrArg Frame.code htop
    have inside' : m.calls.top.ip < (m.calls.top.code ++ more).size := by
      rw [Array.size_append]
      exact Nat.lt_add_right _ inside
    refine instruction?_eq (by rwa [hip, hcode]) ?_
    simpa only [hip, hcode] using Code.instructionAt_append_of_ok decoded more inside'

/-- A step that goes on does so if the outermost frame has more code. -/
theorem step_withCalls (h : Extends more m.calls calls) (next : m.step = .continued m' events) :
    ∃ calls', Extends more m'.calls calls' ∧
      (m.withCalls calls).step = .continued (m'.withCalls calls') events := by
  have hip : (m.withCalls calls).calls.top.ip = m.calls.top.ip := h.ip_eq
  have hdepth : (m.withCalls calls).calls.depth = m.calls.depth := h.depth_eq
  cases continues_of_step next with
  | @dispatch i event _ found effect =>
    obtain ⟨calls', h', effect⟩ := effect.withCalls (h.jump (m.calls.top.ip + i.length))
    rw [← hip] at effect
    have continues := Continues.dispatch (instruction?_withCalls h found) effect
    rw [hip, hdepth] at continues
    exact ⟨calls', h', step_of_continues continues⟩
  | finish beyond inner effect =>
    -- The running frame has a caller, so its code is the same.
    have htop : calls.top = m.calls.top :=
      (h.top_cases.resolve_right fun outermost => inner outermost.1).2
    obtain ⟨calls', h', effect⟩ := effect.withCalls h
    have beyond : (m.withCalls calls).calls.top.code.size ≤ (m.withCalls calls).calls.top.ip := by
      change calls.top.code.size ≤ calls.top.ip
      rwa [htop]
    exact ⟨calls', h', step_of_continues (.finish beyond (hdepth ▸ inner) effect)⟩

theorem run_withCalls (h : Extends more start.calls calls) (run : Run start past m) :
    ∃ past' calls', Extends more m.calls calls' ∧
      Run (start.withCalls calls) past' (m.withCalls calls') ∧
      past'.length = past.length ∧ log past' = log past := by
  induction run with
  | refl => exact ⟨[], calls, h, .refl, rfl, rfl⟩
  | @step past m m' events run next ih =>
    obtain ⟨past', calls', h', run', hlength, hlog⟩ := ih
    obtain ⟨calls'', h'', next'⟩ := step_withCalls h' next
    refine ⟨_, calls'', h'', .step run' next', congrArg (· + 1) hlength, ?_⟩
    rw [log, log, next, next', hlog]
    rfl

/-- The second machine stands between the two parts of its main code, and apart from its frame it
is as the first one. -/
structure StandsBetween (a b : Code) (m m' : Machine) : Prop where
  environment : m'.environment = m.environment
  stack : m'.stack = m.stack
  globals : m'.globals = m.globals
  printed : m'.printed = m.printed
  numCreated : m'.numCreated = m.numCreated
  depth : m'.calls.depth = 1
  base : m'.calls.top.base = 0
  ip : m'.calls.top.ip = a.size
  code : m'.calls.top.code = a ++ b
  ahead : m'.calls.top.code.toList.drop m'.calls.top.ip = b.toList

theorem standsBetween_withCalls {a b : Code} {constants : Pool} {setup : Setup}
    (reachable : Reachable ⟨a, constants⟩ setup m) (outermost : m.calls.depth = 1)
    (atEnd : m.calls.top.ip = a.size) (h : Extends b m.calls calls) :
    StandsBetween a b m (m.withCalls calls) := by
  have hclosure := reachable.closure_of_outermost outermost
  have htop : calls.top = m.calls.top.extend b :=
    (h.top_cases.resolve_left fun inner => inner.1 outermost).2
  have hbase : m.calls.top.base = 0 := by
    have hcallers := Array.eq_empty_of_size_eq_zero (Nat.succ.inj outermost)
    exact (reachable.fits.framesRooted.rooted.base_and_floor_of_callers_eq hcallers).1
  have hip : (m.withCalls calls).calls.top.ip = a.size := h.ip_eq.trans atEnd
  have hcode : (m.withCalls calls).calls.top.code = a ++ b := by
    have hmain : m.calls.top.code = a := congrArg (fun c => c.function.code) hclosure
    change calls.top.code = a ++ b
    rw [htop, ← hmain]
    rfl
  exact {
    environment := rfl
    stack := rfl
    globals := rfl
    printed := rfl
    numCreated := rfl
    depth := h.depth_eq.trans outermost
    base := h.base_eq.trans hbase
    ip := hip
    code := hcode
    ahead := by rw [hip, hcode, Array.toList_append, ← Array.length_toList, List.drop_left] }

/-- If a program ends behind its main code, then with more main code it comes to that place through
the same events. -/
theorem exists_run_of_append (a b : Code) (constants : Pool) (setup : Setup) (fuel : Nat)
    (m : Machine) (ended : (load ⟨a, constants⟩ setup).run fuel = some (.ok (), m))
    (atEnd : m.calls.top.ip = a.size) :
    ∃ past past' m', Run (initial ⟨a, constants⟩ setup) past m ∧
      Run (initial ⟨a ++ b, constants⟩ setup) past' m' ∧ past'.length = past.length ∧
      log past' = log past ∧ StandsBetween a b m m' := by
  obtain ⟨past, run, last⟩ := exists_run_of_ended ended
  have start : Extends b (initial ⟨a, constants⟩ setup).calls
      (initial ⟨a ++ b, constants⟩ setup).calls := .main (.enter (mainClosure ⟨a, constants⟩) 0)
  obtain ⟨past', calls, h, run', hlength, hlog⟩ := run_withCalls start run
  exact ⟨past, past', m.withCalls calls, run, run', hlength, hlog,
    standsBetween_withCalls (.of_run run) (depth_of_step_ended last) atEnd h⟩

/-- A pool of one function, which returns null at once. -/
def poolOfReturn : Pool :=
  Pool.empty.push (.function ⟨.given 0, #[23], 0, 0⟩)
    (Value.given_function (Identity.isGiven_given 0))

/-- Main code that ends with a call, and a part behind it that pops the result. -/
theorem exists_run_of_append_callLast :
    ∃ m, (load ⟨#[27, 0, 0, 0, 21, 0], poolOfReturn⟩ { limits := ⟨4, 1, 2⟩ }).run 4 =
        some (.ok (), m) ∧ m.calls.top.ip = 6 ∧
      ∃ past past' m',
        Run (initial ⟨#[27, 0, 0, 0, 21, 0], poolOfReturn⟩ { limits := ⟨4, 1, 2⟩ }) past m ∧
        Run (initial ⟨#[27, 0, 0, 0, 21, 0] ++ #[2], poolOfReturn⟩ { limits := ⟨4, 1, 2⟩ })
          past' m' ∧
        past'.length = past.length ∧ log past' = log past ∧
        StandsBetween #[27, 0, 0, 0, 21, 0] #[2] m m' := by
  have ended : ∃ m, (load ⟨#[27, 0, 0, 0, 21, 0], poolOfReturn⟩ { limits := ⟨4, 1, 2⟩ }).run 4 =
      some (.ok (), m) ∧ m.calls.top.ip = 6 := ⟨_, rfl, rfl⟩
  obtain ⟨m, ended, atEnd⟩ := ended
  exact ⟨m, ended, atEnd, exists_run_of_append _ #[2] _ _ 4 m ended atEnd⟩

end Machine
end BytecodeMachine

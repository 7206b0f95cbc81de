import BytecodeMachine.Proofs.Execution.Completeness
import BytecodeMachine.Proofs.Frames.Layout

/-!
# The calling convention

A call finds its callee below the arguments. A builtin answers in the place of both, a closure is
entered on top of them with nulls in its other slots, and nothing else can be called. Of the reasons
to refuse a closure the first one counts: the number of arguments, the depth, the room.
-/

namespace BytecodeMachine

namespace Machine

/-- The step dispatches the instruction and fails, with nothing changed but the offset. -/
def Rejects (m : Machine) (i : Instruction) (fault : Fault) : Prop :=
  m.step = .failed (m.pass i) ⟨fault, m.calls.top.ip, m.calls.depth⟩
    [.dispatched m.calls.top.ip m.calls.depth i]

/-- The step dispatches the instruction, reports one more event and continues. -/
def Accepts (m : Machine) (i : Instruction) (event : Event) (m' : Machine) : Prop :=
  m.step = .continued m' [.dispatched m.calls.top.ip m.calls.depth i, event]

/-- The native function gets the arguments, and its answer takes their place and the builtin's. -/
structure Delegates (setup : Setup) (m : Machine) (i : Instruction) (below args : List Value)
    (b : Builtin) (m' : Machine) : Prop where
  accepts : m.Accepts i (.calledBuiltin b.name args.length) m'
  stack : m'.stack.toList = below ++ [(setup.host b.native args).value]
  calls : m'.calls = (m.pass i).calls
  globals : m'.globals = m.globals
  printed : m'.printed = m.printed ++ (setup.host b.native args).printed

/-- A frame on the closure begins with the arguments, and its other slots hold null. -/
structure Enters (m : Machine) (i : Instruction) (below args : List Value) (c : Closure Value)
    (m' : Machine) : Prop where
  accepts : m.Accepts i (.called (m.calls.depth + 1) (below.length + 1) args.length) m'
  stack : m'.stack.toList =
    below ++ .closure c :: args ++ .replicate (c.function.numSlots - args.length) .null
  calls : m'.calls = (m.pass i).calls.push ⟨c, 0, below.length + 1⟩
  depth : m'.calls.depth = m.calls.depth + 1
  globals : m'.globals = m.globals
  printed : m'.printed = m.printed

/-- What a call does with the callee that it finds between `below` and the arguments. -/
def Treats (setup : Setup) (m : Machine) (i : Instruction) (below args : List Value) :
    Value → Prop
  | .builtin b => ∃ m', Delegates setup m i below args b m'
  | .closure c =>
    if args.length ≠ c.function.numParameters then
      m.Rejects i (.argumentCount c.function.numParameters args.length)
    else if setup.limits.maxFrames ≤ m.calls.depth then
      m.Rejects i (.callStackOverflow setup.limits.maxFrames)
    else if setup.limits.stackSize < below.length + 1 + c.function.numSlots then
      m.Rejects i (.stackOverflow setup.limits.stackSize)
    else ∃ m', m.Enters i below args c m'
  | other => m.Rejects i (.notCallable other.kind)

/-- A call with so many arguments lacks operands, or it treats the callee below them. -/
structure FollowsConvention (setup : Setup) (m : Machine) (n : Nat) : Prop where
  lacking : m.stack.size - m.floor < n + 1 → m.Rejects ⟨.call, [n]⟩ .stackUnderflow
  supplied : n + 1 ≤ m.stack.size - m.floor → ∃ below callee args,
    m.stack.toList = below ++ callee :: args ∧ args.length = n ∧ m.floor ≤ below.length ∧
      Treats setup m ⟨.call, [n]⟩ below args callee

variable {m m' : Machine} {i : Instruction} {n : Nat} {below args : List Value} {fault : Fault}
  {event : Event} {setup : Setup}

theorem rejects_of_call (found : m.instruction? = some ⟨.call, [n]⟩)
    (thrown : Exec.call n (m.pass ⟨.call, [n]⟩) = .error fault (m.pass ⟨.call, [n]⟩)) :
    m.Rejects ⟨.call, [n]⟩ fault := by
  have hexecute : Exec.execute ⟨.call, [n]⟩ (m.pass ⟨.call, [n]⟩) =
      .error fault (m.pass ⟨.call, [n]⟩) := Exec.map_eq_error.mpr thrown
  rw [Rejects, step_of_instruction? found, hexecute]
  rfl

theorem accepts_of_effect (found : m.instruction? = some i)
    (effect : Effect (m.pass i) i (some event) m') : m.Accepts i event m' :=
  step_of_continues (.dispatch found effect)

theorem Supplies.pass (h : m.Supplies below args) (i : Instruction) :
    (m.pass i).Supplies below args := ⟨h.split, h.enough⟩

/-- The answer finds room, since the callee and the arguments make way for it. -/
theorem treats_builtin {b : Builtin} (found : m.instruction? = some ⟨.call, [args.length]⟩)
    (host : m.environment.host = setup.host) (supplies : m.Supplies below (.builtin b :: args)) :
    Treats setup m ⟨.call, [args.length]⟩ below args (.builtin b) := by
  have room : (m.stack.drop (args.length + 1)).HasRoom := by
    have hfloor := supplies.floor_add_lt
    have hsize : m.stack.size ≤ m.stack.capacity := m.stack.size_le
    rw [Stack.HasRoom, Stack.size_drop, Stack.capacity_drop]
    omega
  have effect : Effect (m.pass ⟨.call, [args.length]⟩) ⟨.call, [args.length]⟩
      (some (.calledBuiltin b.name args.length)) _ := .native rfl (supplies.pass _) rfl rfl room
  refine ⟨_, accepts_of_effect found effect, ?_, rfl, rfl, ?_⟩
  · rw [← host]
    exact (Stack.toList_push _ _ room).trans (congrArg (· ++ _) supplies.toList_drop)
  · rw [← host]
    rfl

theorem treats_closure {c : Closure Value} (found : m.instruction? = some ⟨.call, [args.length]⟩)
    (maxFrames : m.environment.maxFrames = setup.limits.maxFrames)
    (stackSize : m.stack.capacity = setup.limits.stackSize)
    (supplies : m.Supplies below (.closure c :: args))
    (noWrap : (Frame.enter c (below.length + 1)).NoWrap) :
    Treats setup m ⟨.call, [args.length]⟩ below args (.closure c) := by
  have passed := supplies.pass ⟨.call, [args.length]⟩
  have hfloor : (Frame.enter c (below.length + 1)).floor =
      below.length + 1 + c.function.numSlots := Frame.floor_eq noWrap
  have rejects {fault : Fault} (thrown : Exec.callClosure c args.length
      (m.pass ⟨.call, [args.length]⟩) = .error fault (m.pass ⟨.call, [args.length]⟩)) :
      m.Rejects ⟨.call, [args.length]⟩ fault :=
    rejects_of_call found ((Exec.call_of_supplies passed).trans thrown)
  rw [Treats, ← maxFrames, ← stackSize, ← hfloor]
  split_ifs with arity depth room
  · exact rejects (Exec.callClosure_eq_error.mpr (.inl ⟨arity, rfl, rfl⟩))
  · have hdepth : ¬m.calls.depth < m.environment.maxFrames := Nat.not_lt.mpr depth
    exact rejects (Exec.callClosure_eq_error.mpr
      (.inr (.inl ⟨not_ne_iff.mp arity, hdepth, rfl, rfl⟩)))
  · have hroom : ¬(Frame.enter c (m.stack.size - args.length)).floor ≤ m.stack.capacity := by
      rw [supplies.base_eq]
      exact Nat.not_le_of_lt room
    exact rejects (Exec.callClosure_eq_error.mpr
      (.inr (.inr ⟨not_ne_iff.mp arity, Nat.lt_of_not_le depth, hroom, rfl, rfl⟩)))
  · have effect : Effect (m.pass ⟨.call, [args.length]⟩) ⟨.call, [args.length]⟩
        (some (.called (m.calls.depth + 1) (below.length + 1) args.length)) _ :=
      .enter rfl passed rfl (not_ne_iff.mp arity) (Nat.lt_of_not_le depth)
        (Nat.le_of_not_lt room)
    refine ⟨_, accepts_of_effect found effect, ?_, rfl, CallStack.depth_push _ _, rfl, rfl⟩
    rw [← supplies.split]
    exact supplies.toList_growTo noWrap (Nat.le_of_not_lt room)

theorem followsConvention_of_reachable (p : Program) (setup : Setup) (m : Machine) (n : Nat)
    (sized : HoldsSized p setup) (allocatable : setup.limits.Allocatable)
    (reachable : Reachable p setup m) (found : m.instruction? = some ⟨.call, [n]⟩) :
    FollowsConvention setup m n := by
  have fits := reachable.fits
  rcases Exec.call_cases (m.pass ⟨.call, [n]⟩) n with
    ⟨few, thrown⟩ | ⟨below, callee, args, passed, rfl, called⟩
  · exact ⟨fun _ => rejects_of_call found thrown, fun enough => absurd few (Nat.not_lt.mpr enough)⟩
  · have supplies : m.Supplies below (callee :: args) := ⟨passed.split, passed.enough⟩
    refine ⟨fun few => absurd few (Nat.not_lt.mpr supplies.enough), fun _ => ?_⟩
    have hbase := supplies.base_eq
    have henough := supplies.floor_add_lt
    refine ⟨below, callee, args, supplies.split, rfl, by omega, ?_⟩
    cases callee with
    | builtin b =>
      exact treats_builtin found (congrArg Environment.host fits.environment_eq) supplies
    | closure c =>
      have hc : .closure c ∈ m.stack.toList := by simp [supplies.split]
      exact treats_closure found (congrArg Environment.maxFrames fits.environment_eq)
        fits.capacity_eq supplies (reachable.noWrap_enter sized allocatable hc (by omega))
    | _ => exact rejects_of_call found called

/-- A program that leaves two values above the live ones and calls a function with two local
slots. -/
def callOverStale : Program where
  code := #[27, 0, 0, 0, 6, 6, 2, 2, 21, 0]
  constants := Pool.empty.push (.function ⟨.given 0, #[], 2, 0⟩)
    (Value.given_function (Identity.isGiven_given 0))

theorem holdsSized_callOverStale (limits : Limits) :
    HoldsSized callOverStale { limits := limits } := by
  refine holdsSized_of_sized ⟨by decide, fun v hv f inside => ?_⟩ Host.standard_conserves
  obtain rfl : v = .function _ := List.mem_singleton.mp hv.val
  cases inside
  exact ⟨by decide, by decide, by decide⟩

/-- The slots of the frame hold null although they held other values before. If there can be one
frame only, the call fails. -/
theorem followsConvention_callOverStale :
    HoldsSized callOverStale { limits := ⟨3, 1, 2⟩ } ∧
    HoldsSized callOverStale { limits := ⟨3, 1, 1⟩ } ∧
    (∃ m, Reachable callOverStale { limits := ⟨3, 1, 2⟩ } m ∧
      m.instruction? = some ⟨.call, [0]⟩ ∧ m.stack.slots[2]? = some (.boolean true) ∧
      FollowsConvention { limits := ⟨3, 1, 2⟩ } m 0 ∧
      m.step.machine.stack.toList.drop 1 = [.null, .null]) ∧
    ∃ m, Reachable callOverStale { limits := ⟨3, 1, 1⟩ } m ∧
      m.instruction? = some ⟨.call, [0]⟩ ∧ FollowsConvention { limits := ⟨3, 1, 1⟩ } m 0 ∧
      m.Rejects ⟨.call, [0]⟩ (.callStackOverflow 1) := by
  have deep : Reachable callOverStale { limits := ⟨3, 1, 2⟩ } _ := .started
  have flat : Reachable callOverStale { limits := ⟨3, 1, 1⟩ } _ := .started
  have deep := deep.stepped.stepped.stepped.stepped.stepped
  have flat := flat.stepped.stepped.stepped.stepped.stepped
  have sized := holdsSized_callOverStale
  refine ⟨sized _, sized _, ⟨_, deep, rfl, rfl, ?_, rfl⟩, _, flat, rfl, ?_, rfl⟩
  · exact followsConvention_of_reachable _ _ _ _ (sized _) (by decide) deep rfl
  · exact followsConvention_of_reachable _ _ _ _ (sized _) (by decide) flat rfl

end Machine
end BytecodeMachine

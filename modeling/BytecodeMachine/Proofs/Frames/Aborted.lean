import BytecodeMachine.Proofs.Frames.Layout

/-!
# Aborted runs

A step that fails has written nothing: slots, globals and output are what they were, and so are the
frames, but for the instruction pointer of the running one. It has not run a native function either.
What remains is a machine that refuses to run again.
-/

namespace BytecodeMachine

/-- Called with its arguments at hand, a builtin answers. -/
theorem Exec.call_builtin_ne_error {m m' : Machine} {fault : Fault} {below args : List Value}
    {b : Builtin} (supplies : m.Supplies below (.builtin b :: args)) :
    call args.length m ≠ .error fault m' := by
  rw [call_of_supplies supplies]
  exact callBuiltin_ne_error supplies.floor_add_lt

namespace Machine

variable {m m' : Machine} {i : Instruction} {error : RunError} {events : List Event}

/-- A machine that was run stays as it is, however often it is run again. -/
theorem runTimes_of_started (started : m.started = true) (fuel times : Nat) :
    m.runTimes fuel times = some (List.replicate times (.error ⟨.alreadyRun, 0, 0⟩), m) := by
  induction times with
  | zero => rfl
  | succ times ih =>
    have hrun : m.run fuel = some (.error ⟨.alreadyRun, 0, 0⟩, m) := by rw [run, if_pos started]
    rw [runTimes, hrun]
    simp [ih, List.replicate_succ]

/-- The next step calls the builtin that lies below the arguments of its instruction. -/
def CallsBuiltin (m : Machine) (b : Builtin) : Prop :=
  ∃ i below args, m.instruction? = some i ∧ i.opcode = .call ∧
    m.Supplies below (.builtin b :: args) ∧ args.length = i.operand 0

/-- The machine after a failing step is the one before it, up to the operands that were popped and
the instruction that was decoded. -/
structure FailsInPlace (m m' : Machine) (error : RunError) (events : List Event) : Prop where
  environment_eq : m'.environment = m.environment
  /-- Live slots and stale ones keep their values. -/
  slots_eq : m'.stack.slots = m.stack.slots
  globals_eq : m'.globals = m.globals
  numCreated_eq : m'.numCreated = m.numCreated
  printed_eq : m'.printed = m.printed
  calls_of_decoded : ∀ i, m.instruction? = some i → m'.calls = (m.pass i).calls
  calls_of_illegal : m.instruction? = none → m'.calls = m.calls
  size_le : m'.stack.size ≤ m.stack.size
  /-- Nothing but operands is removed, so nothing at all if the local slots are not all live, as may
  be where the end of a frame has wrapped. -/
  floor_le : m.floor ≤ m.stack.size → m.floor ≤ m'.stack.size
  size_eq : m.stack.size < m.floor → m'.stack.size = m.stack.size
  not_callsBuiltin : ∀ b, ¬m.CallsBuiltin b
  not_calledBuiltin : ∀ name n, .calledBuiltin name n ∉ events
  offset_eq : error.offset = m.calls.top.ip
  offset_lt : error.offset < m.calls.top.code.size
  depth_eq : error.depth = m.calls.frames.length
  /-- A run starts the machine before its first step. -/
  runTimes_eq : m.started = true → ∀ fuel times,
    m'.runTimes fuel times = some (List.replicate times (.error ⟨.alreadyRun, 0, 0⟩), m')

/-- Bytes that are no instruction leave the machine as it is. -/
theorem FailsInPlace.of_illegal {e : CodeError}
    (inside : m.calls.top.ip < m.calls.top.code.size)
    (illegal : m.calls.top.code.instructionAt m.calls.top.ip inside = .error e) :
    m.FailsInPlace m ⟨.illegalInstruction e, m.calls.top.ip, m.calls.depth⟩ [] := by
  have hnone : m.instruction? = none := by
    rw [instruction?, dif_pos inside, illegal]
    rfl
  refine ⟨rfl, rfl, rfl, rfl, rfl, ?_, fun _ => rfl, le_rfl, id, fun _ => rfl, ?_, ?_, rfl,
    inside, m.calls.length_frames.symm, runTimes_of_started⟩
  · intro i found
    cases hnone.symm.trans found
  · rintro b ⟨i, below, args, found, -⟩
    cases hnone.symm.trans found
  · exact fun name n => List.not_mem_nil

/-- An instruction that fails has popped operands at most. -/
theorem FailsInPlace.of_thrown {fault : Fault} (returns : m.Returns)
    (found : m.instruction? = some i) (thrown : Exec.execute i (m.pass i) = .error fault m') :
    m.FailsInPlace m' ⟨fault, m.calls.top.ip, m.calls.depth⟩
      [.dispatched m.calls.top.ip m.calls.depth i] := by
  have returns : (m.pass i).Returns := by exact returns
  obtain ⟨inside, -⟩ := exists_of_instruction? found
  obtain ⟨n, hn, rfl⟩ := Exec.lowers_of_execute_error returns thrown
  have hsize : ((m.pass i).stack.drop n).size = m.stack.size - n := Stack.size_drop _ _
  change n ≤ m.stack.size - m.floor at hn
  refine ⟨rfl, rfl, rfl, rfl, rfl, ?_, ?_, ?_, fun hfloor => ?_, fun hfloor => ?_, ?_, ?_, rfl,
    inside, m.calls.length_frames.symm, fun started => runTimes_of_started (by exact started)⟩
  · intro j hj
    obtain rfl := Option.some.inj (found.symm.trans hj)
    rfl
  · intro hnone
    cases hnone.symm.trans found
  · exact hsize.trans_le (Nat.sub_le _ _)
  · change m.floor ≤ ((m.pass i).stack.drop n).size
    omega
  · change ((m.pass i).stack.drop n).size = m.stack.size
    omega
  · rintro b ⟨j, below, args, hj, hop, supplies, count⟩
    obtain rfl := Option.some.inj (found.symm.trans hj)
    have passed : (m.pass i).Supplies below (.builtin b :: args) :=
      ⟨supplies.split, supplies.enough⟩
    simp only [Exec.execute, hop, Exec.map_eq_error, ← count] at thrown
    exact Exec.call_builtin_ne_error passed thrown
  · intro name n member
    cases List.mem_singleton.mp member

/-- Behind the end of its code, every frame but the main one can be left. -/
theorem leave_ne_error {v : Value} {fault : Fault} (returns : m.Returns)
    (inner : m.calls.depth ≠ 1) : Exec.leave v m ≠ .error fault m' := by
  intro thrown
  obtain ⟨outermost, -⟩ := Exec.callers_eq_of_leave_error returns thrown
  exact inner (by rw [CallStack.depth, outermost]; rfl)

theorem failsInPlace_of_reachable (p : Program) (setup : Setup) (m m' : Machine) (error : RunError)
    (events : List Event) (reachable : Reachable p setup m)
    (failed : m.step = .failed m' error events) :
    m.FailsInPlace m' error events ∧ ∀ past, Reached p setup past m →
      (∀ s ∈ m :: past, s.NoWrap) → m.floor ≤ m'.stack.size := by
  have returns := reachable.fits.framesRooted.returns
  have inPlace : m.FailsInPlace m' error events := by
    cases fails_of_step failed with
    | decode inside illegal => exact .of_illegal inside illegal
    | dispatch found thrown => exact .of_thrown returns found thrown
    | finish beyond inner thrown =>
      exact absurd (Exec.map_eq_error.mp thrown) (leave_ne_error returns inner)
  exact ⟨inPlace, fun past reached noWrap => inPlace.floor_le (reached.sound noWrap).floor_le⟩

/-- A program that calls a function, which adds null to true. -/
def addInside : Program where
  code := #[27, 0, 0, 0, 21, 0]
  constants := Pool.empty.push (.function ⟨.given 0, #[6, 15, 1], 0, 0⟩)
    (Value.given_function (Identity.isGiven_given 0))

theorem failsInPlace_addInside :
    ∃ m m', Reachable addInside { limits := ⟨4, 1, 2⟩ } m ∧ m.started = true ∧ m.stack.size = 3 ∧
      m.step = .failed m' ⟨.operandKinds .add .boolean .null, 2, 2⟩ [.dispatched 2 2 ⟨.add, []⟩] ∧
      m.FailsInPlace m' ⟨.operandKinds .add .boolean .null, 2, 2⟩ [.dispatched 2 2 ⟨.add, []⟩] ∧
      ∀ past, Reached addInside { limits := ⟨4, 1, 2⟩ } past m → (∀ s ∈ m :: past, s.NoWrap) →
        m.floor ≤ m'.stack.size := by
  have first : Reachable addInside { limits := ⟨4, 1, 2⟩ } _ := .started
  have reachable := first.stepped.stepped.stepped.stepped
  exact ⟨_, _, reachable, rfl, rfl, rfl,
    failsInPlace_of_reachable _ _ _ _ _ _ reachable rfl⟩

end Machine
end BytecodeMachine

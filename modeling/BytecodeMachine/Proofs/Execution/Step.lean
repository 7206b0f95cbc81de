import BytecodeMachine.Machine.Run
import BytecodeMachine.Proofs.Execution.Failure

/-!
# Steps and runs

A step that continues has the effect of one instruction: the one it dispatched or, behind the end of
the code, a return of null. A step that fails could not decode an instruction, or it carried one out
and leaves a machine that lacks at most some operands. A run is a chain of steps that continue, and
it remembers the machines that it went through.
-/

namespace BytecodeMachine

theorem Code.length_operandsAt (code : Code) (offset : Nat) (widths : List Nat) :
    (code.operandsAt offset widths).length = widths.length := by
  induction widths generalizing offset with
  | nil => rfl
  | cons width widths ih => rw [operandsAt, List.length_cons, ih, List.length_cons]

theorem Code.length_operands {code : Code} {offset : Nat} {h : offset < code.size}
    {i : Instruction} (hi : code.instructionAt offset h = .ok i) :
    i.operands.length = i.opcode.widths.length := by
  rw [instructionAt] at hi
  cases hop : Opcode.ofByte code[offset] with
  | error e => simp [hop, bind, Except.bind] at hi
  | ok op =>
    simp only [hop, bind, Except.bind] at hi
    by_cases short : code.size - (offset + 1) < op.operandLength
    · rw [if_pos short] at hi
      cases hi
    · rw [if_neg short] at hi
      cases hi
      exact length_operandsAt code _ _

/-- The machine as a step leaves it, however the step ends. -/
def Transition.machine : Transition → Machine
  | .continued m _ => m
  | .ended m => m
  | .failed m _ _ => m

namespace Machine

variable {m m' : Machine} {i : Instruction}

/-- The instruction that the next step dispatches, if it can decode one. -/
def instruction? (m : Machine) : Option Instruction :=
  if h : m.calls.top.ip < m.calls.top.code.size then
    (m.calls.top.code.instructionAt m.calls.top.ip h).toOption
  else none

/-- Continues behind an instruction. -/
def pass (m : Machine) (i : Instruction) : Machine := m.jump (m.calls.top.ip + i.length)

theorem exists_of_instruction? (h : m.instruction? = some i) :
    ∃ hip : m.calls.top.ip < m.calls.top.code.size,
      m.calls.top.code.instructionAt m.calls.top.ip hip = .ok i := by
  rw [instruction?] at h
  by_cases hip : m.calls.top.ip < m.calls.top.code.size
  · rw [dif_pos hip] at h
    cases hdecode : m.calls.top.code.instructionAt m.calls.top.ip hip with
    | error e => simp [hdecode, Except.toOption] at h
    | ok j =>
      obtain rfl : j = i := by simpa [hdecode, Except.toOption] using h
      exact ⟨hip, hdecode⟩
  · rw [dif_neg hip] at h
    cases h

theorem instruction?_eq (hip : m.calls.top.ip < m.calls.top.code.size)
    (h : m.calls.top.code.instructionAt m.calls.top.ip hip = .ok i) :
    m.instruction? = some i := by
  rw [instruction?, dif_pos hip, h]
  rfl

theorem instruction?_eq_none (beyond : m.calls.top.code.size ≤ m.calls.top.ip) :
    m.instruction? = none := by
  rw [instruction?, dif_neg (Nat.not_lt.mpr beyond)]

theorem length_operands_of_instruction? (h : m.instruction? = some i) :
    i.operands.length = i.opcode.widths.length := by
  obtain ⟨hip, hdecode⟩ := exists_of_instruction? h
  exact Code.length_operands hdecode

/-- An instruction without operands is given by its opcode. -/
theorem eq_of_opcode {op : Opcode} (h : m.instruction? = some i) (hop : i.opcode = op)
    (hnone : op.widths.length = 0) : i = ⟨op, []⟩ := by
  have hlen := length_operands_of_instruction? h
  obtain ⟨_, operands⟩ := i
  subst hop
  rw [hnone] at hlen
  obtain rfl := List.length_eq_zero_iff.mp hlen
  rfl

/-- An instruction with one operand is given by its opcode and that operand. -/
theorem eq_of_opcode_operand {op : Opcode} (h : m.instruction? = some i) (hop : i.opcode = op)
    (hone : op.widths.length = 1) : i = ⟨op, [i.operand 0]⟩ := by
  have hlen := length_operands_of_instruction? h
  obtain ⟨_, operands⟩ := i
  subst hop
  rw [hone] at hlen
  obtain ⟨n, rfl⟩ := List.length_eq_one_iff.mp hlen
  rfl

/-- An instruction with two operands is given by its opcode and them. -/
theorem eq_of_opcode_operands {op : Opcode} (h : m.instruction? = some i) (hop : i.opcode = op)
    (htwo : op.widths.length = 2) : i = ⟨op, [i.operand 0, i.operand 1]⟩ := by
  have hlen := length_operands_of_instruction? h
  obtain ⟨_, operands⟩ := i
  subst hop
  rw [htwo] at hlen
  match operands, hlen with
  | [_, _], _ => rfl

/-- What a step that continues does, with the events it reports. -/
inductive Continues (m : Machine) : List Event → Machine → Prop where
  | dispatch {i event m'} (found : m.instruction? = some i)
      (effect : Effect (m.pass i) i event m') :
      Continues m
        (.dispatched m.calls.top.ip m.calls.depth i :: event.toList) m'
  | finish {event m'} (beyond : m.calls.top.code.size ≤ m.calls.top.ip) (inner : m.calls.depth ≠ 1)
      (effect : Effect m ⟨.returnNull, []⟩ event m') : Continues m event.toList m'

/-- What a step that fails does, with its error and the events it reports. -/
inductive Fails (m : Machine) : RunError → List Event → Machine → Prop where
  | decode {e} (inside : m.calls.top.ip < m.calls.top.code.size)
      (illegal : m.calls.top.code.instructionAt m.calls.top.ip inside = .error e) :
      Fails m ⟨.illegalInstruction e, m.calls.top.ip, m.calls.depth⟩ [] m
  | dispatch {i fault m'} (found : m.instruction? = some i)
      (thrown : Exec.execute i (m.pass i) = .error fault m') :
      Fails m ⟨fault, m.calls.top.ip, m.calls.depth⟩
        [.dispatched m.calls.top.ip m.calls.depth i] m'
  | finish {fault m'} (beyond : m.calls.top.code.size ≤ m.calls.top.ip)
      (inner : m.calls.depth ≠ 1) (thrown : Exec.execute ⟨.returnNull, []⟩ m = .error fault m') :
      Fails m ⟨fault, m.calls.top.ip, m.calls.depth⟩ [] m'

theorem Continues.environment_eq {events : List Event} (h : m.Continues events m') :
    m'.environment = m.environment := by
  cases h with
  | dispatch found effect => exact effect.environment_eq
  | finish beyond inner effect => exact effect.environment_eq

theorem Continues.numGlobals_eq {events : List Event} (h : m.Continues events m') :
    m'.globals.size = m.globals.size := by
  cases h with
  | dispatch found effect => exact effect.numGlobals_eq
  | finish beyond inner effect => exact effect.numGlobals_eq

private theorem continued_of_transition {offset depth : Nat} {events events' : List Event}
    {result : EStateM.Result Fault Machine (Option Event)}
    (h : transition offset depth events result = .continued m' events') :
    ∃ event, result = .ok event m' ∧ events' = events ++ event.toList := by
  rcases result with ⟨_ | event, after⟩ | ⟨fault, after⟩
  · cases h
    exact ⟨none, rfl, (List.append_nil _).symm⟩
  · cases h
    exact ⟨some event, rfl, rfl⟩
  · cases h

private theorem failed_of_transition {offset depth : Nat} {events events' : List Event}
    {error : RunError} {result : EStateM.Result Fault Machine (Option Event)}
    (h : transition offset depth events result = .failed m' error events') :
    ∃ fault, result = .error fault m' ∧ error = ⟨fault, offset, depth⟩ ∧ events' = events := by
  rcases result with ⟨_ | event, after⟩ | ⟨fault, after⟩
  · cases h
  · cases h
  · cases h
    exact ⟨fault, rfl, rfl, rfl⟩

private theorem transition_ne_ended {offset depth : Nat} {events : List Event}
    {result : EStateM.Result Fault Machine (Option Event)} :
    transition offset depth events result ≠ .ended m' := by
  rcases result with ⟨_ | event, after⟩ | ⟨fault, after⟩ <;> exact nofun

theorem step_of_instruction? (found : m.instruction? = some i) :
    m.step = transition m.calls.top.ip m.calls.depth
      [.dispatched m.calls.top.ip m.calls.depth i] (Exec.execute i (m.pass i)) := by
  obtain ⟨inside, hdecode⟩ := exists_of_instruction? found
  rw [step]
  simp only [dif_pos inside, hdecode]
  rfl

theorem step_of_illegal {e : CodeError} {inside : m.calls.top.ip < m.calls.top.code.size}
    (illegal : m.calls.top.code.instructionAt m.calls.top.ip inside = .error e) :
    m.step = .failed m ⟨.illegalInstruction e, m.calls.top.ip, m.calls.depth⟩ [] := by
  rw [step]
  simp only [dif_pos inside, illegal]

theorem step_of_end (beyond : m.calls.top.code.size ≤ m.calls.top.ip)
    (outermost : m.calls.depth = 1) : m.step = .ended m := by
  rw [step]
  simp only [dif_neg (Nat.not_lt.mpr beyond), if_pos outermost]

theorem step_of_finish (beyond : m.calls.top.code.size ≤ m.calls.top.ip)
    (inner : m.calls.depth ≠ 1) :
    m.step = transition m.calls.top.ip m.calls.depth []
      (Exec.execute ⟨.returnNull, []⟩ m) := by
  rw [step]
  simp only [dif_neg (Nat.not_lt.mpr beyond), if_neg inner]
  rfl

/-- The ways in which a step goes on. -/
theorem step_cases (m : Machine) :
    (∃ inside e, m.calls.top.code.instructionAt m.calls.top.ip inside = .error e ∧
      m.step = .failed m ⟨.illegalInstruction e, m.calls.top.ip, m.calls.depth⟩ []) ∨
    (∃ i, m.instruction? = some i ∧
      m.step = transition m.calls.top.ip m.calls.depth
        [.dispatched m.calls.top.ip m.calls.depth i] (Exec.execute i (m.pass i))) ∨
    m.calls.top.code.size ≤ m.calls.top.ip ∧
      (m.calls.depth = 1 ∧ m.step = .ended m ∨
        m.calls.depth ≠ 1 ∧
          m.step = transition m.calls.top.ip m.calls.depth []
            (Exec.execute ⟨.returnNull, []⟩ m)) := by
  by_cases hip : m.calls.top.ip < m.calls.top.code.size
  · cases hdecode : m.calls.top.code.instructionAt m.calls.top.ip hip with
    | error e => exact .inl ⟨hip, e, hdecode, step_of_illegal hdecode⟩
    | ok i =>
      have found := instruction?_eq hip hdecode
      exact .inr (.inl ⟨i, found, step_of_instruction? found⟩)
  · have beyond := Nat.le_of_not_lt hip
    refine .inr (.inr ⟨beyond, ?_⟩)
    by_cases hdepth : m.calls.depth = 1
    · exact .inl ⟨hdepth, step_of_end beyond hdepth⟩
    · exact .inr ⟨hdepth, step_of_finish beyond hdepth⟩

theorem continues_of_step {events : List Event} (h : m.step = .continued m' events) :
    m.Continues events m' := by
  obtain ⟨inside, e, illegal, hstep⟩ | ⟨i, found, hstep⟩ |
    ⟨beyond, ⟨-, hstep⟩ | ⟨inner, hstep⟩⟩ := m.step_cases
  · cases hstep.symm.trans h
  · obtain ⟨event, hexecute, rfl⟩ := continued_of_transition (hstep.symm.trans h)
    exact .dispatch found (Exec.effect_of_execute hexecute)
  · cases hstep.symm.trans h
  · obtain ⟨event, hexecute, rfl⟩ := continued_of_transition (hstep.symm.trans h)
    exact .finish beyond inner (Exec.effect_of_execute hexecute)

theorem fails_of_step {error : RunError} {events : List Event}
    (h : m.step = .failed m' error events) : m.Fails error events m' := by
  obtain ⟨inside, e, illegal, hstep⟩ | ⟨i, found, hstep⟩ |
    ⟨beyond, ⟨-, hstep⟩ | ⟨inner, hstep⟩⟩ := m.step_cases
  · cases hstep.symm.trans h
    exact .decode inside illegal
  · obtain ⟨fault, hexecute, rfl, rfl⟩ := failed_of_transition (hstep.symm.trans h)
    exact .dispatch found hexecute
  · cases hstep.symm.trans h
  · obtain ⟨fault, hexecute, rfl, rfl⟩ := failed_of_transition (hstep.symm.trans h)
    exact .finish beyond inner hexecute

/-- A failing step goes at most behind the instruction and removes operands. -/
theorem lowers_of_step {error : RunError} {events : List Event} (returns : m.Returns)
    (h : m.step = .failed m' error events) : ∃ offset, (m.jump offset).Lowers m' := by
  cases fails_of_step h with
  | decode => exact ⟨m.calls.top.ip, .refl m⟩
  | dispatch found thrown => exact ⟨_, Exec.lowers_of_execute_error (by exact returns) thrown⟩
  | finish beyond inner thrown =>
    exact ⟨m.calls.top.ip, Exec.lowers_of_execute_error returns thrown⟩

theorem eq_of_step_ended (h : m.step = .ended m') : m' = m := by
  obtain ⟨inside, e, illegal, hstep⟩ | ⟨i, found, hstep⟩ |
    ⟨beyond, ⟨-, hstep⟩ | ⟨inner, hstep⟩⟩ := m.step_cases
  · cases hstep.symm.trans h
  · exact absurd (hstep.symm.trans h) transition_ne_ended
  · cases hstep.symm.trans h
    rfl
  · exact absurd (hstep.symm.trans h) transition_ne_ended

/-- Only the main frame ends a run. -/
theorem depth_of_step_ended (h : m.step = .ended m') : m.calls.depth = 1 := by
  obtain ⟨inside, e, illegal, hstep⟩ | ⟨i, found, hstep⟩ |
    ⟨beyond, ⟨outermost, -⟩ | ⟨inner, hstep⟩⟩ := m.step_cases
  · cases hstep.symm.trans h
  · exact absurd (hstep.symm.trans h) transition_ne_ended
  · exact outermost
  · exact absurd (hstep.symm.trans h) transition_ne_ended

/-- Any step has the effect of an instruction or fails. -/
theorem effect_or_lowers (returns : m.Returns) :
    (∃ offset i event, Effect (m.jump offset) i event m.step.machine) ∨
      ∃ offset, (m.jump offset).Lowers m.step.machine := by
  cases hstep : m.step with
  | continued after events =>
    refine .inl ?_
    cases continues_of_step hstep with
    | dispatch found effect => exact ⟨_, _, _, effect⟩
    | finish beyond inner effect => exact ⟨m.calls.top.ip, _, _, effect⟩
  | ended after =>
    obtain rfl := eq_of_step_ended hstep
    exact .inr ⟨after.calls.top.ip, .refl after⟩
  | failed after error events => exact .inr (lowers_of_step returns hstep)

/-- The events of further steps do not depend on those before them. -/
theorem eventsFrom_eq_append (fuel : Nat) (m : Machine) (log : Array Event) :
    eventsFrom fuel m log = log ++ eventsFrom fuel m #[] := by
  induction fuel generalizing m log with
  | zero => rw [eventsFrom, eventsFrom, Array.append_empty]
  | succ fuel ih =>
    rw [eventsFrom, eventsFrom]
    cases m.step with
    | continued after events =>
      change eventsFrom fuel after (log ++ events) = log ++ eventsFrom fuel after (#[] ++ events)
      rw [ih after (log ++ events), ih after (#[] ++ events), ← Array.toList_inj]
      simp
    | ended after => exact Array.push_eq_append
    | failed after error events =>
      rw [← Array.toList_inj]
      simp

/-- A run from one machine to another, with the machines before the last one, latest first. -/
inductive Run (start : Machine) : List Machine → Machine → Prop where
  | refl : Run start [] start
  | step {past : List Machine} {m m' : Machine} {events : List Event} (run : Run start past m)
      (next : m.step = .continued m' events) : Run start (m :: past) m'

theorem Run.environment_eq {start : Machine} {past : List Machine} (run : Run start past m) :
    m.environment = start.environment := by
  induction run with
  | refl => rfl
  | step run next ih => exact (continues_of_step next).environment_eq.trans ih

theorem Run.trans {start : Machine} {past later : List Machine} (run : Run start past m)
    (run' : Run m later m') : Run start (later ++ past) m' := by
  induction run' with
  | refl => exact run
  | step run' next ih => exact .step ih next

theorem Run.start_mem {start : Machine} {past : List Machine} (run : Run start past m) :
    start ∈ m :: past := by
  induction run with
  | refl => exact .head _
  | step run next ih => exact .tail _ ih

/-- Running on takes as much more fuel as there were steps. -/
theorem Run.loop_eq {start : Machine} {past : List Machine} (run : Run start past m) (fuel : Nat) :
    loop (past.length + fuel) start = loop fuel m := by
  induction run generalizing fuel with
  | refl => rw [List.length_nil, Nat.zero_add]
  | step run next ih => rw [List.length_cons, Nat.add_assoc, Nat.add_comm 1, ih, loop, next]

/-- The machine with which the run of a program begins. -/
def initial (p : Program) (setup : Setup) : Machine := { load p setup with started := true }

/-- The states of a program under a setup: as it is loaded, as its run begins, and as a step leaves
it, even if the step fails. -/
inductive Reachable (p : Program) (setup : Setup) : Machine → Prop where
  | loaded : Reachable p setup (load p setup)
  | started : Reachable p setup (initial p setup)
  | stepped {m : Machine} (h : Reachable p setup m) : Reachable p setup m.step.machine

variable {p : Program} {setup : Setup}

/-- The states of a program under a setup, each with the states before it, latest first. -/
inductive Reached (p : Program) (setup : Setup) : List Machine → Machine → Prop where
  | loaded : Reached p setup [] (load p setup)
  | started : Reached p setup [] (initial p setup)
  | stepped {past : List Machine} {m : Machine} (h : Reached p setup past m) :
    Reached p setup (m :: past) m.step.machine

theorem Reached.reachable {past : List Machine} (h : Reached p setup past m) :
    Reachable p setup m := by
  induction h with
  | loaded => exact .loaded
  | started => exact .started
  | stepped h ih => exact ih.stepped

/-- What comes before a state is reachable, too. -/
theorem Reached.reachable_of_mem {s : Machine} {past : List Machine} (h : Reached p setup past m)
    (hs : s ∈ m :: past) : Reachable p setup s := by
  induction h with
  | loaded => exact List.mem_singleton.mp hs ▸ .loaded
  | started => exact List.mem_singleton.mp hs ▸ .started
  | stepped h ih =>
    rcases List.mem_cons.mp hs with rfl | hs
    · exact h.reachable.stepped
    · exact ih hs

theorem Reachable.exists_reached (h : Reachable p setup m) : ∃ past, Reached p setup past m := by
  induction h with
  | loaded => exact ⟨_, .loaded⟩
  | started => exact ⟨_, .started⟩
  | stepped h ih =>
    obtain ⟨past, h⟩ := ih
    exact ⟨_, h.stepped⟩

theorem Reached.run {start : Machine} {before past : List Machine}
    (h : Reached p setup before start) (run : Run start past m) :
    Reached p setup (past ++ before) m := by
  induction run with
  | refl => exact h
  | step run next ih =>
    have stepped := ih.stepped
    rwa [next] at stepped

theorem Reached.of_run {past : List Machine} (h : Run (initial p setup) past m) :
    Reached p setup past m :=
  List.append_nil past ▸ Reached.started.run h

theorem Reachable.of_run {past : List Machine} (h : Run (initial p setup) past m) :
    Reachable p setup m := (Reached.of_run h).reachable

/-- The machine after some steps of a program. -/
def after (p : Program) (setup : Setup) : (steps : Nat) → Machine
  | 0 => initial p setup
  | steps + 1 => (after p setup steps).step.machine

theorem reachable_after (p : Program) (setup : Setup) (steps : Nat) :
    Reachable p setup (after p setup steps) := by
  induction steps with
  | zero => exact .started
  | succ steps ih => exact ih.stepped

/-- A program fails where its run comes to a step that fails. -/
theorem Run.run_of_failed {past : List Machine} {error : RunError} {events : List Event}
    (h : Run (initial p setup) past m) (failed : m.step = .failed m' error events) :
    (load p setup).run (past.length + 1) = some (.error error, m') := by
  have hloop : loop 1 m = some (.error error, m') := by rw [loop, failed]
  exact (h.loop_eq 1).trans hloop

/-- A run that has ended did so in a step from a reachable state. -/
theorem Reachable.exists_last_of_loop {fuel : Nat} {outcome : Outcome} (h : Reachable p setup m)
    (hloop : loop fuel m = some (outcome, m')) :
    ∃ s, Reachable p setup s ∧ (outcome = .ok () ∧ s.step = .ended m' ∨
      ∃ error events, outcome = .error error ∧ s.step = .failed m' error events) := by
  induction fuel generalizing m with
  | zero => cases hloop
  | succ fuel ih =>
    have hnext := h.stepped
    rw [loop] at hloop
    cases hstep : m.step with
    | continued after events =>
      rw [hstep] at hloop hnext
      exact ih hnext hloop
    | ended after =>
      rw [hstep] at hloop
      cases hloop
      exact ⟨m, h, .inl ⟨rfl, hstep⟩⟩
    | failed after error events =>
      rw [hstep] at hloop
      cases hloop
      exact ⟨m, h, .inr ⟨error, events, rfl, hstep⟩⟩

theorem Reachable.of_loop {fuel : Nat} {outcome : Outcome} (h : Reachable p setup m)
    (hloop : loop fuel m = some (outcome, m')) : Reachable p setup m' := by
  obtain ⟨s, reachable, ⟨-, hstep⟩ | ⟨error, events, -, hstep⟩⟩ := h.exists_last_of_loop hloop
  all_goals
    have hlast := reachable.stepped
    rwa [hstep] at hlast

/-- However a run ends, it ends in a reachable state. -/
theorem Reachable.of_result {fuel : Nat} {outcome : Outcome}
    (h : (load p setup).run fuel = some (outcome, m)) : Reachable p setup m :=
  Reachable.started.of_loop h

end Machine
end BytecodeMachine

import BytecodeMachine.Proofs.Execution.Step

/-!
# Logs of runs

The log of a run consists of the events of its steps. With any amount of fuel a run either goes on,
or it was ended by its last step, which leaves one more event in the log.
-/

namespace BytecodeMachine

/-- The events that a step reports. -/
def Transition.events : Transition → List Event
  | .continued _ events => events
  | .ended _ => []
  | .failed _ _ events => events

theorem Effect.event_ne_dispatched {m m' : Machine} {i j : Instruction} {event : Option Event}
    {offset depth : Nat} (h : Effect m i event m') : .dispatched offset depth j ∉ event.toList := by
  cases h <;> simp

namespace Machine

variable {m m' start : Machine} {i : Instruction} {past : List Machine}

/-- A step dispatches the instruction at which the running frame is. -/
theorem dispatched_of_step {offset depth : Nat}
    (h : .dispatched offset depth i ∈ m.step.events) :
    offset = m.calls.top.ip ∧ depth = m.calls.depth ∧ m.instruction? = some i := by
  cases hstep : m.step with
  | continued after events =>
    rw [hstep] at h
    cases continues_of_step hstep with
    | dispatch found effect =>
      rcases List.mem_cons.mp h with h | h
      · cases h
        exact ⟨rfl, rfl, found⟩
      · exact absurd h effect.event_ne_dispatched
    | finish beyond inner effect => exact absurd h effect.event_ne_dispatched
  | ended after =>
    rw [hstep] at h
    cases h
  | failed after error events =>
    rw [hstep] at h
    cases fails_of_step hstep with
    | decode => cases h
    | dispatch found thrown =>
      cases List.mem_singleton.mp h
      exact ⟨rfl, rfl, found⟩
    | finish => cases h

/-- The events of the steps from some machines, which are listed latest first. -/
def log : List Machine → List Event
  | [] => []
  | m :: past => log past ++ m.step.events

theorem log_append (later past : List Machine) : log (later ++ past) = log past ++ log later := by
  induction later with
  | nil => exact (List.append_nil _).symm
  | cons m later ih => rw [List.cons_append, log, log, ih, List.append_assoc]

/-- How a run goes as far as its fuel lasts, with its result and its log. -/
inductive Goes (start : Machine) : Nat → Option (Outcome × Machine) → List Event → Prop where
  | on {past : List Machine} {m : Machine} (run : Run start past m) :
    Goes start past.length none (log past)
  | ended {fuel : Nat} {past : List Machine} {m : Machine} (run : Run start past m)
    (enough : past.length < fuel) (last : m.step = .ended m) :
    Goes start fuel (some (.ok (), m)) (log past ++ [.finished m.stack.size])
  | failed {fuel : Nat} {past : List Machine} {m m' : Machine} {error : RunError}
    {events : List Event} (run : Run start past m) (enough : past.length < fuel)
    (last : m.step = .failed m' error events) :
    Goes start fuel (some (.error error, m')) (log past ++ (events ++ [.aborted error]))

theorem Goes.cons {fuel : Nat} {result : Option (Outcome × Machine)} {events rest : List Event}
    (h : Goes m' fuel result rest) (first : m.step = .continued m' events) :
    Goes m (fuel + 1) result (events ++ rest) := by
  have run : Run m [m] m' := .step .refl first
  have hlog (past : List Machine) : log (past ++ [m]) = events ++ log past := by
    rw [log_append, log, log, first]
    rfl
  have hlength (past : List Machine) : (past ++ [m]).length = past.length + 1 :=
    List.length_append
  cases h with
  | on run' =>
    rw [← hlength, ← hlog]
    exact .on (run.trans run')
  | ended run' enough last =>
    rw [← List.append_assoc, ← hlog]
    exact .ended (run.trans run') (hlength _ ▸ Nat.succ_lt_succ enough) last
  | failed run' enough last =>
    rw [← List.append_assoc, ← hlog]
    exact .failed (run.trans run') (hlength _ ▸ Nat.succ_lt_succ enough) last

theorem goes_loop (fuel : Nat) (m : Machine) :
    Goes m fuel (loop fuel m) (eventsFrom fuel m #[]).toList := by
  induction fuel generalizing m with
  | zero => exact .on .refl
  | succ fuel ih =>
    rw [loop, eventsFrom]
    cases hstep : m.step with
    | continued after events =>
      change Goes m (fuel + 1) (loop fuel after) (eventsFrom fuel after (#[] ++ events)).toList
      rw [eventsFrom_eq_append, Array.toList_append]
      simpa using (ih after).cons hstep
    | ended after =>
      obtain rfl := eq_of_step_ended hstep
      exact .ended .refl (Nat.succ_pos fuel) hstep
    | failed after error events =>
      have goes : Goes m (fuel + 1) (some (.error error, after))
          (log [] ++ (events ++ [.aborted error])) := .failed .refl (Nat.succ_pos fuel) hstep
      simpa [log] using goes

theorem exists_run_of_ended {fuel : Nat} (h : loop fuel start = some (.ok (), m)) :
    ∃ past, Run start past m ∧ m.step = .ended m := by
  have goes := goes_loop fuel start
  rw [h] at goes
  generalize (eventsFrom fuel start #[]).toList = events at goes
  cases goes with
  | ended run enough last => exact ⟨_, run, last⟩

/-- The log of a run that is still going on consists of the events of its steps. -/
theorem Run.eventsFrom_eq (run : Run start past m) (fuel : Nat) :
    (eventsFrom (past.length + fuel) start #[]).toList =
      log past ++ (eventsFrom fuel m #[]).toList := by
  induction run generalizing fuel with
  | refl => rw [List.length_nil, Nat.zero_add, log, List.nil_append]
  | @step past m m' events run next ih =>
    rw [List.length_cons, Nat.add_assoc, Nat.add_comm 1, ih, eventsFrom, next, log, next]
    change _ ++ (eventsFrom fuel m' (#[] ++ events)).toList = _
    rw [eventsFrom_eq_append, Array.toList_append, List.append_assoc]
    simp [Transition.events]

/-- A program logs its start before all else. -/
theorem toList_trace_load (p : Program) (setup : Setup) (fuel : Nat) :
    (trace fuel (load p setup)).toList =
      .started p.code.size p.constants.size :: (eventsFrom fuel (initial p setup) #[]).toList := by
  have htrace : trace fuel (load p setup) =
      eventsFrom fuel (initial p setup) #[.started p.code.size p.constants.size] := rfl
  rw [htrace, eventsFrom_eq_append, Array.toList_append]
  rfl

theorem Run.trace_eq {p : Program} {setup : Setup} (run : Run (initial p setup) past m) :
    (trace past.length (load p setup)).toList =
      .started p.code.size p.constants.size :: log past := by
  have hevents := run.eventsFrom_eq 0
  rw [Nat.add_zero, eventsFrom, List.append_nil] at hevents
  rw [toList_trace_load, hevents]

end Machine
end BytecodeMachine

import BytecodeMachine.Proofs.Execution.Step
import BytecodeMachine.Proofs.Slack.Execution

/-!
# Runs of machines that are alike

Machines that are alike take the same steps and end alike, except that a wider machine may go on
where the other one has exceeded a bound.
-/

namespace BytecodeMachine

namespace Slack

variable {slack : Slack}

/-- How one step ends on two machines. -/
inductive Transitions (slack : Slack) : Transition → Transition → Prop where
  | continued {m m' events} (machines : slack.Machines m m') :
    Transitions slack (.continued m events) (.continued m' events)
  | ended {m m'} (machines : slack.Machines m m') : Transitions slack (.ended m) (.ended m')
  | failed {m m' error events} (machines : slack.Machines m m') :
    Transitions slack (.failed m error events) (.failed m' error events)
  | exceeded {m error events next} (wider : slack.wider)
    (bound : error.fault.exceedsBound = true) : Transitions slack (.failed m error events) next

/-- How runs of two machines end within the same number of steps. -/
inductive Results (slack : Slack) :
    Option (Machine.Outcome × Machine) → Option (Machine.Outcome × Machine) → Prop where
  | unfinished : Results slack none none
  | finished {outcome m m'} (machines : slack.Machines m m') :
    Results slack (some (outcome, m)) (some (outcome, m'))
  | exceeded {error m result} (wider : slack.wider) (bound : error.fault.exceedsBound = true) :
    Results slack (some (.error error, m)) result

/-- The run does not end because a bound is exceeded that a wider machine may have raised. -/
def Keeps (slack : Slack) (result : Option (Machine.Outcome × Machine)) : Prop :=
  slack.wider → ∀ error m, result = some (.error error, m) → error.fault.exceedsBound = false

theorem Outcomes.transition {result result' : EStateM.Result Fault Machine (Option Event)}
    (h : slack.Outcomes result result') (offset depth : Nat) (events : List Event) :
    slack.Transitions (Machine.transition offset depth events result)
      (Machine.transition offset depth events result') := by
  cases h with
  | @ok event m m' machines =>
    cases event with
    | none => exact .continued machines
    | some event => exact .continued machines
  | error machines => exact .failed machines
  | exceeded wider bound => exact .exceeded wider bound

variable {m m' : Machine}

namespace Machines

theorem step (h : slack.Machines m m') : slack.Transitions m.step m'.step := by
  simp only [Machine.step, h.calls_eq]
  by_cases inside : m.calls.top.ip < m.calls.top.code.size
  · simp only [dif_pos inside]
    cases m.calls.top.code.instructionAt m.calls.top.ip inside with
    | error e => exact .failed h
    | ok i =>
      have hjump : Exec.Alike slack (Exec.jump (m.calls.top.ip + i.length)) := Exec.alike_jump _
      exact ((hjump.bind fun _ => Exec.alike_execute i) m m' h).transition _ _ _
  · simp only [dif_neg inside]
    by_cases outermost : m.calls.depth = 1
    · rw [if_pos outermost, if_pos outermost]
      exact .ended h
    · rw [if_neg outermost, if_neg outermost]
      exact ((Exec.alike_leave .null).map some m m' h).transition _ _ _

/-- A step that continues does so on both machines. -/
theorem exists_continued {n : Machine} {events : List Event} (h : slack.Machines m m')
    (next : m.step = .continued n events) :
    ∃ n', m'.step = .continued n' events ∧ slack.Machines n n' := by
  have hstep := h.step
  rw [next] at hstep
  generalize m'.step = next' at hstep ⊢
  cases hstep with
  | continued machines => exact ⟨_, rfl, machines⟩

theorem loop (h : slack.Machines m m') (fuel : Nat) :
    slack.Results (Machine.loop fuel m) (Machine.loop fuel m') := by
  induction fuel generalizing m m' with
  | zero => exact .unfinished
  | succ fuel ih =>
    have hstep := h.step
    rw [Machine.loop, Machine.loop]
    generalize m.step = next at hstep ⊢
    generalize m'.step = next' at hstep ⊢
    cases hstep with
    | continued machines => exact ih machines
    | ended machines => exact .finished machines
    | failed machines => exact .finished machines
    | exceeded wider bound => exact .exceeded wider bound

/-- Where one run ends within the bounds, so does the other, in the same way. -/
theorem exists_loop_eq_some {fuel : Nat} {outcome : Machine.Outcome} {n : Machine}
    (h : slack.Machines m m') (hloop : Machine.loop fuel m = some (outcome, n))
    (keeps : slack.Keeps (some (outcome, n))) :
    ∃ n', Machine.loop fuel m' = some (outcome, n') ∧ slack.Machines n n' := by
  have hresults := h.loop fuel
  rw [hloop] at hresults
  generalize Machine.loop fuel m' = result at hresults ⊢
  cases hresults with
  | finished machines => exact ⟨_, rfl, machines⟩
  | exceeded wider bound => cases bound.symm.trans (keeps wider _ _ rfl)

theorem eventsFrom_eq (h : slack.Machines m m') {fuel : Nat}
    (keeps : slack.Keeps (Machine.loop fuel m)) (log : Array Event) :
    Machine.eventsFrom fuel m' log = Machine.eventsFrom fuel m log := by
  induction fuel generalizing m m' log with
  | zero => rfl
  | succ fuel ih =>
    have hstep := h.step
    rw [Machine.eventsFrom, Machine.eventsFrom]
    rw [Machine.loop] at keeps
    generalize m.step = next at hstep keeps ⊢
    generalize m'.step = next' at hstep ⊢
    cases hstep with
    | continued machines => exact ih machines keeps _
    | ended machines => simp only [machines.stack.size_eq]
    | failed machines => rfl
    | exceeded wider bound => cases bound.symm.trans (keeps wider _ _ rfl)

end Machines
end Slack
end BytecodeMachine

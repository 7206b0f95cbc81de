import BytecodeMachine.Machine.Execute

/-!
# Runs

`step` decodes and executes one instruction, or leaves a function whose code has ended. `run`
repeats it until the main code ends or a fault occurs, within a bound on the number of steps, and
`trace` lists the events of the same run. A machine runs only once. Sums of words wrap here; where
they are checked instead, the same run is given up at the first frame whose slots do not end at a
word.
-/

namespace BytecodeMachine

/-- How a step ends, with the events it reported. -/
inductive Transition where
  | continued (m : Machine) (events : List Event)
  | ended (m : Machine)
  | failed (m : Machine) (error : RunError) (events : List Event)

namespace Machine

/-- The effect of one part of execution as a step that began at an offset and a depth. -/
@[inline] def transition (offset depth : Nat) (events : List Event) :
    EStateM.Result Fault Machine (Option Event) → Transition
  | .ok none m => .continued m events
  | .ok (some event) m => .continued m (events ++ [event])
  | .error fault m => .failed m ⟨fault, offset, depth⟩ events

/-- One step. Running off the end of a function returns null from it. -/
def step (m : Machine) : Transition :=
  let ip := m.calls.top.ip
  let depth := m.calls.depth
  let code := m.calls.top.code
  if h : ip < code.size then
    match code.instructionAt ip h with
    | .error e => .failed m ⟨.illegalInstruction e, ip, depth⟩ []
    | .ok i =>
      transition ip depth [.dispatched ip depth i]
        ((do Exec.jump (ip + i.length); Exec.execute i : Exec (Option Event)) m)
  else if depth = 1 then .ended m
  else transition ip depth [] ((some <$> Exec.leave .null : Exec (Option Event)) m)

/-- How a run ends. -/
abbrev Outcome := Except RunError Unit

/-- Steps until the run ends, or `none` if that takes more steps than there is fuel. -/
def loop : (fuel : Nat) → Machine → Option (Outcome × Machine)
  | 0, _ => none
  | fuel + 1, m =>
    match m.step with
    | .continued m _ => loop fuel m
    | .ended m => some (.ok (), m)
    | .failed m error _ => some (.error error, m)

/-- More fuel does not change a run that has ended. -/
theorem loop_add {fuel : Nat} {m : Machine} {result : Outcome × Machine}
    (h : loop fuel m = some result) (extra : Nat) : loop (fuel + extra) m = some result := by
  induction fuel generalizing m with
  | zero => cases h
  | succ fuel ih =>
    rw [Nat.succ_add]
    unfold loop at h ⊢
    cases hstep : m.step with
    | continued after events =>
      rw [hstep] at h
      exact ih h
    | ended after =>
      rw [hstep] at h
      exact h
    | failed after error events =>
      rw [hstep] at h
      exact h

/-- Whether the run is given up within so many steps if sums of words are checked. -/
def givesUp : (fuel : Nat) → Machine → Bool
  | 0, _ => false
  | fuel + 1, m =>
    match m.step with
    | .continued m _ => m.calls.top.floor?.isNone || givesUp fuel m
    | .ended _ | .failed .. => false

/-- Runs the program. A machine that was run before refuses and stays as it is. -/
def run (fuel : Nat) (m : Machine) : Option (Outcome × Machine) :=
  if m.started then some (.error ⟨.alreadyRun, 0, 0⟩, m)
  else loop fuel { m with started := true }

/-- Runs a number of times in a row, with the outcome of each run. -/
def runTimes (fuel : Nat) : (times : Nat) → Machine → Option (List Outcome × Machine)
  | 0, m => some ([], m)
  | times + 1, m => do
    let (outcome, m) ← m.run fuel
    let (outcomes, m) ← runTimes fuel times m
    return (outcome :: outcomes, m)

/-- Appends the events of further steps to the events before them. -/
def eventsFrom : (fuel : Nat) → Machine → Array Event → Array Event
  | 0, _, log => log
  | fuel + 1, m, log =>
    match m.step with
    | .continued m events => eventsFrom fuel m (log ++ events)
    | .ended m => log.push (.finished m.stack.size)
    | .failed _ error events => (log ++ events).push (.aborted error)

/-- The events of a run, of which there are none if the machine refuses to run. -/
def trace (fuel : Nat) (m : Machine) : Array Event :=
  if m.started then #[]
  else
    let start := .started m.calls.top.code.size m.environment.constants.size
    eventsFrom fuel { m with started := true } #[start]

end Machine

/-- The value of a program and what it printed, under the standard setup. -/
def Program.evaluate (fuel : Nat) (p : Program) :
    Option (Except RunError (Value × Array Value)) := do
  match ← (Machine.load p {}).run fuel with
  | (.ok (), m) => some (.ok (m.result, m.printed))
  | (.error e, _) => some (.error e)

end BytecodeMachine

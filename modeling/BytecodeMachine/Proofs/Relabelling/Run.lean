import BytecodeMachine.Proofs.Execution.Step
import BytecodeMachine.Proofs.Relabelling.Execution

/-!
# Runs under relabelling

A relabelling that keeps code does not change what a run does: it goes through the relabelled
machines, reports the same events and ends with the same outcome.
-/

namespace BytecodeMachine

namespace Relabelling

variable {ρ : Relabelling}

/-- Only identities change. -/
def KeepsCode (ρ : Relabelling) : Prop := ∀ f, ρ.code f = f.code

def transition (ρ : Relabelling) : Transition → Transition
  | .continued m events => .continued (ρ.machine m) events
  | .ended m => .ended (ρ.machine m)
  | .failed m error events => .failed (ρ.machine m) error events

theorem transition_outcome (offset depth : Nat) (events : List Event)
    (result : EStateM.Result Fault Machine (Option Event)) :
    Machine.transition offset depth events (ρ.outcome id result) =
      ρ.transition (Machine.transition offset depth events result) := by
  rcases result with ⟨_ | event, m⟩ | ⟨fault, m⟩
  · rfl
  · rfl
  · rfl

/-- Both steps go the same way, to machines that are the same up to the relabelling. What they
report is left open. -/
inductive Matches (ρ : Relabelling) : Transition → Transition → Prop where
  | continued (m : Machine) (events events' : List Event) :
      Matches ρ (.continued m events) (.continued (ρ.machine m) events')
  | ended (m : Machine) : Matches ρ (.ended m) (.ended (ρ.machine m))
  | failed (m : Machine) (error : RunError) (events events' : List Event) :
      Matches ρ (.failed m error events) (.failed (ρ.machine m) error events')

theorem matches_transition (t : Transition) : ρ.Matches t (ρ.transition t) := by
  cases t with
  | continued m events => exact .continued m events events
  | ended m => exact .ended m
  | failed m error events => exact .failed m error events events

theorem KeepsCode.code_top (keeps : ρ.KeepsCode) (m : Machine) :
    (ρ.machine m).calls.top.code = m.calls.top.code := keeps m.calls.top.closure.function

theorem KeepsCode.instruction?_machine (keeps : ρ.KeepsCode) (m : Machine) :
    (ρ.machine m).instruction? = m.instruction? := by
  have hip : (ρ.machine m).calls.top.ip = m.calls.top.ip := rfl
  simp only [Machine.instruction?]
  simp only [keeps.code_top, hip]

/-- Where the relabelled code is decoded as the code itself, the same instruction is executed. -/
theorem step_machine_of_decode {m : Machine} (respects : ρ.Respects m.environment.host)
    (inside : m.calls.top.ip < m.calls.top.code.size)
    (inside' : m.calls.top.ip < (ρ.machine m).calls.top.code.size)
    (decodes : (ρ.machine m).calls.top.code.instructionAt m.calls.top.ip inside' =
      m.calls.top.code.instructionAt m.calls.top.ip inside) :
    (ρ.machine m).step = ρ.transition m.step := by
  have hdepth : (ρ.machine m).calls.depth = m.calls.depth := ρ.depth_calls m.calls
  cases hi : m.calls.top.code.instructionAt m.calls.top.ip inside with
  | error e =>
    rw [Machine.step_of_illegal hi, Machine.step_of_illegal (decodes.trans hi), hdepth]
    rfl
  | ok i =>
    have hexecute := Exec.execute_outcome i (m := m.pass i) respects
    rw [Machine.step_of_instruction? (Machine.instruction?_eq inside hi),
      Machine.step_of_instruction? (Machine.instruction?_eq inside' (decodes.trans hi)), hdepth]
    exact (congrArg _ hexecute).trans (transition_outcome _ _ _ _)

theorem step_machine_of_end {m : Machine} (beyond : m.calls.top.code.size ≤ m.calls.top.ip)
    (beyond' : (ρ.machine m).calls.top.code.size ≤ m.calls.top.ip) :
    (ρ.machine m).step = ρ.transition m.step := by
  have hdepth : (ρ.machine m).calls.depth = m.calls.depth := ρ.depth_calls m.calls
  by_cases outermost : m.calls.depth = 1
  · rw [Machine.step_of_end beyond outermost,
      Machine.step_of_end beyond' (hdepth.trans outermost)]
    rfl
  · rw [Machine.step_of_finish beyond outermost,
      Machine.step_of_finish beyond' (hdepth ▸ outermost), hdepth, ← transition_outcome]
    exact congrArg _ (Exec.corresponds_map Exec.corresponds_leave_null some m)

theorem step_machine_of_code_eq {m : Machine} (respects : ρ.Respects m.environment.host)
    (hcode : (ρ.machine m).calls.top.code = m.calls.top.code) :
    (ρ.machine m).step = ρ.transition m.step := by
  by_cases inside : m.calls.top.ip < m.calls.top.code.size
  · refine step_machine_of_decode respects inside (hcode ▸ inside) ?_
    simp only [hcode]
  · have beyond := Nat.le_of_not_lt inside
    exact step_machine_of_end beyond (hcode ▸ beyond)

theorem KeepsCode.step_machine (keeps : ρ.KeepsCode) {m : Machine}
    (respects : ρ.Respects m.environment.host) :
    (ρ.machine m).step = ρ.transition m.step :=
  step_machine_of_code_eq respects (keeps.code_top m)

/-- The closure that a step makes is relabelled like any other value. -/
theorem KeepsCode.makes_machine (keeps : ρ.KeepsCode) {m : Machine} {c : Closure Value}
    (respects : ρ.Respects m.environment.host) (makes : m.Makes c) :
    (ρ.machine m).Makes (ρ.closure c) := by
  obtain ⟨⟨k, n, found, captured⟩, pushed⟩ := makes
  refine ⟨⟨k, n, (keeps.instruction?_machine m).trans found, ?_⟩, ?_⟩
  · rw [stack_machine, Stack.topmost_map, ← captured]
    rfl
  · have hmachine : (ρ.machine m).step.machine = ρ.machine m.step.machine := by
      rw [keeps.step_machine respects]
      cases m.step <;> rfl
    rw [hmachine, stack_machine, Stack.top?_map, pushed, Option.map_some, value_closure]

variable {m : Machine} {fuel : Nat}

section Matches

variable {P : Machine → Prop} (next : ∀ m, P m → ρ.Matches m.step (ρ.machine m).step)
  (kept : ∀ m m' events, P m → m.step = .continued m' events → P m')

include next kept

/-- If all steps match, then the runs go on and end alike. -/
theorem loop_of_matches (h : P m) :
    Machine.loop fuel (ρ.machine m) =
      (Machine.loop fuel m).map fun result => (result.1, ρ.machine result.2) := by
  induction fuel generalizing m with
  | zero => rfl
  | succ fuel ih =>
    have hnext := next m h
    have hkept := kept m
    rw [Machine.loop, Machine.loop]
    generalize m.step = t at hnext hkept
    generalize (ρ.machine m).step = t' at hnext
    cases hnext with
    | continued after events => exact ih (hkept after events h rfl)
    | ended after => rfl
    | failed after error events => rfl

theorem run_of_matches {start : Machine} {past : List Machine} (h : P start)
    (run : Machine.Run start past m) :
    P m ∧ Machine.Run (ρ.machine start) (past.map ρ.machine) (ρ.machine m) := by
  induction run with
  | refl => exact ⟨h, .refl⟩
  | @step past m m' events run hstep ih =>
    obtain ⟨hm, ih⟩ := ih
    have hnext := next m hm
    rw [hstep] at hnext
    refine ⟨kept m m' events hm hstep, ?_⟩
    generalize hstep' : (ρ.machine m).step = t' at hnext
    cases hnext with
    | continued _ _ events' => exact .step ih hstep'

end Matches

theorem KeepsCode.matches_step (keeps : ρ.KeepsCode) (m : Machine)
    (respects : ρ.Respects m.environment.host) : ρ.Matches m.step (ρ.machine m).step := by
  rw [keeps.step_machine respects]
  exact matches_transition m.step

theorem respects_of_step (m m' : Machine) (events : List Event)
    (respects : ρ.Respects m.environment.host) (next : m.step = .continued m' events) :
    ρ.Respects m'.environment.host :=
  (Machine.continues_of_step next).environment_eq ▸ respects

theorem KeepsCode.loop_machine (keeps : ρ.KeepsCode) (respects : ρ.Respects m.environment.host) :
    Machine.loop fuel (ρ.machine m) =
      (Machine.loop fuel m).map fun result => (result.1, ρ.machine result.2) :=
  loop_of_matches keeps.matches_step respects_of_step respects

theorem KeepsCode.eventsFrom_machine (keeps : ρ.KeepsCode)
    (respects : ρ.Respects m.environment.host) (log : Array Event) :
    Machine.eventsFrom fuel (ρ.machine m) log = Machine.eventsFrom fuel m log := by
  induction fuel generalizing m log with
  | zero => rfl
  | succ fuel ih =>
    rw [Machine.eventsFrom, Machine.eventsFrom, keeps.step_machine respects]
    cases hstep : m.step with
    | continued after events =>
      have henvironment := (Machine.continues_of_step hstep).environment_eq
      exact ih (henvironment ▸ respects) (log ++ events)
    | ended after => rfl
    | failed after error events => rfl

theorem KeepsCode.run_machine (keeps : ρ.KeepsCode) (respects : ρ.Respects m.environment.host) :
    (ρ.machine m).run fuel = (m.run fuel).map fun result => (result.1, ρ.machine result.2) := by
  simp only [Machine.run]
  rw [started_machine]
  cases m.started with
  | false => exact keeps.loop_machine (m := { m with started := true }) respects
  | true => rfl

theorem KeepsCode.trace_machine (keeps : ρ.KeepsCode) (respects : ρ.Respects m.environment.host) :
    (ρ.machine m).trace fuel = m.trace fuel := by
  simp only [Machine.trace]
  rw [started_machine, keeps.code_top, environment_machine, environment, size_pool]
  cases m.started with
  | false => exact keeps.eventsFrom_machine (m := { m with started := true }) respects _
  | true => rfl

/-- The two runs go side by side. -/
theorem KeepsCode.run_past (keeps : ρ.KeepsCode) {start : Machine} {past : List Machine}
    (respects : ρ.Respects start.environment.host) (run : Machine.Run start past m) :
    Machine.Run (ρ.machine start) (past.map ρ.machine) (ρ.machine m) :=
  (run_of_matches keeps.matches_step respects_of_step respects run).2

/-- A program is loaded as the relabelled machine if its main code and its pool are relabelled. -/
theorem load_pool {p : Program} (main : ρ.code ⟨.main, p.code, 0, 0⟩ = p.code) (setup : Setup) :
    Machine.load ⟨p.code, ρ.pool p.constants⟩ setup = ρ.machine (Machine.load p setup) := by
  have hmain : (⟨.main, p.code, 0, 0⟩ : Function) = ρ.function ⟨.main, p.code, 0, 0⟩ := by
    rw [function, main, ρ.identity_main]
  have hglobals : Array.replicate setup.limits.globalsSize Value.null =
      (Array.replicate setup.limits.globalsSize .null).map ρ.value := by
    rw [Array.map_replicate, value_null]
  have hstack : Stack.empty setup.limits.stackSize =
      (Stack.empty setup.limits.stackSize).map ρ.value :=
    (Stack.empty_map ρ.value_null _).symm
  simp only [Machine.load, machine, environment, calls, frame, closure, ← hglobals, ← hstack,
    Frame.enter, ← hmain, ρ.identity_main, Array.map_empty]

theorem KeepsCode.load_eq (keeps : ρ.KeepsCode) {p q : Program} (code : q.code = p.code)
    (constants : ∀ k, q.constants.get? k = (p.constants.get? k).map ρ.value) (setup : Setup) :
    Machine.load q setup = ρ.machine (Machine.load p setup) := by
  have hvalues : q.constants.values = p.constants.values.map ρ.value := by
    apply Array.ext_getElem?
    intro k
    rw [Array.getElem?_map]
    exact constants k
  have hq : q = ⟨p.code, ρ.pool p.constants⟩ := by
    obtain ⟨qcode, ⟨values, given⟩⟩ := q
    cases hvalues
    cases code
    rfl
  rw [hq, load_pool (keeps _)]

/-- What two machines show is the same up to the relabelling, and plain output is the same. -/
structure Identifies (ρ : Relabelling) (m m' : Machine) : Prop where
  stack : m'.stack.toList = m.stack.toList.map ρ.value
  lastPopped : m'.stack.lastPopped? = m.stack.lastPopped?.map ρ.value
  globals : m'.globals = m.globals.map ρ.value
  printed : m'.printed = m.printed.map ρ.value
  plain : ∀ (k : Nat) (v : Value), m.printed[k]? = some v → v.Plain → m'.printed[k]? = some v

theorem identifies_machine (m : Machine) : ρ.Identifies m (ρ.machine m) where
  stack := Stack.toList_map ρ.value m.stack
  lastPopped := Stack.lastPopped?_map ρ.value m.stack
  globals := rfl
  printed := rfl
  plain k v found plain := by
    rw [printed_machine, Array.getElem?_map, found, Option.map_some, ρ.value_of_plain plain]

/-- The machines print the same text, if all of it is settled by the values: no address of an object
stands in it and no hash whose entries can be listed in several orders. More cannot be said of text,
even of two runs of one program. -/
theorem Identifies.printedText_eq {m m' : Machine} (h : ρ.Identifies m m')
    (settled : ∀ v ∈ m.printed, v.hasSettledText = true) :
    printedText m'.printed = printedText m.printed := by
  have texts : m'.printed.map Value.text = m.printed.map Value.text := by
    rw [h.printed, Array.map_map]
    refine Array.map_congr_left fun v hv => congrArg Value.text ?_
    exact ρ.value_of_plain (Value.plain_of_hasSettledText (settled v hv))
  rw [printedText_eq_foldl, texts, ← printedText_eq_foldl]

open Machine in
/-- Under the setup the second program does what the first one does, on relabelled objects. -/
structure Mirrors (ρ : Relabelling) (p q : Program) (setup : Setup) : Prop where
  /-- The same events are reported, such as the instructions with their offsets and depths. -/
  trace_eq : ∀ fuel, (load q setup).trace fuel = (load p setup).trace fuel
  /-- Both runs end alike, or neither of them ends. -/
  outcome_eq : ∀ fuel,
    ((load q setup).run fuel).map Prod.fst = ((load p setup).run fuel).map Prod.fst
  final : ∀ fuel outcome m, (load p setup).run fuel = some (outcome, m) →
    ∃ m', (load q setup).run fuel = some (outcome, m') ∧ ρ.Identifies m m'
  /-- After each number of steps the machines are the same up to the relabelling. -/
  steps : ∀ past m, Run (initial p setup) past m →
    Run (initial q setup) (past.map ρ.machine) (ρ.machine m)
  /-- Closures are relabelled to those that are made at the same step. -/
  makes : ∀ past m c, Run (initial p setup) past m → m.Makes c → (ρ.machine m).Makes (ρ.closure c)

theorem KeepsCode.mirrors (keeps : ρ.KeepsCode) {p q : Program} {setup : Setup}
    (respects : ρ.Respects setup.host) (load : Machine.load q setup = ρ.machine (.load p setup)) :
    ρ.Mirrors p q setup where
  trace_eq fuel := by rw [load, keeps.trace_machine respects]
  outcome_eq fuel := by
    rw [load, keeps.run_machine respects, Option.map_map]
    rfl
  final fuel outcome m h := by
    refine ⟨ρ.machine m, ?_, identifies_machine m⟩
    rw [load, keeps.run_machine respects, h]
    rfl
  steps past m run := by
    have hinitial : Machine.initial q setup = ρ.machine (.initial p setup) :=
      congrArg (fun m : Machine => { m with started := true }) load
    rw [hinitial]
    exact keeps.run_past respects run
  makes past m c run made := keeps.makes_machine (run.environment_eq ▸ respects) made

end Relabelling
end BytecodeMachine

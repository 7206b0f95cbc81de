import BytecodeMachine.Proofs.Decoding.Extended
import BytecodeMachine.Proofs.Objects.Sources
import BytecodeMachine.Proofs.Relabelling.Run

/-!
# Implicit returns

Running off the end of a function is the same as a return of null there. So functions may be given
such a return behind their code, whichever functions these are: step by step the machine goes through
the same states, and the run ends alike. It is only excluded that the run ends at an instruction
without its last operand bytes, because the new byte might complete it.
-/

namespace BytecodeMachine

namespace Relabelling

/-- Gives the chosen functions a return of null behind their code. The main function is none of
them. -/
def returning (chosen : Function → Bool) : Relabelling where
  identity := id
  code f :=
    if f.identity ≠ .main ∧ chosen f then f.code.push Opcode.returnNull.toByte else f.code
  injective _ _ h := h
  identity_main := rfl
  identity_created _ := rfl
  isGiven _ h := h

variable (chosen : Function → Bool)

theorem code_returning_main (c : Code) : (returning chosen).code ⟨.main, c, 0, 0⟩ = c := by
  have hmain : ¬(Identity.main ≠ .main ∧ chosen ⟨.main, c, 0, 0⟩) := fun h => h.1 rfl
  simp only [returning, if_neg hmain]

/-- Only functions other than the main one have new code. -/
theorem code_returning_cases (f : Function) :
    (returning chosen).code f = f.code ∨
      f.identity ≠ .main ∧ (returning chosen).code f = f.code.push Opcode.returnNull.toByte := by
  by_cases h : f.identity ≠ .main ∧ chosen f
  · exact .inr ⟨h.1, if_pos h⟩
  · exact .inl (if_neg h)

end Relabelling

/-- The program with a return of null behind the code of the chosen functions of its pool. -/
def Program.returning (p : Program) (chosen : Function → Bool) : Program :=
  ⟨p.code, (Relabelling.returning chosen).pool p.constants⟩

/-- A frame that is left does not matter any more. -/
theorem Exec.leave_jump {m : Machine} {v : Value} (inner : m.calls.depth ≠ 1) (offset : Nat) :
    leave v (m.jump offset) = leave v m := by
  have hne : m.calls.callers ≠ #[] := fun h => inner (by rw [CallStack.depth, h]; rfl)
  obtain ⟨callers, caller, hcallers⟩ := Array.exists_push_of_ne_empty hne
  have hpop : popFrame m = .ok m.calls.top { m with calls := ⟨callers, caller⟩ } := by
    rw [popFrame, hcallers]
    simp
  have hpop' : popFrame (m.jump offset) =
      .ok (m.jump offset).calls.top { m with calls := ⟨callers, caller⟩ } := by
    have hcallers' : (m.jump offset).calls.callers = callers.push caller := hcallers
    rw [popFrame, hcallers']
    simp [Machine.jump]
  rw [leave, bind_of_ok hpop, bind_of_ok hpop']
  rfl

theorem Exec.execute_returnNull_jump {m : Machine} (inner : m.calls.depth ≠ 1) (offset : Nat) :
    execute ⟨.returnNull, []⟩ (m.jump offset) = execute ⟨.returnNull, []⟩ m := by
  change EStateM.map some (leave .null) _ = EStateM.map some (leave .null) _
  simp only [EStateM.map, leave_jump inner]

namespace Machine

variable {chosen : Function → Bool} {p : Program} {setup : Setup} {m m' : Machine}

/-- The run from the machine does not end at an instruction that is cut off. -/
def EndsWhole (m : Machine) : Prop :=
  ∀ (fuel : Nat) (error : RunError) (m' : Machine) (op : Opcode) (expected available : Nat),
    loop fuel m = some (.error error, m') →
      error.fault ≠ .illegalInstruction (.truncated op expected available)

theorem EndsWhole.of_step {events : List Event} (h : m.EndsWhole)
    (next : m.step = .continued m' events) : m'.EndsWhole := by
  intro fuel error after op expected available hloop
  refine h (fuel + 1) error after op expected available ?_
  rw [loop, next]
  exact hloop

theorem EndsWhole.not_cutOffAt (h : m.EndsWhole) :
    ¬m.calls.top.code.CutOffAt m.calls.top.ip := by
  rintro ⟨inside, op, expected, available, illegal⟩
  have hloop : loop 1 m = some (.error ⟨.illegalInstruction (.truncated op expected available),
      m.calls.top.ip, m.calls.depth⟩, m) := by rw [loop, step_of_illegal illegal]
  exact h 1 _ m op expected available hloop rfl

end Machine

namespace Relabelling

variable {ρ : Relabelling} {chosen : Function → Bool} {m : Machine}

theorem matches_outcome (offset depth : Nat) (events events' : List Event)
    (result : EStateM.Result Fault Machine (Option Event)) :
    ρ.Matches (Machine.transition offset depth events result)
      (Machine.transition offset depth events' (ρ.outcome id result)) := by
  rcases result with ⟨_ | event, m⟩ | ⟨fault, m⟩
  · exact .continued m _ _
  · exact .continued m _ _
  · exact .failed m _ _ _

/-- The added return does what the end of the code does without it. -/
theorem matches_of_return (inner : m.calls.depth ≠ 1)
    (hend : m.calls.top.ip = m.calls.top.code.size)
    (hcode : (ρ.machine m).calls.top.code = m.calls.top.code.push Opcode.returnNull.toByte) :
    ρ.Matches m.step (ρ.machine m).step := by
  have hip : (ρ.machine m).calls.top.ip = m.calls.top.code.size := hend
  have hdepth : (ρ.machine m).calls.depth = m.calls.depth := ρ.depth_calls m.calls
  have found : (ρ.machine m).instruction? = some ⟨.returnNull, []⟩ := by
    have inside : (ρ.machine m).calls.top.ip < (ρ.machine m).calls.top.code.size := by
      rw [hip, hcode, Array.size_push]
      exact Nat.lt_succ_self _
    refine Machine.instruction?_eq inside ?_
    simp only [hcode, hip]
    exact Code.instructionAt_push_returnNull _ _
  have hexecute : Exec.execute ⟨.returnNull, []⟩ ((ρ.machine m).pass ⟨.returnNull, []⟩) =
      ρ.outcome id (Exec.execute ⟨.returnNull, []⟩ m) :=
    (Exec.execute_returnNull_jump (hdepth ▸ inner) _).trans
      (Exec.corresponds_map Exec.corresponds_leave_null some m)
  rw [Machine.step_of_finish (Nat.le_of_eq hend.symm) inner, Machine.step_of_instruction? found,
    hexecute, hdepth, hip, hend]
  exact matches_outcome _ _ _ _ _

theorem matches_returning (respects : (returning chosen).Respects m.environment.host)
    (outermost : m.calls.depth = 1 → m.calls.top.closure.function.identity = .main)
    (whole : ¬m.calls.top.code.CutOffAt m.calls.top.ip) :
    (returning chosen).Matches m.step ((returning chosen).machine m).step := by
  have of_eq (h : ((returning chosen).machine m).step = (returning chosen).transition m.step) :
      (returning chosen).Matches m.step ((returning chosen).machine m).step :=
    h ▸ matches_transition m.step
  -- The code is as it was, or it has one more byte, and then the function is not the main one.
  rcases code_returning_cases chosen m.calls.top.closure.function with
    hsame | ⟨notMain, hpush⟩
  · exact of_eq (step_machine_of_code_eq respects hsame)
  · have hcode : ((returning chosen).machine m).calls.top.code =
        m.calls.top.code.push Opcode.returnNull.toByte := hpush
    have hsize : ((returning chosen).machine m).calls.top.code.size =
        m.calls.top.code.size + 1 := by rw [hcode, Array.size_push]
    rcases Nat.lt_trichotomy m.calls.top.ip m.calls.top.code.size with inside | hend | beyond
    · refine of_eq (step_machine_of_decode respects inside (by omega) ?_)
      simp only [hcode, Array.push_eq_append]
      exact Code.instructionAt_append whole inside _ _
    · exact matches_of_return (fun h => notMain (outermost h)) hend hcode
    · exact of_eq (step_machine_of_end (Nat.le_of_lt beyond) (by omega))

end Relabelling

namespace Machine

/-- The second program goes through the states of the first one, on functions with new code, and
ends alike after as many steps. -/
structure RunsAlong (ρ : Relabelling) (p q : Program) (setup : Setup) : Prop where
  steps : ∀ past m, Run (initial p setup) past m →
    Run (initial q setup) (past.map ρ.machine) (ρ.machine m)
  run_eq : ∀ fuel, (load q setup).run fuel =
    ((load p setup).run fuel).map fun result => (result.1, ρ.machine result.2)

/-- A state of the program from which it does not run into an instruction that is cut off. -/
structure StaysWhole (p : Program) (setup : Setup) (m : Machine) : Prop where
  reachable : Reachable p setup m
  ends : m.EndsWhole

theorem StaysWhole.of_step (m m' : Machine) (events : List Event) (h : StaysWhole p setup m)
    (next : m.step = .continued m' events) : StaysWhole p setup m' := by
  have reachable := h.reachable.stepped
  rw [next] at reachable
  exact ⟨reachable, h.ends.of_step next⟩

theorem StaysWhole.matches_returning {limits : Limits} {builtins : Array Builtin} (m : Machine)
    (h : StaysWhole p ⟨limits, builtins, Host.standard⟩ m) :
    (Relabelling.returning chosen).Matches m.step
      ((Relabelling.returning chosen).machine m).step := by
  have hhost : m.environment.host = Host.standard :=
    congrArg Environment.host h.reachable.fits.environment_eq
  have respects : (Relabelling.returning chosen).Respects m.environment.host :=
    hhost ▸ Relabelling.respects_standard _
  refine Relabelling.matches_returning respects (fun outermost => ?_) h.ends.not_cutOffAt
  rw [h.reachable.closure_of_outermost outermost]
  rfl

/-- Returns behind the code of functions change nothing but this code. -/
theorem runsAlong_of_returning (p : Program) (chosen : Function → Bool) (limits : Limits)
    (builtins : Array Builtin)
    (whole : ∀ (fuel : Nat) (error : RunError) (m : Machine) (op : Opcode)
      (expected available : Nat),
      (load p ⟨limits, builtins, Host.standard⟩).run fuel = some (.error error, m) →
        error.fault ≠ .illegalInstruction (.truncated op expected available)) :
    RunsAlong (.returning chosen) p (p.returning chosen) ⟨limits, builtins, Host.standard⟩ := by
  have hload := Relabelling.load_pool (Relabelling.code_returning_main chosen p.code)
    ⟨limits, builtins, Host.standard⟩
  have hinitial : initial (p.returning chosen) ⟨limits, builtins, Host.standard⟩ =
      (Relabelling.returning chosen).machine (initial p ⟨limits, builtins, Host.standard⟩) :=
    congrArg (fun m : Machine => { m with started := true }) hload
  have start : StaysWhole p ⟨limits, builtins, Host.standard⟩ (initial p _) := ⟨.started, whole⟩
  refine ⟨fun past m run => ?_, fun fuel => ?_⟩
  · rw [hinitial]
    exact (Relabelling.run_of_matches StaysWhole.matches_returning StaysWhole.of_step start run).2
  · change loop fuel (initial (p.returning chosen) _) = (loop fuel (initial p _)).map _
    rw [hinitial]
    exact Relabelling.loop_of_matches StaysWhole.matches_returning StaysWhole.of_step start

/-- A program that calls an empty function, one that jumps to its end and one that jumps beyond. -/
def runOff : Program where
  code := #[27, 0, 0, 0, 21, 0, 2, 27, 0, 1, 0, 21, 0, 2, 27, 0, 2, 0, 21, 0, 2]
  constants :=
    ((Pool.empty.push (.function ⟨.given 0, #[], 0, 0⟩)
      (Value.given_function (Identity.isGiven_given 0))).push
      (.function ⟨.given 1, #[14, 0, 3], 0, 0⟩)
      (Value.given_function (Identity.isGiven_given 1))).push
      (.function ⟨.given 2, #[14, 0, 9], 0, 0⟩) (Value.given_function (Identity.isGiven_given 2))

theorem runsAlong_runOff :
    (∃ m, (load runOff ⟨⟨4, 1, 2⟩, #[], Host.standard⟩).run 15 = some (.ok (), m)) ∧
      RunsAlong (.returning fun _ => true) runOff (runOff.returning fun _ => true)
        ⟨⟨4, 1, 2⟩, #[], Host.standard⟩ := by
  have ended : ∃ m, loop 15 (initial runOff ⟨⟨4, 1, 2⟩, #[], Host.standard⟩) = some (.ok (), m) :=
    ⟨_, rfl⟩
  refine ⟨ended, runsAlong_of_returning runOff _ _ _ ?_⟩
  obtain ⟨m, ended⟩ := ended
  intro fuel error m' op expected available failed
  have hfailed := loop_add failed 15
  rw [Nat.add_comm] at hfailed
  cases (loop_add ended fuel).symm.trans hfailed

end Machine
end BytecodeMachine

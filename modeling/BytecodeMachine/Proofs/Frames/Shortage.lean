import BytecodeMachine.Proofs.Execution.Demands
import BytecodeMachine.Proofs.Frames.Layout

/-!
# Missing operands and missing room

A step fails for want of operands exactly if the running frame has fewer than its instruction takes,
and what that looks up before is there. It fails for want of room exactly if it puts a value on a
full stack or enters a frame whose slots the stack cannot hold.
-/

namespace BytecodeMachine

/-- Without taking anything from the stack, the instruction puts a value on it. -/
def Instruction.OnlyPushes (i : Instruction) : Prop :=
  i.numOperands = 0 ∧ i.opcode ≠ .jump ∧ i.opcode ≠ .returnNull

namespace Machine

variable {m : Machine} {i : Instruction}

theorem overfills_pass {n : Nat} : (m.pass i).Overfills n ↔ m.Overfills n := by
  constructor
  · rintro ⟨below, args, c, supplies, rest⟩
    exact ⟨below, args, c, ⟨supplies.split, supplies.enough⟩, rest⟩
  · rintro ⟨below, args, c, supplies, rest⟩
    exact ⟨below, args, c, ⟨supplies.split, supplies.enough⟩, rest⟩

/-- The next step fails with the fault. -/
def FailsWith (m : Machine) (fault : Fault) : Prop :=
  ∃ m' error events, m.step = .failed m' error events ∧ error.fault = fault

theorem failsWith_iff {fault : Fault} (found : m.instruction? = some i) :
    m.FailsWith fault ↔ Exec.Throws (Exec.execute i) (m.pass i) fault := by
  constructor
  · rintro ⟨m', error, events, failed, rfl⟩
    cases fails_of_step failed with
    | decode inside illegal =>
      rw [instruction?, dif_pos inside, illegal] at found
      cases found
    | dispatch other thrown =>
      obtain rfl := Option.some.inj (found.symm.trans other)
      exact ⟨m', thrown⟩
    | finish beyond =>
      rw [instruction?_eq_none beyond] at found
      cases found
  · rintro ⟨m', thrown⟩
    refine ⟨m', ⟨fault, m.calls.top.ip, m.calls.depth⟩,
      [.dispatched m.calls.top.ip m.calls.depth i], ?_, rfl⟩
    rw [step_of_instruction? found, thrown]
    rfl

/-- The step that dispatches the instruction fails for want of operands or of room exactly when it
is short of them. -/
structure BlamesStack (m : Machine) (i : Instruction) : Prop where
  underflow : m.FailsWith .stackUnderflow ↔
    m.stack.size - m.floor < i.numOperands ∧ m.Finds i
  overflow : ∀ capacity, m.FailsWith (.stackOverflow capacity) ↔ capacity = m.stack.capacity ∧
    (i.OnlyPushes ∧ m.Finds i ∧ m.stack.size = m.stack.capacity ∨
      i.opcode = .call ∧ m.Overfills (i.operand 0))

theorem blamesStack_of_reachable (p : Program) (setup : Setup) (m : Machine) (i : Instruction)
    (sized : HoldsSized p setup) (allocatable : setup.limits.Allocatable)
    (reachable : Reachable p setup m) (found : m.instruction? = some i) : m.BlamesStack i := by
  by_cases hop : i.opcode = .call
  · have hcall {fault : Fault} :
        m.FailsWith fault ↔ Exec.Throws (Exec.call (i.operand 0)) (m.pass i) fault := by
      rw [failsWith_iff found, Exec.execute, hop]
      exact exists_congr fun m' => Exec.map_eq_error
    have hnum : i.numOperands = i.operand 0 + 1 := by rw [Instruction.numOperands, hop]
    have hfinds : m.Finds i := by
      rw [Finds, hop]
      trivial
    constructor
    · rw [hcall, Exec.throws_call_underflow_iff, hnum]
      exact (and_iff_left hfinds).symm
    · intro capacity
      have noWrap (c : Closure Value) (hc : .closure c ∈ (m.pass i).stack.toList) (base : Nat)
          (hbase : base ≤ (m.pass i).stack.size) : (Frame.enter c base).NoWrap :=
        reachable.noWrap_enter sized allocatable hc hbase
      rw [hcall, Exec.throws_call_overflow_iff noWrap, overfills_pass]
      have hpushes : ¬i.OnlyPushes := fun h => Nat.succ_ne_zero _ (hnum.symm.trans h.1)
      simp only [hpushes, hop, false_and, false_or, true_and]
      rfl
  · have sound := reachable.sound (neverWraps_of_holdsSized sized allocatable)
    have passed : (m.pass i).Sound := sound.jump _
    have returns : (m.pass i).Returns := (reachable.fits.framesRooted.jump _).returns
    have demands := Exec.demands_execute passed.noWrap.top passed.floor_le returns hop
    constructor
    · rw [failsWith_iff found]
      exact demands.underflow
    · intro capacity
      rw [failsWith_iff found]
      have overflow := demands.overflow capacity
      simp only [hop, false_and, or_false]
      exact overflow

/-- A program that calls a function with one local slot, which pops an operand. -/
def popInside : Program where
  code := #[27, 0, 0, 0, 21, 0]
  constants := Pool.empty.push (.function ⟨.given 0, #[2], 1, 0⟩)
    (Value.given_function (Identity.isGiven_given 0))

theorem holdsSized_popInside (limits : Limits) : HoldsSized popInside { limits := limits } := by
  refine holdsSized_of_sized ⟨by decide, fun v hv f inside => ?_⟩ Host.standard_conserves
  obtain rfl : v = .function _ := List.mem_singleton.mp hv.val
  cases inside
  exact ⟨by decide, by decide, by decide⟩

/-- The frame can be entered if there are two slots, but then it has no operand. -/
theorem blamesStack_popInside :
    HoldsSized popInside { limits := ⟨1, 1, 2⟩ } ∧ HoldsSized popInside { limits := ⟨2, 1, 2⟩ } ∧
    (∃ m, Reachable popInside { limits := ⟨1, 1, 2⟩ } m ∧ m.instruction? = some ⟨.call, [0]⟩ ∧
      m.BlamesStack ⟨.call, [0]⟩ ∧ m.FailsWith (.stackOverflow 1)) ∧
    ∃ m, Reachable popInside { limits := ⟨2, 1, 2⟩ } m ∧ m.instruction? = some ⟨.pop, []⟩ ∧
      m.BlamesStack ⟨.pop, []⟩ ∧ m.FailsWith .stackUnderflow := by
  have small : Reachable popInside { limits := ⟨1, 1, 2⟩ } _ := .started
  have large : Reachable popInside { limits := ⟨2, 1, 2⟩ } _ := .started
  have sized := holdsSized_popInside
  refine ⟨sized _, sized _, ⟨_, small.stepped, rfl, ?_, _, _, _, rfl, rfl⟩,
    _, large.stepped.stepped, rfl, ?_, _, _, _, rfl, rfl⟩
  · exact blamesStack_of_reachable _ _ _ _ (sized _) (by decide) small.stepped rfl
  · exact blamesStack_of_reachable _ _ _ _ (sized _) (by decide) large.stepped.stepped rfl

end Machine
end BytecodeMachine

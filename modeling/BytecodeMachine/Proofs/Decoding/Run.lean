import BytecodeMachine.Proofs.Decoding.Items
import BytecodeMachine.Proofs.Execution.Faults
import BytecodeMachine.Proofs.Execution.Log
import BytecodeMachine.Proofs.Objects.Origin

/-!
# Runs of well-formed programs

If all code of a program is well-formed, its runs decode the instructions that are listed. Every
frame goes on at a boundary, also one that is suspended, and no run comes upon illegal bytes.
-/

namespace BytecodeMachine

/-- The main code and all functions that occur in the pool are well-formed. -/
structure Program.WellFormed (p : Program) : Prop where
  main : p.code.WellFormed
  functions : ∀ v ∈ p.constants.values, ∀ f : Function, (Value.function f).Occurs v →
    f.code.WellFormed

namespace Machine

variable {m m' : Machine} {i : Instruction} {f : Frame} {p : Program} {setup : Setup}

/-- All code in the machine is well-formed. -/
def HoldsWellFormed (m : Machine) : Prop :=
  ∀ f : Function, m.Holds (.function f) → f.code.WellFormed

theorem HoldsWellFormed.frame (h : m.HoldsWellFormed) (hf : f ∈ m.calls.frames) :
    f.code.WellFormed := h _ (.frame hf (.code .here))

theorem HoldsWellFormed.top (h : m.HoldsWellFormed) : m.calls.top.code.WellFormed :=
  h.frame m.calls.top_mem_frames

theorem HoldsWellFormed.slot {c : Closure Value} (h : m.HoldsWellFormed)
    (hc : .closure c ∈ m.stack.slots) : c.function.code.WellFormed := h _ (.slot hc (.code .here))

theorem Reachable.holdsWellFormed (h : Reachable p setup m) (conserves : setup.host.Conserves)
    (wellFormed : p.WellFormed) : m.HoldsWellFormed := by
  intro f holds
  rcases h.function_origin conserves holds with rfl | ⟨v, member, inside⟩
  · exact wellFormed.main
  · exact wellFormed.functions v member f inside

/-- Every frame goes on at a boundary of its code. -/
def AtBoundaries (m : Machine) : Prop := ∀ f ∈ m.calls.frames, f.code.IsBoundary f.ip

namespace AtBoundaries

theorem top (h : m.AtBoundaries) : m.calls.top.code.IsBoundary m.calls.top.ip :=
  h _ m.calls.top_mem_frames

theorem listed (h : m.AtBoundaries) (wellFormed : m.HoldsWellFormed)
    (found : m.instruction? = some i) :
    .ok ⟨m.calls.top.ip, i⟩ ∈ m.calls.top.code.items ∧
      m.calls.top.code.IsBoundary (m.calls.top.ip + i.length) := by
  obtain ⟨inside, decoded⟩ := exists_of_instruction? found
  exact wellFormed.top.of_boundary h.top decoded

/-- Behind an instruction of the listing there is another boundary. -/
theorem pass (h : m.AtBoundaries) (wellFormed : m.HoldsWellFormed)
    (found : m.instruction? = some i) : (m.pass i).AtBoundaries := by
  intro f hf
  rcases mem_frames_jump hf with hf | rfl
  · exact h f hf
  · exact (h.listed wellFormed found).2

theorem lowers (h : m.AtBoundaries) (hlowers : m.Lowers m') : m'.AtBoundaries := by
  obtain ⟨n, -, rfl⟩ := hlowers
  exact h

theorem effect {event : Option Event} (h : m.AtBoundaries) (effect : Effect m i event m')
    (wellFormed : m.HoldsWellFormed)
    (jumps : i.opcode.isJump = true → m.calls.top.code.IsBoundary (i.operand 0)) :
    m'.AtBoundaries := by
  intro f hf
  rcases effect.mem_frames hf with hf | ⟨hop, rfl⟩ | ⟨start, hslot⟩
  · exact h f hf
  · exact jumps hop
  · rw [start]
    exact (wellFormed.slot hslot).isBoundary_zero

theorem step (h : m.AtBoundaries) (wellFormed : m.HoldsWellFormed) (returns : m.Returns) :
    m.step.machine.AtBoundaries := by
  cases hstep : m.step with
  | continued after events =>
    cases continues_of_step hstep with
    | dispatch found effect =>
      have listed := (h.listed wellFormed found).1
      exact (h.pass wellFormed found).effect effect (fun f holds => wellFormed f holds.of_jump)
        (wellFormed.top.jumps _ _ listed)
    | finish beyond inner effect => exact h.effect effect wellFormed nofun
  | ended after =>
    obtain rfl := eq_of_step_ended hstep
    exact h
  | failed after error events =>
    cases fails_of_step hstep with
    | decode => exact h
    | dispatch found thrown =>
      exact (h.pass wellFormed found).lowers
        (Exec.lowers_of_execute_error (by exact returns) thrown)
    | finish beyond inner thrown =>
      exact h.lowers (Exec.lowers_of_execute_error returns thrown)

end AtBoundaries

theorem Reachable.atBoundaries (h : Reachable p setup m) (conserves : setup.host.Conserves)
    (wellFormed : p.WellFormed) : m.AtBoundaries := by
  have main : ∀ f ∈ (load p setup).calls.frames, f.code.IsBoundary f.ip := by
    intro f hf
    obtain rfl := List.mem_singleton.mp hf
    exact wellFormed.main.isBoundary_zero
  induction h with
  | loaded => exact main
  | started => exact main
  | stepped h ih =>
    exact ih.step (h.holdsWellFormed conserves wellFormed) h.fits.framesRooted.returns

/-- A failing step decoded an instruction if it is at a boundary of well-formed code. -/
theorem Fails.ofInstruction {error : RunError} {events : List Event} (h : m.Fails error events m')
    (wellFormed : m.HoldsWellFormed) (boundaries : m.AtBoundaries) :
    error.fault.ofInstruction = true := by
  cases h with
  | decode inside illegal =>
    obtain ⟨i, decoded, -⟩ := wellFormed.top.instructionAt (boundaries.top.visits inside) inside
    cases illegal.symm.trans decoded
  | dispatch found thrown => exact Exec.failsProperly_execute _ _ _ _ thrown
  | finish beyond inner thrown => exact Exec.failsProperly_execute _ _ _ _ thrown

end Machine

namespace Program

variable {p : Program} {setup : Setup}

open Machine in
/-- Under the setup the program runs the way its code is listed. -/
structure RunsAsListed (p : Program) (setup : Setup) : Prop where
  /-- Every dispatched instruction is listed at its offset of the running code. -/
  dispatched : ∀ m, Reachable p setup m → ∀ offset depth i,
    .dispatched offset depth i ∈ m.step.events → .ok ⟨offset, i⟩ ∈ m.calls.top.code.items
  boundaries : ∀ m, Reachable p setup m → ∀ f ∈ m.calls.frames, f.code.IsBoundary f.ip
  legal : ∀ fuel error m, (load p setup).run fuel = some (.error error, m) →
    ∀ e, error.fault ≠ .illegalInstruction e

/-- The host may be any that makes up no functions. -/
theorem WellFormed.runsAsListed (wellFormed : p.WellFormed) (conserves : setup.host.Conserves) :
    p.RunsAsListed setup where
  dispatched m reachable offset depth i hi := by
    obtain ⟨rfl, -, found⟩ := Machine.dispatched_of_step hi
    exact ((reachable.atBoundaries conserves wellFormed).listed
      (reachable.holdsWellFormed conserves wellFormed) found).1
  boundaries m reachable := reachable.atBoundaries conserves wellFormed
  legal fuel error m ends e heq := by
    have hloop : Machine.loop fuel (.initial p setup) = some (.error error, m) := ends
    obtain ⟨s, reachable, ⟨failed, -⟩ | ⟨_, events, ⟨⟩, hstep⟩⟩ :=
      Machine.Reachable.started.exists_last_of_loop hloop
    · cases failed
    · have holdsWellFormed := reachable.holdsWellFormed conserves wellFormed
      have boundaries := reachable.atBoundaries conserves wellFormed
      have proper := (Machine.fails_of_step hstep).ofInstruction holdsWellFormed boundaries
      rw [heq] at proper
      cases proper

/-- Listing and running decode a well-formed program in the same way. -/
theorem runsAsListed_of_wellFormed (p : Program) (wellFormed : p.WellFormed) (limits : Limits)
    (builtins : Array Builtin) : p.RunsAsListed ⟨limits, builtins, Host.standard⟩ :=
  wellFormed.runsAsListed Host.standard_conserves

/-- A function that jumps to its last instruction. -/
def jumper : Function := ⟨.given 0, #[15, 14, 0, 4, 22], 0, 0⟩

/-- A program that calls the function unless it jumps to the end of its code. -/
def branchOnce : Program where
  code := #[6, 13, 0, 11, 27, 0, 0, 0, 21, 0, 2]
  constants := Pool.empty.push (.function jumper)
    (Value.given_function (Identity.isGiven_given 0))

private theorem items_branchOnce : branchOnce.code.items =
    #[.ok ⟨0, .pushTrue, []⟩, .ok ⟨1, .jumpNotTruthy, [11]⟩, .ok ⟨4, .closure, [0, 0]⟩,
      .ok ⟨8, .call, [0]⟩, .ok ⟨10, .pop, []⟩] := by
  rw [Code.items, Code.itemsFrom_of_next?_some (by rfl), Code.itemsFrom_of_next?_some (by rfl),
    Code.itemsFrom_of_next?_some (by rfl), Code.itemsFrom_of_next?_some (by rfl),
    Code.itemsFrom_of_next?_some (by rfl), Code.itemsFrom_of_next?_none (by rfl)]
  rfl

private theorem items_jumper : jumper.code.items =
    #[.ok ⟨0, .pushNull, []⟩, .ok ⟨1, .jump, [4]⟩, .ok ⟨4, .returnValue, []⟩] := by
  rw [Code.items, Code.itemsFrom_of_next?_some (by rfl), Code.itemsFrom_of_next?_some (by rfl),
    Code.itemsFrom_of_next?_some (by rfl), Code.itemsFrom_of_next?_none (by rfl)]
  rfl

theorem wellFormed_branchOnce : branchOnce.WellFormed where
  main := by
    constructor
    · simp [items_branchOnce]
    · intro offset i member jumps
      rw [items_branchOnce] at member
      simp only [List.mem_toArray, List.mem_cons, Except.ok.injEq, Placed.mk.injEq,
        List.not_mem_nil, or_false] at member
      rcases member with ⟨rfl, rfl⟩ | ⟨rfl, rfl⟩ | ⟨rfl, rfl⟩ | ⟨rfl, rfl⟩ | ⟨rfl, rfl⟩
      case inr.inl => exact .inr (Nat.le_refl 11)
      all_goals cases jumps
  functions v member f inside := by
    obtain rfl : v = .function jumper := by
      simpa [branchOnce, Pool.push, Pool.empty] using member
    cases inside
    constructor
    · simp [items_jumper]
    · intro offset i member jumps
      rw [items_jumper] at member
      simp only [List.mem_toArray, List.mem_cons, Except.ok.injEq, Placed.mk.injEq,
        List.not_mem_nil, or_false] at member
      rcases member with ⟨rfl, rfl⟩ | ⟨rfl, rfl⟩ | ⟨rfl, rfl⟩
      case inr.inl =>
        have target : .ok ⟨4, .returnValue, []⟩ ∈ jumper.code.items := by simp [items_jumper]
        exact .inl ⟨_, target⟩
      all_goals cases jumps

theorem runsAsListed_branchOnce :
    branchOnce.WellFormed ∧
      branchOnce.RunsAsListed ⟨{ stackSize := 4, maxFrames := 2 }, Builtin.standard, .standard⟩ :=
  ⟨wellFormed_branchOnce, runsAsListed_of_wellFormed _ wellFormed_branchOnce _ _⟩

end Program
end BytecodeMachine

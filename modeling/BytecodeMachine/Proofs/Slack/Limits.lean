import BytecodeMachine.Proofs.Frames.Rooted
import BytecodeMachine.Proofs.Slack.Run

/-!
# Raised limits

A run that exceeds no bound stays as it is if limits are raised or if constants and builtins are
appended to the tables. Errors do not tell the larger sizes either.
-/

namespace BytecodeMachine

/-- The second program and setup have limits that are at least as high, and constants and builtins
appended to the tables of the first ones. -/
structure Widens (p : Program) (setup : Setup) (q : Program) (wide : Setup) : Prop where
  code_eq : q.code = p.code
  constants_eq : ∃ appended, q.constants.values = p.constants.values ++ appended
  builtins_eq : ∃ appended, wide.builtins = setup.builtins ++ appended
  host_eq : wide.host = setup.host
  stackSize_le : setup.limits.stackSize ≤ wide.limits.stackSize
  globalsSize_le : setup.limits.globalsSize ≤ wide.limits.globalsSize
  maxFrames_le : setup.limits.maxFrames ≤ wide.limits.maxFrames

namespace Slack

/-- Nothing may differ but the sizes of tables and the limits. -/
def onlyWider : Slack := ⟨True, False⟩

theorem Extends.append {α : Type} (as bs : Array α) : onlyWider.Extends as (as ++ bs) where
  getElem?_eq k a found := by
    rw [Array.getElem?_append_left (Array.getElem?_eq_some_iff.mp found).1, found]
  eq hwider := absurd trivial hwider

theorem getD_replicate (n k : Nat) : (Array.replicate n Value.null)[k]?.getD .null = .null := by
  rw [Array.getElem?_replicate]
  by_cases hk : k < n
  · rw [if_pos hk, Option.getD_some]
  · rw [if_neg hk, Option.getD_none]

theorem Pads.replicate {m n : Nat} (hle : m ≤ n) (counts : Nat → Prop) :
    onlyWider.Pads counts (.replicate m .null) (.replicate n .null) where
  size_le := by rwa [Array.size_replicate, Array.size_replicate]
  size_eq hwider := absurd trivial hwider
  getD_eq k hk := by rw [getD_replicate, getD_replicate]

/-- The longer array goes on with nulls. -/
theorem Pads.eq_append {slack : Slack} {vs ws : Array Value}
    (h : slack.Pads (fun _ => True) vs ws) :
    ws = vs ++ Array.replicate (ws.size - vs.size) .null := by
  have hle := h.size_le
  apply Array.ext_getElem?
  intro k
  rcases Nat.lt_or_ge k vs.size with hk | hk
  · rw [Array.getElem?_append_left hk, h.getElem?_eq trivial hk]
  · rw [Array.getElem?_append_right hk, Array.getElem?_replicate]
    have heq := h.getD_eq k trivial
    rw [Array.getElem?_eq_none hk] at heq
    by_cases hk' : k < ws.size
    · rw [if_pos (by omega), Array.getElem?_eq_getElem hk']
      rw [Array.getElem?_eq_getElem hk'] at heq
      exact congrArg some heq
    · rw [if_neg (by omega), Array.getElem?_eq_none (by omega)]

end Slack

namespace Widens

variable {p q : Program} {setup wide : Setup} {m : Machine} {fuel : Nat} {outcome : Machine.Outcome}

theorem machines_initial (h : Widens p setup q wide) :
    Slack.onlyWider.Machines (.initial p setup) (.initial q wide) := by
  obtain ⟨constants, hconstants⟩ := h.constants_eq
  obtain ⟨builtins, hbuiltins⟩ := h.builtins_eq
  refine ⟨⟨h.host_eq, ?_, ?_, h.maxFrames_le, absurd trivial⟩, .replicate h.globalsSize_le _,
    ⟨rfl, .replicate h.stackSize_le _⟩, ?_, rfl, rfl, rfl⟩
  · change Slack.onlyWider.Extends p.constants.values q.constants.values
    exact hconstants ▸ .append _ constants
  · change Slack.onlyWider.Extends setup.builtins wide.builtins
    exact hbuiltins ▸ .append _ builtins
  · simp only [Machine.initial, Machine.load, h.code_eq]

/-- What the two runs show is the same, beside the first event, which tells the sizes. -/
structure Repeats (p : Program) (setup : Setup) (q : Program) (wide : Setup) (fuel : Nat)
    (m m' : Machine) : Prop where
  /-- The same instructions are dispatched at the same offsets and depths, and the last event is
  the same. -/
  trace : ∃ events,
    (Machine.load p setup).trace fuel = #[.started p.code.size p.constants.size] ++ events ∧
    (Machine.load q wide).trace fuel = #[.started q.code.size q.constants.size] ++ events
  stack : m'.stack.toList = m.stack.toList
  printed : m'.printed = m.printed
  /-- If the first stack is full, the slot above it is one that the second run never wrote to. -/
  result : m'.result = m.result
  globals : m'.globals =
    m.globals ++ .replicate (wide.limits.globalsSize - setup.limits.globalsSize) .null

theorem repeats_of_run (widens : Widens p setup q wide)
    (ends : (Machine.load p setup).run fuel = some (outcome, m))
    (within : ∀ error, outcome = .error error → error.fault.exceedsBound = false) :
    ∃ m', (Machine.load q wide).run fuel = some (outcome, m') ∧
      Repeats p setup q wide fuel m m' := by
  have hloop : Machine.loop fuel (.initial p setup) = some (outcome, m) := ends
  have keeps : Slack.onlyWider.Keeps (some (outcome, m)) := by
    rintro - error after ⟨⟩
    exact within error rfl
  have machines_initial := widens.machines_initial
  obtain ⟨m', hloop', machines⟩ := machines_initial.exists_loop_eq_some hloop keeps
  refine ⟨m', hloop', ⟨_, Machine.eventsFrom_eq_append _ _ _, ?_⟩, machines.stack.toList_eq,
    machines.printed_eq, machines.stack.lastPopped_eq id, ?_⟩
  · have hevents := machines_initial.eventsFrom_eq (hloop ▸ keeps) #[]
    exact (Machine.eventsFrom_eq_append _ _ _).trans (congrArg _ hevents)
  · have reachable : Machine.Reachable p setup m := .of_result ends
    have reachable' : Machine.Reachable q wide m' := .of_result hloop'
    rw [← reachable.fits.numGlobals_eq, ← reachable'.fits.numGlobals_eq]
    exact machines.globals.eq_append

/-- A program that assigns a global and leaves a value on the stack. -/
def assignOnce (constants : Pool) : Program := ⟨#[6, 17, 0, 0, 6], constants⟩

theorem widens_assignOnce :
    Widens (assignOnce .empty) { limits := ⟨1, 1, 1⟩ }
      (assignOnce (Pool.empty.push (.integer 7) (Value.given_integer 7)))
      { limits := ⟨5, 3, 2⟩, builtins := Builtin.standard ++ #[⟨"head", "first"⟩] } where
  code_eq := rfl
  constants_eq := ⟨#[.integer 7], rfl⟩
  builtins_eq := ⟨#[⟨"head", "first"⟩], rfl⟩
  host_eq := rfl
  stackSize_le := by decide
  globalsSize_le := by decide
  maxFrames_le := by decide

/-- The run fills its stack and ends. -/
theorem repeats_of_run_assignOnce :
    ∃ m m', (Machine.load (assignOnce .empty) { limits := ⟨1, 1, 1⟩ }).run 4 = some (.ok (), m) ∧
      m.stack.size = m.stack.capacity ∧
      (Machine.load (assignOnce (Pool.empty.push (.integer 7) (Value.given_integer 7)))
        { limits := ⟨5, 3, 2⟩, builtins := Builtin.standard ++ #[⟨"head", "first"⟩] }).run 4 =
          some (.ok (), m') ∧ m'.result = .null ∧ m'.globals = #[.boolean true, .null, .null] := by
  have ends : (Machine.load (assignOnce .empty) { limits := ⟨1, 1, 1⟩ }).run 4 =
    some (.ok (), ((Machine.initial (assignOnce .empty)
      { limits := ⟨1, 1, 1⟩ }).step.machine.step.machine.step.machine)) := by rfl
  have within (error : RunError) (failed : (.ok () : Machine.Outcome) = .error error) :
      error.fault.exceedsBound = false := nomatch failed
  obtain ⟨m', ends', repeats⟩ := repeats_of_run widens_assignOnce ends within
  exact ⟨_, m', ends, by rfl, ends', repeats.result, repeats.globals⟩

end Widens
end BytecodeMachine

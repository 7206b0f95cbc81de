import BytecodeMachine.Proofs.Frames.Layout
import BytecodeMachine.Proofs.Slack.Run
import Mathlib.Data.List.Forall2

/-!
# Stale slots

What lies in the slots above the live ones has no part in a run. Only the value popped last is read
there, and behind a pop it is the same on machines that have the same live values. Behind returns of
null that follow the pop it still is, as long as no end of a frame wraps.
-/

namespace BytecodeMachine

namespace Stack

variable {α : Type} {s s' : Stack α} {k : Nat}

theorem size_eq_of_toList_eq (h : s'.toList = s.toList) : s'.size = s.size := by
  rw [← length_toList, h, length_toList]

theorem lastPopped?_push (a : α) (h : s.HasRoom) :
    (s.push a h).lastPopped? = s.slots[s.size + 1]? := by
  have hne : s.size ≠ s.size + 1 := by omega
  exact Array.getElem?_set_ne h hne

/-- Stacks with the same live values that popped the same value last agree one slot further. -/
theorem getElem?_slots_eq (live : s'.toList = s.toList) (last : s'.lastPopped? = s.lastPopped?)
    (hk : k ≤ s.size) : s'.slots[k]? = s.slots[k]? := by
  have hsize := size_eq_of_toList_eq live
  rcases Nat.lt_or_eq_of_le hk with hlt | rfl
  · rw [getElem?_slots_of_lt hlt, getElem?_slots_of_lt (hsize ▸ hlt), live]
  · rwa [lastPopped?, lastPopped?, hsize] at last

end Stack

namespace Effect

variable {m m' : Machine} {i : Instruction} {event : Option Event}

theorem lastPopped?_of_pop (h : Effect m i event m') (hop : i.opcode = .pop) :
    m'.stack.lastPopped? = m.stack.top? := by
  cases h with
  | discard op supplies =>
    have henough := supplies.enough
    rw [List.length_singleton] at henough
    exact Stack.lastPopped?_drop_one (by omega)
  | compute supplies value room =>
    have hyields := value.yields
    rw [hop] at hyields
    cases hyields
  | jump op | pass op | branch op | assignGlobal op | assignLocal op | create op | native op
  | enter op => cases op.symm.trans hop
  | leave op => rcases op with ⟨op, -⟩ | ⟨op, -⟩ <;> cases op.symm.trans hop

/-- Behind a return of null the lowest slot of the frame that was left is the one above the live
ones. -/
theorem lastPopped?_of_returnNull (h : Effect m i event m') (hop : i.opcode = .returnNull)
    (sound : m.Sound) :
    m.calls.top.base ≤ m.stack.size ∧
      m'.stack.lastPopped? = m.stack.slots[m.calls.top.base]? := by
  have hbase : m.calls.top.base ≤ m.stack.size :=
    Nat.le_trans sound.base_le_floor sound.floor_le
  refine ⟨hbase, ?_⟩
  cases h with
  | leave op supplies resumed room =>
    rcases op with ⟨-, rfl, -⟩ | ⟨op, -⟩
    · have hpos := sound.stacked.rooted.base_of_callers_ne (by simp [resumed])
      have hsize : min (m.stack.drop 0).size (m.calls.top.base - 1) + 1 = m.calls.top.base := by
        rw [Stack.drop_zero]
        omega
      exact (Stack.lastPopped?_push _ room).trans (congrArg (m.stack.slots[·]?) hsize)
    · cases op.symm.trans hop
  | compute supplies value room =>
    have hyields := value.yields
    rw [hop] at hyields
    cases hyields
  | discard op | jump op | pass op | branch op | assignGlobal op | assignLocal op | create op
  | native op | enter op => cases op.symm.trans hop

end Effect

namespace Machine

/-- The machines are the same but for the values of slots that are not live. -/
structure Agrees (m m' : Machine) : Prop where
  environment_eq : m'.environment = m.environment
  globals_eq : m'.globals = m.globals
  capacity_eq : m'.stack.capacity = m.stack.capacity
  live_eq : m'.stack.toList = m.stack.toList
  calls_eq : m'.calls = m.calls
  numCreated_eq : m'.numCreated = m.numCreated
  printed_eq : m'.printed = m.printed
  started_eq : m'.started = m.started

end Machine

namespace Slack

/-- Nothing may differ but the slots that are not live. -/
def onlyStale : Slack := ⟨False, True⟩

variable {slack : Slack}

theorem Extends.refl {α : Type} (as : Array α) : slack.Extends as as :=
  ⟨fun _ _ found => found, fun _ => rfl⟩

theorem Pads.refl (counts : Nat → Prop) (vs : Array Value) : slack.Pads counts vs vs :=
  ⟨Nat.le_refl _, fun _ => rfl, fun _ _ => rfl⟩

theorem Environments.refl (e : Environment) : slack.Environments e e :=
  ⟨rfl, .refl _, .refl _, Nat.le_refl _, fun _ => rfl⟩

theorem Environments.eq {e e' : Environment} (h : slack.Environments e e')
    (hwider : ¬slack.wider) : e' = e := by
  obtain ⟨⟨values, given⟩, builtins, host, maxFrames⟩ := e
  obtain ⟨⟨values', given'⟩, builtins', host', maxFrames'⟩ := e'
  obtain rfl : host' = host := h.host_eq
  obtain rfl : values' = values := h.constants.eq hwider
  obtain rfl : builtins' = builtins := h.builtins.eq hwider
  obtain rfl : maxFrames' = maxFrames := h.maxFrames_eq hwider
  rfl

theorem Pads.eq {vs ws : Array Value} (h : slack.Pads (fun _ => True) vs ws)
    (hwider : ¬slack.wider) : ws = vs := by
  have hsize := h.size_eq hwider
  refine Array.ext hsize fun k hk hk' => ?_
  have hget := h.getElem?_eq (k := k) trivial hk'
  rwa [Array.getElem?_eq_getElem hk, Array.getElem?_eq_getElem hk', Option.some_inj] at hget

theorem machines_onlyStale {m m' : Machine} : onlyStale.Machines m m' ↔ m.Agrees m' := by
  constructor
  · intro h
    exact ⟨h.environment.eq id, h.globals.eq id, h.stack.capacity_eq id, h.stack.toList_eq,
      h.calls_eq, h.numCreated_eq, h.printed_eq, h.started_eq⟩
  · intro h
    have hsize := Stack.size_eq_of_toList_eq h.live_eq
    refine ⟨h.environment_eq ▸ .refl _, h.globals_eq ▸ .refl _ _, ⟨hsize, ?_⟩, h.calls_eq,
      h.numCreated_eq, h.printed_eq, h.started_eq⟩
    refine ⟨Nat.le_of_eq h.capacity_eq.symm, fun _ => h.capacity_eq, fun k hk => ?_⟩
    have hlt : k < m.stack.size := hk.resolve_right fun hstale => hstale trivial
    rw [Stack.getElem?_slots_of_lt hlt, Stack.getElem?_slots_of_lt (hsize ▸ hlt), h.live_eq]

end Slack

namespace Machine

variable {m m' s s' n n' : Machine} {past : List Machine} {events : List Event}

/-- The last step dispatched a pop. -/
def JustPopped (past : List Machine) : Prop := past.head?.bind instruction? = some ⟨.pop, []⟩

/-- A pop was the last instruction that was dispatched. Returns of null at the end of code may have
followed it. -/
def LastPops (past : List Machine) : Prop := past.findSome? instruction? = some ⟨.pop, []⟩

theorem Agrees.instruction?_eq (h : s.Agrees s') : s'.instruction? = s.instruction? := by
  simp only [instruction?, h.calls_eq]

theorem Continues.effect_of_some {i : Instruction} (h : s.Continues events n)
    (found : s.instruction? = some i) : ∃ event, Effect (s.pass i) i event n := by
  cases h with
  | dispatch found' effect =>
    obtain rfl := Option.some.inj (found'.symm.trans found)
    exact ⟨_, effect⟩
  | finish beyond inner effect => cases (instruction?_eq_none beyond).symm.trans found

theorem Continues.effect_of_none (h : s.Continues events n) (missing : s.instruction? = none) :
    ∃ event, Effect s ⟨.returnNull, []⟩ event n := by
  cases h with
  | dispatch found effect => cases found.symm.trans missing
  | finish beyond inner effect => exact ⟨_, effect⟩

theorem Agrees.sound (h : m.Agrees m') (sound : m.Sound) : m'.Sound := by
  refine ⟨⟨?_, ?_, ?_⟩, ?_⟩
  · rw [h.live_eq, h.calls_eq]
    exact sound.stacked
  · rw [floor, h.calls_eq, Stack.size_eq_of_toList_eq h.live_eq]
    exact sound.floor_le
  · rw [h.calls_eq, h.environment_eq]
    exact sound.depth_le
  · rw [NoWrap, h.calls_eq]
    exact sound.noWrap

/-- The value popped last is the same behind a pop. -/
theorem Agrees.lastPopped?_of_pop (h : s.Agrees s') (next : s.Continues events n)
    (next' : s'.Continues events n') (found : s.instruction? = some ⟨.pop, []⟩) :
    n'.stack.lastPopped? = n.stack.lastPopped? := by
  obtain ⟨event, effect⟩ := next.effect_of_some found
  obtain ⟨event', effect'⟩ := next'.effect_of_some (h.instruction?_eq.trans found)
  rw [effect.lastPopped?_of_pop rfl, effect'.lastPopped?_of_pop rfl, Stack.top?_eq_getLast?,
    Stack.top?_eq_getLast?]
  exact congrArg List.getLast? h.live_eq

/-- It stays the same behind a return of null that follows. -/
theorem Agrees.lastPopped?_eq (h : s.Agrees s') (sound : s.Sound)
    (next : s.Continues events n) (next' : s'.Continues events n') (lastPops : LastPops (s :: past))
    (last : LastPops past → s'.stack.lastPopped? = s.stack.lastPopped?) :
    n'.stack.lastPopped? = n.stack.lastPopped? := by
  have same := h.instruction?_eq
  rw [LastPops, List.findSome?_cons] at lastPops
  cases found : s.instruction? with
  | some i =>
    rw [found] at lastPops
    exact h.lastPopped?_of_pop next next' (found.trans lastPops)
  | none =>
    -- The lowest slot of the frame that is left was live, or the last pop left its value there.
    rw [found] at lastPops same
    obtain ⟨event, effect⟩ := next.effect_of_none found
    obtain ⟨event', effect'⟩ := next'.effect_of_none same
    obtain ⟨hbase, hlast⟩ := effect.lastPopped?_of_returnNull rfl sound
    obtain ⟨-, hlast'⟩ := effect'.lastPopped?_of_returnNull rfl (h.sound sound)
    rw [hlast, hlast', h.calls_eq]
    exact Stack.getElem?_slots_eq h.live_eq (last lastPops) hbase

theorem Agrees.exists_run (h : m.Agrees m') (wellStacked : m.WellStacked) (run : Run m past n) :
    ∃ past' n', Run m' past' n' ∧ List.Forall₂ Agrees (n :: past) (n' :: past') ∧
      (JustPopped past → n'.stack.lastPopped? = n.stack.lastPopped?) ∧
      ((∀ s ∈ n :: past, s.NoWrap) → LastPops past →
        n'.stack.lastPopped? = n.stack.lastPopped?) := by
  induction run with
  | refl => exact ⟨[], m', .refl, .cons h .nil, nofun, nofun⟩
  | @step past s n events run next ih =>
    obtain ⟨past', s', run', agree, -, last⟩ := ih
    obtain ⟨agrees, -⟩ := List.forall₂_cons.mp agree
    obtain ⟨n', next', machines⟩ := (Slack.machines_onlyStale.mpr agrees).exists_continued next
    have continues := continues_of_step next
    have continues' := continues_of_step next'
    refine ⟨s' :: past', n', .step run' next',
      .cons (Slack.machines_onlyStale.mp machines) agree,
      agrees.lastPopped?_of_pop continues continues', fun noWrap lastPops => ?_⟩
    have earlier : ∀ s' ∈ s :: past, s'.NoWrap := fun s' hs => noWrap s' (.tail _ hs)
    have sound := wellStacked.sound_of_run run earlier
    exact agrees.lastPopped?_eq sound continues continues' lastPops (last earlier)

end Machine
end BytecodeMachine

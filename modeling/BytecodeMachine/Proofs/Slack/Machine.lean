import BytecodeMachine.Machine.Run
import BytecodeMachine.Proofs.Execution.Parts

/-!
# Machines that are alike

Two machines are alike if they are in the same frames with the same live values. Slack says in what
they may still differ: the second machine may have longer tables and higher limits, or the slots
above the live ones may hold other values. Each operation on stacks keeps them alike.
-/

namespace BytecodeMachine

/-- What two machines that are alike need not have in common. -/
structure Slack where
  /-- The second machine may have longer tables and higher limits. -/
  wider : Prop
  /-- Slots above the live ones may hold other values. -/
  stale : Prop

namespace Slack

variable {slack : Slack}

/-- The second table begins with the first one. -/
structure Extends (slack : Slack) {α : Type} (as bs : Array α) : Prop where
  getElem?_eq : ∀ (k : Nat) (a : α), as[k]? = some a → bs[k]? = some a
  eq : ¬slack.wider → bs = as

/-- Arrays agree at the indices that count, as if both went on with nulls. The second one may only
be longer. -/
structure Pads (slack : Slack) (counts : Nat → Prop) (vs ws : Array Value) : Prop where
  size_le : vs.size ≤ ws.size
  size_eq : ¬slack.wider → ws.size = vs.size
  getD_eq : ∀ k, counts k → ws[k]?.getD .null = vs[k]?.getD .null

namespace Pads

variable {counts counts' : Nat → Prop} {vs ws : Array Value} {k : Nat}

theorem mono (h : slack.Pads counts vs ws) (hcounts : ∀ j, counts' j → counts j) :
    slack.Pads counts' vs ws :=
  ⟨h.size_le, h.size_eq, fun j hj => h.getD_eq j (hcounts j hj)⟩

theorem getElem?_eq (h : slack.Pads counts vs ws) (hcounts : counts k) (hk : k < vs.size) :
    ws[k]? = vs[k]? := by
  have hle := h.size_le
  have heq := h.getD_eq k hcounts
  rw [Array.getElem?_eq_getElem hk, Array.getElem?_eq_getElem (by omega)] at heq ⊢
  exact congrArg some heq

/-- An index that both arrays have may be assigned, and counts from then on. -/
theorem set (h : slack.Pads counts vs ws) (v : Value) (hk : k < vs.size) (hk' : k < ws.size)
    (hcounts : ∀ j, counts' j → j = k ∨ counts j) :
    slack.Pads counts' (vs.set k v hk) (ws.set k v hk') where
  size_le := by
    rw [Array.size_set, Array.size_set]
    exact h.size_le
  size_eq hwider := by
    rw [Array.size_set, Array.size_set]
    exact h.size_eq hwider
  getD_eq j hj := by
    rw [Array.getElem?_set, Array.getElem?_set]
    by_cases heq : k = j
    · rw [if_pos heq, if_pos heq]
    · rw [if_neg heq, if_neg heq]
      exact h.getD_eq j ((hcounts j hj).resolve_left (Ne.symm heq))

end Pads

/-- The stacks have the same live values. -/
structure Stacks (slack : Slack) (s s' : Stack Value) : Prop where
  size_eq : s'.size = s.size
  slots : slack.Pads (fun k => k < s.size ∨ ¬slack.stale) s.slots s'.slots

namespace Stacks

variable {s s' : Stack Value}

theorem capacity_le (h : slack.Stacks s s') : s.capacity ≤ s'.capacity := h.slots.size_le

theorem capacity_eq (h : slack.Stacks s s') (hwider : ¬slack.wider) : s'.capacity = s.capacity :=
  h.slots.size_eq hwider

theorem toList_eq (h : slack.Stacks s s') : s'.toList = s.toList := by
  apply List.ext_getElem?
  intro k
  rw [Stack.toList_eq_take, Stack.toList_eq_take, List.getElem?_take, List.getElem?_take,
    h.size_eq, Array.getElem?_toList, Array.getElem?_toList]
  by_cases hk : k < s.size
  · rw [if_pos hk, if_pos hk]
    exact h.slots.getElem?_eq (.inl hk) (Nat.lt_of_lt_of_le hk s.size_le)
  · rw [if_neg hk, if_neg hk]

theorem get?_eq (h : slack.Stacks s s') (k : Nat) : s'.get? k = s.get? k := by
  rw [Stack.get?_eq_getElem?, Stack.get?_eq_getElem?, h.toList_eq]

theorem topmost_eq (h : slack.Stacks s s') (n : Nat) : s'.topmost n = s.topmost n := by
  rw [← Array.toList_inj, Stack.topmost_eq_drop, Stack.topmost_eq_drop, h.toList_eq, h.size_eq]

theorem top_eq (h : slack.Stacks s s') (hs : 0 < s.size) (hs' : 0 < s'.size) :
    s'.top hs' = s.top hs := by
  have htop : s'.top? = s.top? := by
    rw [Stack.top?_eq_getLast?, Stack.top?_eq_getLast?, h.toList_eq]
  rw [Stack.top?, Stack.top?, dif_pos hs, dif_pos hs'] at htop
  exact Option.some.inj htop

theorem truncate (h : slack.Stacks s s') (n : Nat) :
    slack.Stacks (s.truncate n) (s'.truncate n) where
  size_eq := congrArg (min · n) h.size_eq
  slots := h.slots.mono fun j hj => hj.imp_left fun hlt => by
    have hle : (s.truncate n).size ≤ s.size := Nat.min_le_left _ _
    omega

theorem pop (h : slack.Stacks s s') : slack.Stacks s.pop s'.pop where
  size_eq := congrArg (· - 1) h.size_eq
  slots := h.slots.mono fun j hj => hj.imp_left fun hlt => by
    have hle : s.pop.size ≤ s.size := Nat.sub_le _ _
    omega

theorem push (h : slack.Stacks s s') (v : Value) (room : s.HasRoom) (room' : s'.HasRoom) :
    slack.Stacks (s.push v room) (s'.push v room') where
  size_eq := congrArg (· + 1) h.size_eq
  slots := by
    have hset : slack.Pads (fun k => k < s.size + 1 ∨ ¬slack.stale) (s.slots.set s.size v room)
        (s'.slots.set s.size v (h.size_eq ▸ room')) := by
      refine h.slots.set v room (h.size_eq ▸ room') fun j hj => ?_
      rcases hj with hlt | hstale
      · rcases Nat.lt_succ_iff_lt_or_eq.mp hlt with hlt | heq
        · exact .inr (.inl hlt)
        · exact .inl heq
      · exact .inr (.inr hstale)
    simp only [Stack.push, h.size_eq]
    exact hset

theorem set (h : slack.Stacks s s') (k : Nat) (v : Value) (hk : k < s.size) (hk' : k < s'.size) :
    slack.Stacks (s.set k v hk) (s'.set k v hk') where
  size_eq := h.size_eq
  slots := h.slots.set v (Nat.lt_of_lt_of_le hk s.size_le) (Nat.lt_of_lt_of_le hk' s'.size_le)
    fun _ hj => .inr hj

theorem growTo (h : slack.Stacks s s') (n : Nat) (room : n ≤ s.capacity)
    (room' : n ≤ s'.capacity) : slack.Stacks (s.growTo n room) (s'.growTo n room') where
  size_eq := congrArg (max · n) h.size_eq
  slots := by
    refine ⟨?_, fun hwider => ?_, fun j hj => ?_⟩
    · rw [Stack.growTo, Stack.growTo, Stack.size_reset, Stack.size_reset]
      exact h.capacity_le
    · rw [Stack.growTo, Stack.growTo, Stack.size_reset, Stack.size_reset]
      exact h.capacity_eq hwider
    · have hle : n ≤ s.slots.size := room
      have hle' : n ≤ s'.slots.size := room'
      have hj : j < max s.size n ∨ ¬slack.stale := hj
      simp only [Stack.growTo]
      rw [Stack.getElem?_reset, Stack.getElem?_reset, h.size_eq]
      by_cases hgained : s.size ≤ j ∧ j < n
      · rw [if_pos (by omega), if_pos (by omega)]
      · rw [if_neg (by omega), if_neg (by omega)]
        exact h.slots.getD_eq j (hj.imp_left fun hlt => by omega)

/-- What was popped last is the same unless it may have been replaced. -/
theorem lastPopped_eq (h : slack.Stacks s s') (hstale : ¬slack.stale) :
    s'.lastPopped?.getD .null = s.lastPopped?.getD .null := by
  rw [Stack.lastPopped?, Stack.lastPopped?, h.size_eq]
  exact h.slots.getD_eq s.size (.inr hstale)

end Stacks

structure Environments (slack : Slack) (e e' : Environment) : Prop where
  host_eq : e'.host = e.host
  constants : slack.Extends e.constants.values e'.constants.values
  builtins : slack.Extends e.builtins e'.builtins
  maxFrames_le : e.maxFrames ≤ e'.maxFrames
  maxFrames_eq : ¬slack.wider → e'.maxFrames = e.maxFrames

/-- The machines are the same up to the slack. -/
structure Machines (slack : Slack) (m m' : Machine) : Prop where
  environment : slack.Environments m.environment m'.environment
  globals : slack.Pads (fun _ => True) m.globals m'.globals
  stack : slack.Stacks m.stack m'.stack
  calls_eq : m'.calls = m.calls
  numCreated_eq : m'.numCreated = m.numCreated
  printed_eq : m'.printed = m.printed
  started_eq : m'.started = m.started

namespace Machines

variable {m m' : Machine}

theorem floor_eq (h : slack.Machines m m') : m'.floor = m.floor :=
  congrArg (fun calls : CallStack => calls.top.floor) h.calls_eq

theorem of_calls (h : slack.Machines m m') (calls : CallStack) :
    slack.Machines { m with calls } { m' with calls } := { h with calls_eq := rfl }

theorem of_stack (h : slack.Machines m m') {s s' : Stack Value} (hs : slack.Stacks s s') :
    slack.Machines { m with stack := s } { m' with stack := s' } := { h with stack := hs }

end Machines

end Slack
end BytecodeMachine

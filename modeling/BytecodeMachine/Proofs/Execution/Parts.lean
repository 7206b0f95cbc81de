import BytecodeMachine.Machine.Execute
import BytecodeMachine.Stack.Lemmas

/-!
# Outcomes of the parts of an instruction

When each part of an instruction succeeds or fails, and in which state it leaves the machine. A
sequence of parts succeeds if all of them do, and it fails in the state of its first failure.
-/

namespace BytecodeMachine

namespace Stack

variable {α : Type}

/-- Another element fits. -/
abbrev HasRoom (s : Stack α) : Prop := s.size < s.capacity

/-- Removes the highest `n` elements. -/
def drop (s : Stack α) (n : Nat) : Stack α := s.truncate (s.size - n)

@[simp] theorem slots_drop (s : Stack α) (n : Nat) : (s.drop n).slots = s.slots := rfl

@[simp] theorem size_drop (s : Stack α) (n : Nat) : (s.drop n).size = s.size - n :=
  Nat.min_eq_right (Nat.sub_le _ _)

@[simp] theorem toList_drop (s : Stack α) (n : Nat) :
    (s.drop n).toList = s.toList.take (s.size - n) := toList_truncate _ _

@[simp] theorem capacity_drop (s : Stack α) (n : Nat) : (s.drop n).capacity = s.capacity := rfl

theorem toList_drop_append {s : Stack α} {below operands : List α}
    (h : s.toList = below ++ operands) : (s.drop operands.length).toList = below := by
  have hsize : s.size = below.length + operands.length := by
    rw [← length_toList, h, List.length_append]
  rw [toList_drop, hsize, Nat.add_sub_cancel, h, List.take_left]

private theorem ext_size {s t : Stack α} (hslots : s.slots = t.slots) (hsize : s.size = t.size) :
    s = t := by
  cases s
  cases t
  cases hslots
  cases hsize
  rfl

@[simp] theorem drop_zero (s : Stack α) : s.drop 0 = s :=
  ext_size rfl (by simp)

theorem pop_eq_drop (s : Stack α) : s.pop = s.drop 1 := ext_size rfl (by simp [pop])

theorem drop_drop (s : Stack α) (m n : Nat) : (s.drop m).drop n = s.drop (m + n) :=
  ext_size rfl (by simp [Nat.sub_sub])

theorem eq_append_of_top? {s : Stack α} {a : α} (h : s.top? = some a) :
    s.toList = (s.drop 1).toList ++ [a] := by
  rw [top?_eq_getLast?] at h
  obtain ⟨below, hbelow⟩ := List.getLast?_eq_some_iff.mp h
  rw [← pop_eq_drop, toList_pop, hbelow, List.dropLast_concat]

theorem toList_topmost_append (s : Stack α) (n : Nat) :
    s.toList = (s.drop n).toList ++ (s.topmost n).toList := by
  rw [toList_drop, topmost_eq_drop, List.take_append_drop]

theorem toList_topmost {s : Stack α} {below operands : List α}
    (h : s.toList = below ++ operands) : (s.topmost operands.length).toList = operands := by
  have hsize : s.size = below.length + operands.length := by
    rw [← length_toList, h, List.length_append]
  rw [topmost_eq_drop, hsize, Nat.add_sub_cancel, h, List.drop_left]

theorem length_topmost {s : Stack α} {n : Nat} (h : n ≤ s.size) :
    (s.topmost n).toList.length = n := by
  rw [topmost_eq_drop, List.length_drop, length_toList]
  omega

theorem getElem?_slots_of_lt {s : Stack α} {k : Nat} (hk : k < s.size) :
    s.slots[k]? = s.toList[k]? := by
  rw [← get?_eq_getElem?, get?, if_pos hk]

theorem lastPopped?_drop_one {s : Stack α} (hpos : 0 < s.size) :
    (s.drop 1).lastPopped? = s.top? := by
  rw [lastPopped?, slots_drop, size_drop, top?_eq_getLast?, List.getLast?_eq_getElem?,
    length_toList, getElem?_slots_of_lt (by omega)]

@[simp] theorem capacity_truncate (s : Stack α) (n : Nat) :
    (s.truncate n).capacity = s.capacity := rfl

@[simp] theorem capacity_push (s : Stack α) (a : α) (h : s.size < s.capacity) :
    (s.push a h).capacity = s.capacity := Array.size_set h

@[simp] theorem size_push (s : Stack α) (a : α) (h : s.size < s.capacity) :
    (s.push a h).size = s.size + 1 := rfl

@[simp] theorem capacity_set (s : Stack α) (i : Nat) (a : α) (h : i < s.size) :
    (s.set i a h).capacity = s.capacity := Array.size_set (Nat.lt_of_lt_of_le h s.size_le)

@[simp] theorem size_set (s : Stack α) (i : Nat) (a : α) (h : i < s.size) :
    (s.set i a h).size = s.size := rfl

@[simp] theorem capacity_growTo [Inhabited α] (s : Stack α) (n : Nat) (h : n ≤ s.capacity) :
    (s.growTo n h).capacity = s.capacity := size_reset ..

@[simp] theorem size_growTo [Inhabited α] (s : Stack α) (n : Nat) (h : n ≤ s.capacity) :
    (s.growTo n h).size = max s.size n := rfl

end Stack

namespace Exec

variable {α β : Type} {m m' : Machine} {fault : Fault}

@[simp] theorem bind_eq_ok {x : Exec α} {f : α → Exec β} {b : β} :
    (x >>= f) m = .ok b m' ↔ ∃ a m₁, x m = .ok a m₁ ∧ f a m₁ = .ok b m' := by
  change EStateM.bind x f m = _ ↔ _
  rw [EStateM.bind]
  cases x m with
  | ok a m₁ =>
    refine ⟨fun h => ⟨a, m₁, rfl, h⟩, ?_⟩
    rintro ⟨_, _, ⟨⟩, h⟩
    exact h
  | error e m₁ => simp

@[simp] theorem bind_eq_error {x : Exec α} {f : α → Exec β} :
    (x >>= f) m = .error fault m' ↔
      x m = .error fault m' ∨ ∃ a m₁, x m = .ok a m₁ ∧ f a m₁ = .error fault m' := by
  change EStateM.bind x f m = _ ↔ _
  rw [EStateM.bind]
  cases x m with
  | ok a m₁ =>
    refine ⟨fun h => .inr ⟨a, m₁, rfl, h⟩, ?_⟩
    rintro (⟨⟨⟩⟩ | ⟨_, _, ⟨⟩, h⟩)
    exact h
  | error e m₁ => simp

theorem bind_of_ok {x : Exec α} {f : α → Exec β} {a : α} (h : x m = .ok a m') :
    (x >>= f) m = f a m' := by
  change EStateM.bind x f m = _
  rw [EStateM.bind, h]

theorem bind_of_error {x : Exec α} {f : α → Exec β} (h : x m = .error fault m') :
    (x >>= f) m = .error fault m' :=
  bind_eq_error.mpr (.inl h)

@[simp] theorem map_eq_ok {x : Exec α} {f : α → β} {b : β} :
    (f <$> x) m = .ok b m' ↔ ∃ a, x m = .ok a m' ∧ f a = b := by
  change EStateM.map f x m = _ ↔ _
  rw [EStateM.map]
  cases x m with
  | ok a m₁ =>
    constructor
    · rintro ⟨⟩
      exact ⟨a, rfl, rfl⟩
    · rintro ⟨_, ⟨⟩, rfl⟩
      rfl
  | error e m₁ => simp

@[simp] theorem map_eq_error {x : Exec α} {f : α → β} :
    (f <$> x) m = .error fault m' ↔ x m = .error fault m' := by
  change EStateM.map f x m = _ ↔ _
  rw [EStateM.map]
  cases x m with
  | ok a m₁ => simp
  | error e m₁ => simp

@[simp] theorem pure_apply (a : α) : (pure a : Exec α) m = .ok a m := rfl

@[simp] theorem throw_apply (e : Fault) : (throw e : Exec α) m = .error e m := rfl

@[simp] theorem modify_apply (f : Machine → Machine) :
    (modify f : Exec Unit) m = .ok ⟨⟩ (f m) := rfl

@[simp] theorem observe_apply (f : Machine → α) : observe f m = .ok (f m) m := rfl

@[simp] theorem observe_bind (f : Machine → α) (g : α → Exec β) :
    (observe f >>= g) m = g (f m) m := rfl

@[simp] theorem modify_bind (f : Machine → Machine) (g : Unit → Exec β) :
    ((modify f : Exec Unit) >>= g) m = g ⟨⟩ (f m) := rfl

@[simp] theorem throw_bind (e : Fault) (g : α → Exec β) :
    ((throw e : Exec α) >>= g) m = .error e m := rfl

@[simp] theorem ofExcept_eq_ok {x : Except Fault α} {a : α} :
    (MonadExcept.ofExcept x : Exec α) m = .ok a m' ↔ x = .ok a ∧ m = m' := by
  cases x with
  | ok b => simp [MonadExcept.ofExcept, eq_comm]
  | error e => simp [MonadExcept.ofExcept]

@[simp] theorem ofExcept_eq_error {x : Except Fault α} :
    (MonadExcept.ofExcept x : Exec α) m = .error fault m' ↔ x = .error fault ∧ m = m' := by
  cases x with
  | ok b => simp [MonadExcept.ofExcept]
  | error e => simp [MonadExcept.ofExcept, eq_comm]

section Guard

variable {p : Prop} [Decidable p] {result : p → α} {after : p → Machine} {e : Fault}

-- A guarded part changes the machine if its guard holds and fails in place otherwise.
private theorem guard_eq_ok {a : α} :
    (if h : p then EStateM.Result.ok (result h) (after h) else .error e m) = .ok a m' ↔
      ∃ h : p, result h = a ∧ m' = after h := by
  by_cases h : p
  · simp [h, eq_comm]
  · simp [h]

private theorem guard_eq_error :
    (if h : p then EStateM.Result.ok (result h) (after h) else .error e m) = .error fault m' ↔
      ¬p ∧ e = fault ∧ m = m' := by
  by_cases h : p
  · simp [h]
  · simp [h, eq_comm]

end Guard

@[simp] theorem push_eq_ok {v : Value} {u : Unit} :
    push v m = .ok u m' ↔
      ∃ h : m.stack.HasRoom, m' = { m with stack := m.stack.push v h } := by
  rw [push]
  simp [guard_eq_ok]

@[simp] theorem push_eq_error {v : Value} :
    push v m = .error fault m' ↔
      ¬m.stack.HasRoom ∧ .stackOverflow m.stack.capacity = fault ∧ m = m' :=
  guard_eq_error

@[simp] theorem pop_eq_ok {v : Value} :
    pop m = .ok v m' ↔
      m.floor < m.stack.size ∧ m.stack.top? = some v ∧
        m' = { m with stack := m.stack.drop 1 } := by
  rw [pop, guard_eq_ok, ← Stack.pop_eq_drop]
  constructor
  · rintro ⟨h, hv, rfl⟩
    exact ⟨h, by simp [Stack.top?, Nat.zero_lt_of_lt h, hv], rfl⟩
  · rintro ⟨h, hv, rfl⟩
    exact ⟨h, by simpa [Stack.top?, Nat.zero_lt_of_lt h] using hv, rfl⟩

@[simp] theorem pop_eq_error :
    pop m = .error fault m' ↔ ¬m.floor < m.stack.size ∧ .stackUnderflow = fault ∧ m = m' :=
  guard_eq_error

@[simp] theorem popMany_eq_ok {n : Nat} {vs : Array Value} :
    popMany n m = .ok vs m' ↔
      n ≤ m.stack.size - m.floor ∧ m.stack.topmost n = vs ∧
        m' = { m with stack := m.stack.drop n } :=
  guard_eq_ok.trans exists_prop

@[simp] theorem popMany_eq_error {n : Nat} :
    popMany n m = .error fault m' ↔
      ¬n ≤ m.stack.size - m.floor ∧ .stackUnderflow = fault ∧ m = m' :=
  guard_eq_error

@[simp] theorem assignGlobal_eq_ok {k : Nat} {v : Value} {u : Unit} :
    assignGlobal k v m = .ok u m' ↔
      ∃ h : k < m.globals.size, m' = { m with globals := m.globals.set k v } := by
  rw [assignGlobal]
  simp [guard_eq_ok]

@[simp] theorem assignGlobal_eq_error {k : Nat} {v : Value} :
    assignGlobal k v m = .error fault m' ↔
      ¬k < m.globals.size ∧ .globalOutOfRange k m.globals.size = fault ∧ m = m' :=
  guard_eq_error

@[simp] theorem assignSlot_eq_ok {slot : Nat} {v : Value} {u : Unit} :
    assignSlot slot v m = .ok u m' ↔
      ∃ h : slot < m.stack.size, m' = { m with stack := m.stack.set slot v h } := by
  rw [assignSlot]
  simp [guard_eq_ok]

@[simp] theorem assignSlot_eq_error {slot : Nat} {v : Value} :
    assignSlot slot v m = .error fault m' ↔
      ¬slot < m.stack.size ∧ .stackUnderflow = fault ∧ m = m' :=
  guard_eq_error

@[simp] theorem reserve_eq_ok {f : Frame} {u : Unit} :
    reserve f m = .ok u m' ↔
      ∃ h : f.floor ≤ m.stack.capacity, m' = { m with stack := m.stack.growTo f.floor h } := by
  rw [reserve]
  simp [guard_eq_ok]

@[simp] theorem reserve_eq_error {f : Frame} :
    reserve f m = .error fault m' ↔
      ¬f.floor ≤ m.stack.capacity ∧ .stackOverflow m.stack.capacity = fault ∧ m = m' :=
  guard_eq_error

@[simp] theorem popFrame_eq_ok {f : Frame} :
    popFrame m = .ok f m' ↔
      ∃ callers caller, m.calls.callers = callers.push caller ∧ m.calls.top = f ∧
        m' = { m with calls := ⟨callers, caller⟩ } := by
  rw [popFrame]
  cases h : m.calls.callers.back? with
  | none =>
    have hempty : m.calls.callers = #[] := Array.back?_eq_none_iff.mp h
    simp [hempty]
  | some caller =>
    obtain ⟨callers, hcallers⟩ := Array.back?_eq_some_iff.mp h
    constructor
    · rintro ⟨⟩
      exact ⟨callers, caller, hcallers, rfl, by rw [hcallers, Array.pop_push]⟩
    · rintro ⟨_, _, hpush, rfl, rfl⟩
      rw [hcallers] at hpush ⊢
      obtain ⟨rfl, rfl⟩ := Array.push_eq_push.mp hpush
      rw [Array.pop_push]

@[simp] theorem popFrame_eq_error :
    popFrame m = .error fault m' ↔
      m.calls.callers = #[] ∧ .returnOutsideFunction = fault ∧ m = m' := by
  rw [popFrame]
  cases h : m.calls.callers.back? with
  | none => simp [Array.back?_eq_none_iff.mp h, eq_comm]
  | some caller =>
    obtain ⟨callers, hcallers⟩ := Array.back?_eq_some_iff.mp h
    simp [hcallers]

@[simp] theorem constant_eq_ok {k : Nat} {v : Value} :
    constant k m = .ok v m' ↔ m.environment.constants.get? k = some v ∧ m = m' := by
  rw [constant, observe_bind]
  cases m.environment.constants.get? k with
  | none => simp
  | some w => simp [eq_comm]

@[simp] theorem constant_eq_error {k : Nat} :
    constant k m = .error fault m' ↔
      m.environment.constants.get? k = none ∧
        .constantOutOfRange k m.environment.constants.size = fault ∧ m = m' := by
  rw [constant, observe_bind]
  cases m.environment.constants.get? k with
  | none => simp [eq_comm]
  | some w => simp

@[simp] theorem localSlot_eq_ok {k slot : Nat} :
    localSlot k m = .ok slot m' ↔
      k < m.calls.top.numSlots ∧ m.calls.top.base + k = slot ∧ m = m' := by
  rw [localSlot, observe_bind]
  by_cases h : k < m.calls.top.numSlots
  · simp [h, eq_comm]
  · simp [h]

@[simp] theorem localSlot_eq_error {k : Nat} :
    localSlot k m = .error fault m' ↔
      ¬k < m.calls.top.numSlots ∧ .localOutOfRange k m.calls.top.numSlots = fault ∧ m = m' := by
  rw [localSlot, observe_bind]
  by_cases h : k < m.calls.top.numSlots
  · simp [h]
  · simp [h, eq_comm]

section Calls

variable {c : Closure Value} {b : Builtin} {v : Value} {n : Nat} {event : Event}

theorem callClosure_eq_ok :
    callClosure c n m = .ok event m' ↔
      n = c.function.numParameters ∧ m.calls.depth < m.environment.maxFrames ∧
        ∃ h : (Frame.enter c (m.stack.size - n)).floor ≤ m.stack.capacity,
          .called (m.calls.depth + 1) (m.stack.size - n) n = event ∧
          m' = { m with
            stack := m.stack.growTo (Frame.enter c (m.stack.size - n)).floor h
            calls := m.calls.push (.enter c (m.stack.size - n)) } := by
  rw [callClosure]
  by_cases arity : n = c.function.numParameters
  · rw [if_pos arity]
    by_cases depth : m.calls.depth < m.environment.maxFrames
    · simp only [observe_bind, if_pos depth, bind_eq_ok, reserve_eq_ok, modify_bind, pure_apply]
      constructor
      · rintro ⟨_, _, ⟨room, rfl⟩, ⟨⟩⟩
        exact ⟨arity, depth, room, rfl, rfl⟩
      · rintro ⟨-, -, room, rfl, rfl⟩
        exact ⟨⟨⟩, _, ⟨room, rfl⟩, rfl⟩
    · simp [depth]
  · simp [arity]

theorem callClosure_eq_error :
    callClosure c n m = .error fault m' ↔
      n ≠ c.function.numParameters ∧
        .argumentCount c.function.numParameters n = fault ∧ m = m' ∨
      n = c.function.numParameters ∧ ¬m.calls.depth < m.environment.maxFrames ∧
        .callStackOverflow m.environment.maxFrames = fault ∧ m = m' ∨
      n = c.function.numParameters ∧ m.calls.depth < m.environment.maxFrames ∧
        ¬(Frame.enter c (m.stack.size - n)).floor ≤ m.stack.capacity ∧
        .stackOverflow m.stack.capacity = fault ∧ m = m' := by
  rw [callClosure]
  by_cases arity : n = c.function.numParameters
  · rw [if_pos arity]
    by_cases depth : m.calls.depth < m.environment.maxFrames
    · simp only [observe_bind, if_pos depth, bind_eq_error, reserve_eq_error, reserve_eq_ok]
      simp [arity, depth]
    · simp [depth, arity]
  · rw [if_neg arity]
    simp [arity]

theorem callBuiltin_eq_ok :
    callBuiltin b n m = .ok event m' ↔
      ∃ h : (m.stack.drop (n + 1)).HasRoom,
        .calledBuiltin b.name n = event ∧
        m' = { m with
          stack := (m.stack.drop (n + 1)).push
            (m.environment.host b.native (m.stack.topmost n).toList).value h
          printed := m.printed ++
            (m.environment.host b.native (m.stack.topmost n).toList).printed } := by
  simp only [callBuiltin, observe_bind, modify_bind, bind_eq_ok, push_eq_ok, pure_apply]
  constructor
  · rintro ⟨_, _, ⟨room, rfl⟩, ⟨⟩⟩
    exact ⟨room, rfl, rfl⟩
  · rintro ⟨room, rfl, rfl⟩
    exact ⟨⟨⟩, _, ⟨room, rfl⟩, rfl⟩

theorem callBuiltin_eq_error :
    callBuiltin b n m = .error fault m' → ¬(m.stack.drop (n + 1)).HasRoom := by
  simp only [callBuiltin, observe_bind, modify_bind, bind_eq_error, push_eq_error, pure_apply]
  rintro (⟨full, -, -⟩ | ⟨_, _, _, ⟨⟩⟩)
  exact full

theorem leave_eq_ok :
    leave v m = .ok event m' ↔
      ∃ callers caller, m.calls.callers = callers.push caller ∧
        ∃ h : (m.stack.truncate (m.calls.top.base - 1)).HasRoom,
          .returned m.calls.depth = event ∧
          m' = { m with
            stack := (m.stack.truncate (m.calls.top.base - 1)).push v h
            calls := ⟨callers, caller⟩ } := by
  simp only [leave, bind_eq_ok, popFrame_eq_ok, modify_bind, push_eq_ok, observe_bind, pure_apply]
  constructor
  · rintro ⟨_, _, ⟨callers, caller, hcallers, rfl, rfl⟩, _, _, ⟨room, rfl⟩, ⟨⟩⟩
    exact ⟨callers, caller, hcallers, room, by simp [CallStack.depth, hcallers], rfl⟩
  · rintro ⟨callers, caller, hcallers, room, rfl, rfl⟩
    exact ⟨_, _, ⟨callers, caller, hcallers, rfl, rfl⟩, ⟨⟩, _, ⟨room, rfl⟩,
      by simp [CallStack.depth, hcallers]⟩

theorem leave_eq_error (h : leave v m = .error fault m') :
    m.calls.callers = #[] ∧ .returnOutsideFunction = fault ∧ m = m' ∨
      m.calls.callers ≠ #[] ∧
        ¬(m.stack.truncate (m.calls.top.base - 1)).HasRoom := by
  simp only [leave, bind_eq_error, popFrame_eq_error, popFrame_eq_ok, modify_bind, push_eq_error,
    observe_bind, pure_apply] at h
  rcases h with h | ⟨_, _, ⟨callers, caller, hcallers, rfl, rfl⟩, ⟨full, -, -⟩ | ⟨_, _, _, ⟨⟩⟩⟩
  · exact .inl h
  · exact .inr ⟨by simp [hcallers], full⟩

end Calls

end Exec
end BytecodeMachine

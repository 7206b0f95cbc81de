import BytecodeMachine.Proofs.Execution.Effect

/-!
# Failures of instructions

An instruction that fails has at most removed operands of the running frame. The parts of an
instruction that come before one that may fail do no more than that either.
-/

namespace BytecodeMachine

namespace Machine

/-- The second machine lacks some operands of the first one's running frame and is like it
otherwise. -/
def Lowers (m m' : Machine) : Prop :=
  ∃ n ≤ m.stack.size - m.floor, m' = { m with stack := m.stack.drop n }

theorem Lowers.refl (m : Machine) : m.Lowers m := ⟨0, Nat.zero_le _, by rw [Stack.drop_zero]⟩

theorem Lowers.trans {m₁ m₂ m₃ : Machine} (h : m₁.Lowers m₂) (h' : m₂.Lowers m₃) :
    m₁.Lowers m₃ := by
  obtain ⟨j, hj, rfl⟩ := h
  obtain ⟨k, hk, rfl⟩ := h'
  refine ⟨j + k, ?_, by rw [Stack.drop_drop]⟩
  change k ≤ (m₁.stack.drop j).size - m₁.floor at hk
  rw [Stack.size_drop] at hk
  omega

end Machine

namespace Exec

variable {α β : Type} {m m' : Machine} {fault : Fault}

/-- Whenever the part fails, it has at most removed operands. -/
def FailsLowered (x : Exec α) : Prop := ∀ m fault m', x m = .error fault m' → m.Lowers m'

/-- The part does no more than remove operands, whether it fails or not. -/
structure OnlyLowers (x : Exec α) : Prop where
  failure : FailsLowered x
  success : ∀ m a m', x m = .ok a m' → m.Lowers m'

theorem OnlyLowers.bind {x : Exec α} {f : α → Exec β} (hx : OnlyLowers x)
    (hf : ∀ a, FailsLowered (f a)) : FailsLowered (x >>= f) := by
  intro m fault m' h
  rcases bind_eq_error.mp h with h | ⟨a, m₁, hok, herror⟩
  · exact hx.failure m fault m' h
  · exact (hx.success m a m₁ hok).trans (hf a m₁ fault m' herror)

theorem FailsLowered.map {x : Exec α} {f : α → β} (hx : FailsLowered x) :
    FailsLowered (f <$> x) :=
  fun m fault m' h => hx m fault m' (map_eq_error.mp h)

/-- What follows the part never fails. -/
theorem FailsLowered.bind_of_ok {x : Exec α} {f : α → Exec β} (hx : FailsLowered x)
    (hf : ∀ a m fault m', f a m ≠ .error fault m') : FailsLowered (x >>= f) := by
  intro m fault m' h
  rcases bind_eq_error.mp h with h | ⟨a, m₁, -, herror⟩
  · exact hx m fault m' h
  · exact absurd herror (hf a m₁ fault m')

theorem failsLowered_of_in_place {x : Exec α} (h : ∀ m fault m', x m = .error fault m' → m = m') :
    FailsLowered x := by
  intro m fault m' herror
  obtain rfl := h m fault m' herror
  exact .refl m

theorem failsLowered_push (v : Value) : FailsLowered (push v) :=
  failsLowered_of_in_place fun _ _ _ h => (push_eq_error.mp h).2.2

theorem failsLowered_throw (e : Fault) : FailsLowered (throw e : Exec α) := by
  intro m fault m' h
  cases h
  exact .refl m

theorem onlyLowers_observe (f : Machine → α) : OnlyLowers (observe f) where
  failure m fault m' h := by
    rw [observe_apply] at h
    cases h
  success m a m' h := by
    cases h
    exact .refl m

theorem onlyLowers_ofExcept (x : Except Fault α) :
    OnlyLowers (MonadExcept.ofExcept x : Exec α) where
  failure := failsLowered_of_in_place fun _ _ _ h => (ofExcept_eq_error.mp h).2
  success m a m' h := by
    obtain ⟨-, rfl⟩ := ofExcept_eq_ok.mp h
    exact .refl m

theorem onlyLowers_constant (k : Nat) : OnlyLowers (constant k) where
  failure := failsLowered_of_in_place fun _ _ _ h => (constant_eq_error.mp h).2.2
  success m a m' h := by
    obtain ⟨-, rfl⟩ := constant_eq_ok.mp h
    exact .refl m

theorem onlyLowers_localSlot (k : Nat) : OnlyLowers (localSlot k) where
  failure := failsLowered_of_in_place fun _ _ _ h => (localSlot_eq_error.mp h).2.2
  success m a m' h := by
    obtain ⟨-, -, rfl⟩ := localSlot_eq_ok.mp h
    exact .refl m

theorem onlyLowers_pop : OnlyLowers pop where
  failure := failsLowered_of_in_place fun _ _ _ h => (pop_eq_error.mp h).2.2
  success m a m' h := by
    obtain ⟨hfloor, -, rfl⟩ := pop_eq_ok.mp h
    exact ⟨1, by omega, rfl⟩

theorem onlyLowers_popMany (n : Nat) : OnlyLowers (popMany n) where
  failure := failsLowered_of_in_place fun _ _ _ h => (popMany_eq_error.mp h).2.2
  success m a m' h := by
    obtain ⟨enough, -, rfl⟩ := popMany_eq_ok.mp h
    exact ⟨n, enough, rfl⟩

theorem failsLowered_unary (f : Value → Except Fault Value) : FailsLowered (unary f) :=
  onlyLowers_pop.bind fun _ => (onlyLowers_ofExcept _).bind fun _ => failsLowered_push _

theorem failsLowered_binary (f : Value → Value → Except Fault Value) :
    FailsLowered (binary f) :=
  onlyLowers_pop.bind fun _ => onlyLowers_pop.bind fun _ =>
    (onlyLowers_ofExcept _).bind fun _ => failsLowered_push _

theorem failsLowered_getGlobal (k : Nat) : FailsLowered (getGlobal k) := by
  refine (onlyLowers_observe _).bind fun found => ?_
  cases found with
  | none => exact (onlyLowers_observe _).bind fun _ => failsLowered_throw _
  | some v => exact failsLowered_push v

theorem failsLowered_getBuiltin (k : Nat) : FailsLowered (getBuiltin k) := by
  refine (onlyLowers_observe _).bind fun found => ?_
  cases found with
  | none => exact (onlyLowers_observe _).bind fun _ => failsLowered_throw _
  | some b => exact failsLowered_push _

theorem failsLowered_getCaptured (k : Nat) : FailsLowered (getCaptured k) := by
  refine (onlyLowers_observe _).bind fun captured => ?_
  cases captured[k]? with
  | none => exact failsLowered_throw _
  | some v => exact failsLowered_push v

theorem failsLowered_getLocal (k : Nat) : FailsLowered (getLocal k) := by
  refine (onlyLowers_localSlot k).bind fun slot => (onlyLowers_observe _).bind fun found => ?_
  cases found with
  | none => exact failsLowered_throw _
  | some v => exact failsLowered_push v

theorem failsLowered_setGlobal (k : Nat) : FailsLowered (setGlobal k) :=
  onlyLowers_pop.bind fun _ =>
    failsLowered_of_in_place fun _ _ _ h => (assignGlobal_eq_error.mp h).2.2

theorem failsLowered_setLocal (k : Nat) : FailsLowered (setLocal k) :=
  (onlyLowers_localSlot k).bind fun _ => onlyLowers_pop.bind fun _ =>
    failsLowered_of_in_place fun _ _ _ h => (assignSlot_eq_error.mp h).2.2

theorem failsLowered_jumpUnlessTruthy (offset : Nat) :
    FailsLowered (jumpUnlessTruthy offset) := by
  refine onlyLowers_pop.bind fun condition => ?_
  intro m fault m' h
  by_cases truth : condition.isTruthy = true
  · rw [if_pos truth, pure_apply] at h
    cases h
  · rw [if_neg truth] at h
    cases h

theorem failsLowered_pushClosure (k n : Nat) : FailsLowered (pushClosure k n) := by
  refine (onlyLowers_constant k).bind fun c => ?_
  cases c with
  | function f =>
    exact (onlyLowers_popMany n).bind fun _ => (onlyLowers_observe _).bind fun _ =>
      (failsLowered_push _).bind_of_ok fun _ m _ _ h => by
        rw [modify_apply] at h
        cases h
  | _ => exact failsLowered_throw _

/-- A native function finds room for its answer in the place of what was called. -/
theorem callBuiltin_ne_error {b : Builtin} {n : Nat} (enough : m.floor + n < m.stack.size) :
    callBuiltin b n m ≠ .error fault m' := by
  intro h
  have hroom := callBuiltin_eq_error h
  have hsize : m.stack.size ≤ m.stack.capacity := m.stack.size_le
  rw [Stack.HasRoom, Stack.size_drop, Stack.capacity_drop] at hroom
  omega

theorem lowers_of_call_error {n : Nat} (h : call n m = .error fault m') : m.Lowers m' := by
  rcases call_cases m n with ⟨-, heq⟩ | ⟨below, callee, args, supplies, rfl, heq⟩
  · cases heq.symm.trans h
    exact .refl m
  · rw [heq] at h
    cases callee with
    | closure c =>
      have hsame : m = m' := by
        rcases callClosure_eq_error.mp h with ⟨-, -, h⟩ | ⟨-, -, -, h⟩ | ⟨-, -, -, -, h⟩ <;> exact h
      exact hsame ▸ .refl m
    | builtin b => exact absurd h (callBuiltin_ne_error supplies.floor_add_lt)
    | _ => exact failsLowered_throw _ m _ m' h

end Exec

/-- The running frame, if it has a caller, begins above the slot of its closure. -/
def Machine.Returns (m : Machine) : Prop :=
  m.calls.callers ≠ #[] → 0 < m.calls.top.base ∧ m.calls.top.base ≤ m.stack.capacity

namespace Exec

variable {m m' : Machine} {fault : Fault}

/-- What a frame leaves makes room for its value, so only the main frame cannot be left. -/
theorem callers_eq_of_leave_error {v : Value} (returns : m.Returns)
    (h : leave v m = .error fault m') :
    m.calls.callers = #[] ∧ .returnOutsideFunction = fault ∧ m = m' := by
  rcases leave_eq_error h with outermost | ⟨callers, full⟩
  · exact outermost
  · obtain ⟨hpos, hcapacity⟩ := returns callers
    have hsize : (m.stack.truncate (m.calls.top.base - 1)).size ≤ m.calls.top.base - 1 :=
      Nat.min_le_right _ _
    rw [Stack.HasRoom, Stack.capacity_truncate] at full
    omega

theorem eq_of_leave_error {v : Value} (returns : m.Returns) (h : leave v m = .error fault m') :
    m = m' := (callers_eq_of_leave_error returns h).2.2

/-- A failing instruction has at most removed operands of the running frame. -/
theorem lowers_of_execute_error {i : Instruction} (returns : m.Returns)
    (h : execute i m = .error fault m') : m.Lowers m' := by
  have quietly {x : Exec Unit} (hx : FailsLowered x)
      (h : execute.quietly x m = .error fault m') : m.Lowers m' :=
    hx.bind_of_ok (fun _ _ _ _ h => by rw [pure_apply] at h; cases h) m fault m' h
  cases op : i.opcode
  all_goals simp only [execute, op] at h
  case constant => exact quietly ((onlyLowers_constant _).bind failsLowered_push) h
  case pop => exact quietly onlyLowers_pop.failure.map h
  case pushTrue | pushFalse | pushNull => exact quietly (failsLowered_push _) h
  case add | sub | mul | div | equal | notEqual | greaterThan | index =>
    exact quietly (failsLowered_binary _) h
  case minus | bang => exact quietly (failsLowered_unary _) h
  case jump => cases h
  case jumpNotTruthy => exact quietly (failsLowered_jumpUnlessTruthy _) h
  case getGlobal => exact quietly (failsLowered_getGlobal _) h
  case setGlobal => exact quietly (failsLowered_setGlobal _) h
  case getLocal => exact quietly (failsLowered_getLocal _) h
  case setLocal => exact quietly (failsLowered_setLocal _) h
  case getBuiltin => exact quietly (failsLowered_getBuiltin _) h
  case getFree => exact quietly (failsLowered_getCaptured _) h
  case array => exact quietly ((onlyLowers_popMany _).bind fun _ => failsLowered_push _) h
  case hash =>
    exact quietly ((onlyLowers_popMany _).bind fun _ =>
      (onlyLowers_ofExcept _).bind failsLowered_push) h
  case closure => exact quietly (failsLowered_pushClosure _ _) h
  case call => exact lowers_of_call_error (map_eq_error.mp h)
  case returnNull => exact eq_of_leave_error returns (map_eq_error.mp h) ▸ .refl m
  case returnValue =>
    rcases bind_eq_error.mp h with h | ⟨v, m₁, hpop, h⟩
    · exact onlyLowers_pop.failure m fault m' h
    · obtain ⟨hfloor, -, rfl⟩ := pop_eq_ok.mp hpop
      have hsame := eq_of_leave_error (by exact returns) (map_eq_error.mp h)
      exact ⟨1, by omega, hsame.symm⟩

end Exec
end BytecodeMachine

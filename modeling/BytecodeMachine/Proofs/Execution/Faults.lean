import BytecodeMachine.Proofs.Execution.Parts

/-!
# Faults of instructions

Illegal bytes are found when an instruction is decoded, and a second run is refused before the first
step. An instruction that is carried out ends in neither of these faults.
-/

namespace BytecodeMachine

/-- Whether an instruction that is carried out may end in the fault. -/
def Fault.ofInstruction : Fault → Bool
  | illegalInstruction _ | alreadyRun => false
  | _ => true

/-- Whether the fault lies in the operands that an operator is applied to. -/
def Fault.ofOperands : Fault → Bool
  | operandKinds .. | operandKind .. | oddHashOperands _ | unusableKey _ | divisionByZero => true
  | _ => false

theorem Fault.ofInstruction_of_ofOperands {fault : Fault} (h : fault.ofOperands = true) :
    fault.ofInstruction = true := by
  cases fault <;> first | rfl | cases h

/-- The answer is a value, or else the operands are to blame. -/
def Proper {α : Type} (x : Except Fault α) : Prop :=
  ∀ fault, x = .error fault → fault.ofOperands = true

namespace Proper

theorem ok {α : Type} (a : α) : Proper (.ok a) := by
  rintro _ ⟨⟩

theorem error {α : Type} {fault : Fault} (h : fault.ofOperands = true) :
    Proper (.error fault : Except Fault α) := by
  rintro _ ⟨⟩
  exact h

theorem map {α β : Type} {x : Except Fault α} (h : Proper x) (f : α → β) : Proper (f <$> x) := by
  cases x with
  | ok a => exact ok (f a)
  | error fault => exact error (h fault rfl)

theorem arithmetic (op : Arithmetic) (l r : Value) : Proper (op.values l r) := by
  simp only [Arithmetic.values]
  split
  · next l r =>
    refine map ?_ _
    cases op with
    | add | sub | mul => exact ok _
    | div =>
      by_cases hzero : r = 0
      · rw [Arithmetic.integers, if_pos hzero]
        exact error rfl
      · rw [Arithmetic.integers, if_neg hzero]
        exact ok _
  · exact ok _
  · exact error rfl

theorem comparison (op : Comparison) (l r : Value) : Proper (op.values l r) := by
  simp only [Comparison.values]
  split
  · exact ok _
  · exact ok _
  · exact ok _
  · exact error rfl

theorem negate (v : Value) : Proper v.negate := by
  cases v with
  | integer n => exact ok _
  | _ => exact error rfl

theorem index (container key : Value) : Proper (container.index key) := by
  simp only [Value.index]
  split
  · exact ok _
  · split
    · exact ok _
    · exact error rfl
  · exact error rfl

theorem hashOf (operands : Array Value) : Proper (Value.hashOf operands) := by
  rw [Value.hashOf]
  split
  · split
    · exact ok _
    · exact error rfl
  · exact error rfl

end Proper

namespace Exec

variable {α β : Type}

/-- The part fails with faults of instructions only. -/
def FailsProperly (x : Exec α) : Prop :=
  ∀ m fault m', x m = .error fault m' → fault.ofInstruction = true

theorem FailsProperly.bind {x : Exec α} {f : α → Exec β} (hx : FailsProperly x)
    (hf : ∀ a, FailsProperly (f a)) : FailsProperly (x >>= f) := by
  intro m fault m' h
  rcases bind_eq_error.mp h with h | ⟨a, m₁, -, h⟩
  · exact hx m fault m' h
  · exact hf a m₁ fault m' h

theorem FailsProperly.map {x : Exec α} (hx : FailsProperly x) (f : α → β) :
    FailsProperly (f <$> x) :=
  fun m fault m' h => hx m fault m' (map_eq_error.mp h)

theorem failsProperly_pure (a : α) : FailsProperly (pure a : Exec α) := by
  intro m fault m' h
  rw [pure_apply] at h
  cases h

theorem failsProperly_throw {fault : Fault} (h : fault.ofInstruction = true) :
    FailsProperly (throw fault : Exec α) := by
  rintro m _ m' ⟨⟩
  exact h

theorem failsProperly_modify (f : Machine → Machine) : FailsProperly (modify f) := by
  intro m fault m' h
  rw [modify_apply] at h
  cases h

theorem failsProperly_observe (f : Machine → α) : FailsProperly (observe f) := by
  intro m fault m' h
  rw [observe_apply] at h
  cases h

theorem failsProperly_ofExcept {x : Except Fault α} (h : Proper x) :
    FailsProperly (MonadExcept.ofExcept x : Exec α) :=
  fun _ fault _ herror =>
    Fault.ofInstruction_of_ofOperands (h fault (ofExcept_eq_error.mp herror).1)

theorem failsProperly_push (v : Value) : FailsProperly (push v) := by
  intro m fault m' h
  obtain ⟨-, rfl, -⟩ := push_eq_error.mp h
  rfl

theorem failsProperly_pop : FailsProperly pop := by
  intro m fault m' h
  obtain ⟨-, rfl, -⟩ := pop_eq_error.mp h
  rfl

theorem failsProperly_popMany (n : Nat) : FailsProperly (popMany n) := by
  intro m fault m' h
  obtain ⟨-, rfl, -⟩ := popMany_eq_error.mp h
  rfl

theorem failsProperly_pushAnswer {x : Except Fault Value} (h : Proper x) :
    FailsProperly (do push (← (MonadExcept.ofExcept x : Exec Value))) :=
  (failsProperly_ofExcept h).bind failsProperly_push

theorem failsProperly_unary {f : Value → Except Fault Value} (h : ∀ v, Proper (f v)) :
    FailsProperly (unary f) :=
  failsProperly_pop.bind fun v => failsProperly_pushAnswer (h v)

theorem failsProperly_binary {f : Value → Value → Except Fault Value}
    (h : ∀ l r, Proper (f l r)) : FailsProperly (binary f) :=
  failsProperly_pop.bind fun r => failsProperly_pop.bind fun l => failsProperly_pushAnswer (h l r)

theorem failsProperly_jumpUnlessTruthy (offset : Nat) :
    FailsProperly (jumpUnlessTruthy offset) := by
  refine failsProperly_pop.bind fun condition => ?_
  cases condition.isTruthy with
  | false => exact failsProperly_modify _
  | true => exact failsProperly_pure _

theorem failsProperly_constant (k : Nat) : FailsProperly (constant k) := by
  intro m fault m' h
  obtain ⟨-, rfl, -⟩ := constant_eq_error.mp h
  rfl

theorem failsProperly_getGlobal (k : Nat) : FailsProperly (getGlobal k) := by
  refine (failsProperly_observe _).bind fun found => ?_
  cases found with
  | none => exact (failsProperly_observe _).bind fun _ => failsProperly_throw rfl
  | some v => exact failsProperly_push v

theorem failsProperly_setGlobal (k : Nat) : FailsProperly (setGlobal k) := by
  refine failsProperly_pop.bind fun v m fault m' h => ?_
  obtain ⟨-, rfl, -⟩ := assignGlobal_eq_error.mp h
  rfl

theorem failsProperly_localSlot (k : Nat) : FailsProperly (localSlot k) := by
  intro m fault m' h
  obtain ⟨-, rfl, -⟩ := localSlot_eq_error.mp h
  rfl

theorem failsProperly_getLocal (k : Nat) : FailsProperly (getLocal k) := by
  refine (failsProperly_localSlot k).bind fun slot => (failsProperly_observe _).bind fun found => ?_
  cases found with
  | none => exact failsProperly_throw rfl
  | some v => exact failsProperly_push v

theorem failsProperly_setLocal (k : Nat) : FailsProperly (setLocal k) := by
  refine (failsProperly_localSlot k).bind fun slot => failsProperly_pop.bind fun v => ?_
  intro m fault m' h
  obtain ⟨-, rfl, -⟩ := assignSlot_eq_error.mp h
  rfl

theorem failsProperly_getBuiltin (k : Nat) : FailsProperly (getBuiltin k) := by
  refine (failsProperly_observe _).bind fun found => ?_
  cases found with
  | none => exact (failsProperly_observe _).bind fun _ => failsProperly_throw rfl
  | some b => exact failsProperly_push _

theorem failsProperly_getCaptured (k : Nat) : FailsProperly (getCaptured k) := by
  refine (failsProperly_observe _).bind fun captured => ?_
  cases captured[k]? with
  | none => exact failsProperly_throw rfl
  | some v => exact failsProperly_push v

theorem failsProperly_pushClosure (k n : Nat) : FailsProperly (pushClosure k n) := by
  refine (failsProperly_constant k).bind fun v => ?_
  cases v with
  | function f =>
    exact (failsProperly_popMany n).bind fun _ => (failsProperly_observe _).bind fun _ =>
      (failsProperly_push _).bind fun _ => failsProperly_modify _
  | _ => exact failsProperly_throw rfl

theorem failsProperly_callClosure (c : Closure Value) (n : Nat) :
    FailsProperly (callClosure c n) := by
  intro m fault m' h
  rcases callClosure_eq_error.mp h with ⟨-, rfl, -⟩ | ⟨-, -, rfl, -⟩ | ⟨-, -, -, rfl, -⟩ <;> rfl

theorem failsProperly_callBuiltin (b : Builtin) (n : Nat) : FailsProperly (callBuiltin b n) := by
  refine (failsProperly_observe _).bind fun host => (failsProperly_observe _).bind fun args => ?_
  exact (failsProperly_modify _).bind fun _ => (failsProperly_push _).bind fun _ =>
    failsProperly_pure _

theorem failsProperly_call (n : Nat) : FailsProperly (call n) := by
  refine (failsProperly_observe _).bind fun size => (failsProperly_observe _).bind fun floor => ?_
  by_cases enough : floor + n < size
  · rw [if_pos enough]
    refine (failsProperly_observe _).bind fun found => ?_
    cases found with
    | none => exact failsProperly_throw rfl
    | some callee =>
      cases callee with
      | closure c => exact failsProperly_callClosure c n
      | builtin b => exact failsProperly_callBuiltin b n
      | _ => exact failsProperly_throw rfl
  · rw [if_neg enough]
    exact failsProperly_throw rfl

theorem failsProperly_leave (v : Value) : FailsProperly (leave v) := by
  apply FailsProperly.bind
  · intro m fault m' h
    obtain ⟨-, rfl, -⟩ := popFrame_eq_error.mp h
    rfl
  · exact fun frame => (failsProperly_modify _).bind fun _ => (failsProperly_push v).bind fun _ =>
      (failsProperly_observe _).bind fun _ => failsProperly_pure _

theorem failsProperly_execute (i : Instruction) : FailsProperly (execute i) := by
  have quietly {x : Exec Unit} (hx : FailsProperly x) : FailsProperly (execute.quietly x) :=
    hx.bind fun _ => failsProperly_pure _
  rw [execute]
  cases i.opcode with
  | constant => exact quietly ((failsProperly_constant _).bind failsProperly_push)
  | add | sub | mul | div => exact quietly (failsProperly_binary (.arithmetic _))
  | equal | notEqual | greaterThan =>
    exact quietly (failsProperly_binary fun l r => (Proper.comparison _ l r).map _)
  | index => exact quietly (failsProperly_binary .index)
  | minus => exact quietly (failsProperly_unary .negate)
  | bang => exact quietly (failsProperly_unary fun v => .ok _)
  | pop => exact quietly (failsProperly_pop.map _)
  | pushTrue | pushFalse | pushNull => exact quietly (failsProperly_push _)
  | jump => exact quietly (failsProperly_modify _)
  | jumpNotTruthy => exact quietly (failsProperly_jumpUnlessTruthy _)
  | getGlobal => exact quietly (failsProperly_getGlobal _)
  | setGlobal => exact quietly (failsProperly_setGlobal _)
  | getLocal => exact quietly (failsProperly_getLocal _)
  | setLocal => exact quietly (failsProperly_setLocal _)
  | getBuiltin => exact quietly (failsProperly_getBuiltin _)
  | getFree => exact quietly (failsProperly_getCaptured _)
  | array => exact quietly ((failsProperly_popMany _).bind fun _ => failsProperly_push _)
  | hash =>
    exact quietly ((failsProperly_popMany _).bind fun vs => failsProperly_pushAnswer (.hashOf vs))
  | closure => exact quietly (failsProperly_pushClosure _ _)
  | call => exact (failsProperly_call _).map some
  | returnValue => exact failsProperly_pop.bind fun v => (failsProperly_leave v).map some
  | returnNull => exact (failsProperly_leave .null).map some

end Exec
end BytecodeMachine

import BytecodeMachine.Proofs.Relabelling.Machine

/-!
# Execution under relabelling

An instruction on a relabelled machine ends in the relabelled outcome: with the same event, or with
the same fault. Each part of an instruction corresponds to itself on relabelled operands, and
correspondence passes to sequences of parts. Only calls ask that the host respects the relabelling.
-/

namespace BytecodeMachine

namespace Relabelling

/-- The outcome of a part with its machine relabelled and its answer converted. -/
def outcome (ρ : Relabelling) {α β : Type} (f : α → β) :
    EStateM.Result Fault Machine α → EStateM.Result Fault Machine β
  | .ok a m => .ok (f a) (ρ.machine m)
  | .error fault m => .error fault (ρ.machine m)

end Relabelling

namespace Exec

/-- On relabelled machines the second part ends in the relabelled outcome of the first. -/
def Corresponds (ρ : Relabelling) {α β : Type} (f : α → β) (x : Exec α) (y : Exec β) : Prop :=
  ∀ m, y (ρ.machine m) = ρ.outcome f (x m)

variable {ρ : Relabelling} {α β γ δ : Type} {f : α → β} {g : γ → δ}

theorem bind_outcome {x : Exec α} {y : Exec β} {k : α → Exec γ} {l : β → Exec δ} {m : Machine}
    (h : y (ρ.machine m) = ρ.outcome f (x m)) (h' : ∀ a, Corresponds ρ g (k a) (l (f a))) :
    (y >>= l) (ρ.machine m) = ρ.outcome g ((x >>= k) m) := by
  change EStateM.bind y l (ρ.machine m) = ρ.outcome g (EStateM.bind x k m)
  simp only [EStateM.bind]
  rw [h]
  cases x m with
  | ok a m' => exact h' a m'
  | error fault m' => rfl

theorem Corresponds.bind {x : Exec α} {y : Exec β} {k : α → Exec γ} {l : β → Exec δ}
    (h : Corresponds ρ f x y) (h' : ∀ a, Corresponds ρ g (k a) (l (f a))) :
    Corresponds ρ g (x >>= k) (y >>= l) := fun m => bind_outcome (h m) h'

theorem map_outcome {x y : Exec α} {k : α → γ} {m : Machine}
    (h : y (ρ.machine m) = ρ.outcome id (x m)) :
    (k <$> y) (ρ.machine m) = ρ.outcome id ((k <$> x) m) := by
  change EStateM.map k y (ρ.machine m) = ρ.outcome id (EStateM.map k x m)
  simp only [EStateM.map]
  rw [h]
  cases x m with
  | ok a m' => rfl
  | error fault m' => rfl

theorem corresponds_pure (a : α) : Corresponds ρ f (pure a) (pure (f a)) := fun _ => rfl

theorem corresponds_throw (fault : Fault) : Corresponds ρ f (throw fault) (throw fault) :=
  fun _ => rfl

theorem corresponds_observe {k : Machine → α} {l : Machine → β}
    (h : ∀ m, l (ρ.machine m) = f (k m)) : Corresponds ρ f (observe k) (observe l) :=
  fun m => congrArg (EStateM.Result.ok · (ρ.machine m)) (h m)

/-- What is observed is often a number, which a relabelled machine has in common. -/
theorem corresponds_observing {k : Machine → α} {next : α → Exec γ} {next' : α → Exec δ}
    (h : ∀ m, k (ρ.machine m) = k m)
    (h' : ∀ a, Corresponds ρ g (next a) (next' a)) :
    Corresponds ρ g (observe k >>= next) (observe k >>= next') :=
  (corresponds_observe (f := id) h).bind h'

theorem corresponds_modify {k l : Machine → Machine}
    (h : ∀ m, l (ρ.machine m) = ρ.machine (k m)) :
    Corresponds ρ id (modify k : Exec Unit) (modify l : Exec Unit) :=
  fun m => congrArg (EStateM.Result.ok PUnit.unit) (h m)

theorem corresponds_ofExcept {x : Except Fault α} {y : Except Fault β} (h : y = f <$> x) :
    Corresponds ρ f (MonadExcept.ofExcept x : Exec α) (MonadExcept.ofExcept y : Exec β) := by
  intro m
  subst h
  cases x with
  | ok a => rfl
  | error fault => rfl

/-- Guarded parts correspond if their guards agree and they do so behind the guards. -/
private theorem outcome_guard {p q : Prop} [Decidable p] [Decidable q] {a : p → α} {b : q → β}
    {after : p → Machine} {after' : q → Machine} {e e' : Fault} {m : Machine} (guard : q ↔ p)
    (fault : e' = e) (answer : ∀ h h', b h' = f (a h))
    (rest : ∀ h h', after' h' = ρ.machine (after h)) :
    (if h : q then EStateM.Result.ok (b h) (after' h) else .error e' (ρ.machine m)) =
      ρ.outcome f (if h : p then EStateM.Result.ok (a h) (after h) else .error e m) := by
  subst fault
  by_cases h : p
  · rw [dif_pos h, dif_pos (guard.mpr h), answer h, rest h]
    rfl
  · rw [dif_neg h, dif_neg fun h' => h (guard.mp h')]
    rfl

theorem corresponds_jump (offset : Nat) : Corresponds ρ id (jump offset) (jump offset) :=
  corresponds_modify fun _ => rfl

theorem corresponds_push (v : Value) : Corresponds ρ id (push v) (push (ρ.value v)) := by
  intro m
  apply outcome_guard
  · exact Stack.hasRoom_map ρ.value m.stack
  · exact congrArg Fault.stackOverflow (Stack.capacity_map ρ.value m.stack)
  · intro h h'
    rfl
  · intro h h'
    exact congrArg (fun stack => { ρ.machine m with stack })
      (Stack.push_map ρ.value m.stack v h h')

theorem corresponds_pop : Corresponds ρ ρ.value pop pop := by
  intro m
  apply outcome_guard
  · exact Iff.rfl
  · rfl
  · intro h h'
    exact Stack.top_map ρ.value m.stack _
  · intro h h'
    rfl

theorem corresponds_popMany (n : Nat) :
    Corresponds ρ (Array.map ρ.value) (popMany n) (popMany n) := by
  intro m
  apply outcome_guard
  · exact Iff.rfl
  · rfl
  · intro h h'
    exact Stack.topmost_map ρ.value m.stack n
  · intro h h'
    rfl

theorem corresponds_pushAnswer {x y : Except Fault Value} (h : y = ρ.value <$> x) :
    Corresponds ρ id (do push (← (MonadExcept.ofExcept x : Exec Value)))
      (do push (← (MonadExcept.ofExcept y : Exec Value))) :=
  (corresponds_ofExcept h).bind corresponds_push

theorem corresponds_unary {op : Value → Except Fault Value}
    (h : ∀ v, op (ρ.value v) = ρ.value <$> op v) : Corresponds ρ id (unary op) (unary op) :=
  corresponds_pop.bind fun v => corresponds_pushAnswer (h v)

theorem corresponds_binary {op : Value → Value → Except Fault Value}
    (h : ∀ l r, op (ρ.value l) (ρ.value r) = ρ.value <$> op l r) :
    Corresponds ρ id (binary op) (binary op) :=
  corresponds_pop.bind fun r => corresponds_pop.bind fun l => corresponds_pushAnswer (h l r)

theorem corresponds_jumpUnlessTruthy (offset : Nat) :
    Corresponds ρ id (jumpUnlessTruthy offset) (jumpUnlessTruthy offset) := by
  apply corresponds_pop.bind
  intro condition
  rw [Relabelling.isTruthy_value]
  cases condition.isTruthy with
  | false => exact corresponds_jump offset
  | true => exact corresponds_pure PUnit.unit

theorem corresponds_constant (k : Nat) : Corresponds ρ ρ.value (constant k) (constant k) := by
  apply (corresponds_observe fun m => ρ.get?_pool m.environment.constants k).bind
  intro found
  cases found with
  | none =>
    refine corresponds_observing (fun m => ρ.size_pool m.environment.constants) fun size => ?_
    exact corresponds_throw _
  | some v => exact corresponds_pure v

theorem corresponds_getGlobal (k : Nat) : Corresponds ρ id (getGlobal k) (getGlobal k) := by
  apply (corresponds_observe (f := Option.map ρ.value) fun m => Array.getElem?_map).bind
  intro found
  cases found with
  | none =>
    refine corresponds_observing (fun m => Array.size_map) fun size => ?_
    exact corresponds_throw _
  | some v => exact corresponds_push v

theorem corresponds_assignGlobal (k : Nat) (v : Value) :
    Corresponds ρ id (assignGlobal k v) (assignGlobal k (ρ.value v)) := by
  intro m
  have hsize : (ρ.machine m).globals.size = m.globals.size := Array.size_map
  apply outcome_guard
  · rw [hsize]
  · rw [hsize]
  · intro h h'
    rfl
  · intro h h'
    exact congrArg (fun globals => { ρ.machine m with globals })
      (Array.map_set (f := ρ.value) (a := v) (h := h)).symm

theorem corresponds_setGlobal (k : Nat) : Corresponds ρ id (setGlobal k) (setGlobal k) :=
  corresponds_pop.bind fun v => corresponds_assignGlobal k v

theorem corresponds_localSlot (k : Nat) : Corresponds ρ id (localSlot k) (localSlot k) := by
  refine corresponds_observing (fun m => rfl) fun numSlots => ?_
  by_cases h : k < numSlots
  · rw [if_pos h]
    refine corresponds_observing (fun m => rfl) fun base => ?_
    exact corresponds_pure _
  · rw [if_neg h]
    exact corresponds_throw _

theorem corresponds_getLocal (k : Nat) : Corresponds ρ id (getLocal k) (getLocal k) := by
  apply (corresponds_localSlot k).bind
  intro slot
  apply (corresponds_observe fun m => Stack.get?_map ρ.value m.stack slot).bind
  intro found
  cases found with
  | none => exact corresponds_throw _
  | some v => exact corresponds_push v

theorem corresponds_assignSlot (slot : Nat) (v : Value) :
    Corresponds ρ id (assignSlot slot v) (assignSlot slot (ρ.value v)) := by
  intro m
  apply outcome_guard
  · exact Iff.rfl
  · rfl
  · intro h h'
    rfl
  · intro h h'
    exact congrArg (fun stack => { ρ.machine m with stack })
      (Stack.set_map ρ.value m.stack slot v h)

theorem corresponds_setLocal (k : Nat) : Corresponds ρ id (setLocal k) (setLocal k) :=
  (corresponds_localSlot k).bind fun slot =>
    corresponds_pop.bind fun v => corresponds_assignSlot slot v

theorem corresponds_getBuiltin (k : Nat) : Corresponds ρ id (getBuiltin k) (getBuiltin k) := by
  refine corresponds_observing (fun m => rfl) fun found => ?_
  cases found with
  | none =>
    refine corresponds_observing (fun m => rfl) fun size => ?_
    exact corresponds_throw _
  | some b =>
    have hpush := corresponds_push (ρ := ρ) (.builtin b)
    rwa [Relabelling.value_builtin] at hpush

theorem corresponds_getCaptured (k : Nat) : Corresponds ρ id (getCaptured k) (getCaptured k) := by
  apply (corresponds_observe (f := Array.map ρ.value) fun m => rfl).bind
  intro captured
  simp only [Array.getElem?_map, Array.size_map]
  cases captured[k]? with
  | none => exact corresponds_throw _
  | some v => exact corresponds_push v

theorem corresponds_pushClosure (k n : Nat) :
    Corresponds ρ id (pushClosure k n) (pushClosure k n) := by
  apply (corresponds_constant k).bind
  intro v
  cases v with
  | function f =>
    rw [Relabelling.value_function]
    apply (corresponds_popMany n).bind
    intro captured
    refine corresponds_observing (fun m => rfl) fun created => ?_
    have hclosure : ρ.value (.closure ⟨.created created, f, captured⟩) =
        .closure ⟨.created created, ρ.function f, captured.map ρ.value⟩ := by
      rw [Relabelling.value_closure, Relabelling.closure, ρ.identity_created]
    rw [← hclosure]
    exact (corresponds_push _).bind fun _ => corresponds_modify fun _ => rfl
  | _ =>
    simp only [Relabelling.value_null, Relabelling.value_integer, Relabelling.value_boolean,
      Relabelling.value_string, Relabelling.value_array, Relabelling.value_hash,
      Relabelling.value_closure, Relabelling.value_builtin, Relabelling.value_error]
    exact corresponds_throw _

theorem corresponds_reserve (f : Frame) : Corresponds ρ id (reserve f) (reserve (ρ.frame f)) := by
  intro m
  have hcapacity := Stack.capacity_map ρ.value m.stack
  apply outcome_guard
  · rw [Relabelling.floor_frame, Relabelling.stack_machine, hcapacity]
  · rw [Relabelling.stack_machine, hcapacity]
  · intro h h'
    rfl
  · intro h h'
    exact congrArg (fun stack => { ρ.machine m with stack })
      (Stack.growTo_map m.stack ρ.value_null _ h h')

theorem corresponds_callClosure (c : Closure Value) (n : Nat) :
    Corresponds ρ id (callClosure c n) (callClosure (ρ.closure c) n) := by
  simp only [callClosure]
  by_cases arity : n = c.function.numParameters
  · rw [if_pos arity, if_pos (show n = (ρ.closure c).function.numParameters from arity)]
    refine corresponds_observing (fun m => ρ.depth_calls m.calls) fun depth => ?_
    refine corresponds_observing (fun m => rfl) fun maxFrames => ?_
    by_cases room : depth < maxFrames
    · rw [if_pos room, if_pos room]
      refine corresponds_observing (fun m => rfl) fun size => ?_
      apply (corresponds_reserve (.enter c (size - n))).bind
      intro reserved
      apply Corresponds.bind (f := id)
      · apply corresponds_modify
        exact fun m => congrArg (fun calls => { ρ.machine m with calls })
          (ρ.push_calls m.calls (.enter c (size - n)))
      · exact fun _ => corresponds_pure _
    · rw [if_neg room, if_neg room]
      exact corresponds_throw _
  · rw [if_neg arity, if_neg (show ¬n = (ρ.closure c).function.numParameters from arity)]
    exact corresponds_throw _

/-- A native function answers with the relabelled reply. -/
theorem callBuiltin_outcome (b : Builtin) (n : Nat) {m : Machine}
    (respects : ρ.Respects m.environment.host) :
    callBuiltin b n (ρ.machine m) = ρ.outcome id (callBuiltin b n m) := by
  let reply := m.environment.host b.native (m.stack.topmost n).toList
  let after : Machine :=
    { m with
      stack := m.stack.truncate (m.stack.size - (n + 1))
      printed := m.printed ++ reply.printed }
  have hreply : (ρ.machine m).environment.host b.native ((ρ.machine m).stack.topmost n).toList =
      ρ.reply reply := by
    rw [Relabelling.stack_machine, Stack.topmost_map, Array.toList_map]
    exact respects _ _
  have hprinted : (ρ.machine m).printed ++ (ρ.reply reply).printed = (ρ.machine after).printed := by
    rw [← Array.toList_inj]
    simp [Relabelling.reply, after]
  have hafter : { ρ.machine m with
      stack := (ρ.machine m).stack.truncate ((ρ.machine m).stack.size - (n + 1))
      printed := (ρ.machine m).printed ++ (ρ.reply reply).printed } = ρ.machine after := by
    rw [hprinted]
    rfl
  have hpush : Corresponds ρ id
      (do
        push reply.value
        return Event.calledBuiltin b.name n)
      (do
        push (ρ.value reply.value)
        return Event.calledBuiltin b.name n) :=
    (corresponds_push reply.value).bind fun _ => corresponds_pure _
  simp only [callBuiltin, observe_bind, modify_bind]
  rw [hreply, hafter]
  exact hpush after

theorem call_outcome (n : Nat) {m : Machine} (respects : ρ.Respects m.environment.host) :
    call n (ρ.machine m) = ρ.outcome id (call n m) := by
  simp only [call, observe_bind]
  by_cases h : m.floor + n < m.stack.size
  · rw [if_pos h, if_pos (show (ρ.machine m).floor + n < (ρ.machine m).stack.size from h)]
    simp only [observe_bind, Relabelling.stack_machine, Stack.get?_map, Stack.size_map]
    cases m.stack.get? (m.stack.size - (n + 1)) with
    | none => rfl
    | some v =>
      cases v with
      | closure c =>
        simp only [Option.map_some, Relabelling.value_closure]
        exact corresponds_callClosure c n m
      | builtin b =>
        simp only [Option.map_some, Relabelling.value_builtin]
        exact callBuiltin_outcome b n respects
      | _ =>
        simp
        rfl
  · rw [if_neg h, if_neg (show ¬(ρ.machine m).floor + n < (ρ.machine m).stack.size from h)]
    rfl

theorem corresponds_popFrame : Corresponds ρ ρ.frame popFrame popFrame := by
  intro m
  simp only [popFrame, Relabelling.calls_machine, Relabelling.calls, Array.back?_map]
  cases m.calls.callers.back? with
  | none => rfl
  | some caller =>
    exact congrArg (fun callers => EStateM.Result.ok (ρ.frame m.calls.top)
      { ρ.machine m with calls := ⟨callers, ρ.frame caller⟩ }) Array.map_pop.symm

theorem corresponds_leave (v : Value) : Corresponds ρ id (leave v) (leave (ρ.value v)) := by
  apply corresponds_popFrame.bind
  intro frame
  apply Corresponds.bind (f := id)
  · apply corresponds_modify
    exact fun m => rfl
  · intro truncated
    apply (corresponds_push v).bind
    intro pushed
    refine corresponds_observing (fun m => ρ.depth_calls m.calls) fun depth => ?_
    exact corresponds_pure _

theorem corresponds_leave_null : Corresponds ρ id (leave .null) (leave .null) := by
  have hleave := corresponds_leave (ρ := ρ) .null
  rwa [Relabelling.value_null] at hleave

theorem corresponds_quietly {x : Exec Unit} (h : Corresponds ρ id x x) :
    Corresponds ρ id (execute.quietly x) (execute.quietly x) :=
  h.bind fun _ => corresponds_pure _

theorem corresponds_map {x : Exec α} {y : Exec α} (h : Corresponds ρ id x y) (k : α → γ) :
    Corresponds ρ id (k <$> x) (k <$> y) := fun m => map_outcome (h m)

theorem corresponds_compare (op : Comparison) :
    Corresponds ρ id (execute.compare op) (execute.compare op) := by
  apply corresponds_binary
  intro l r
  rw [Relabelling.comparison_value]
  cases op.values l r with
  | error fault => rfl
  | ok b => exact congrArg Except.ok (ρ.value_boolean b).symm

theorem corresponds_pushPlain {v : Value} (h : ρ.value v = v) :
    Corresponds ρ id (push v) (push v) := by
  have hpush := corresponds_push (ρ := ρ) v
  rwa [h] at hpush

theorem execute_outcome (i : Instruction) {m : Machine}
    (respects : ρ.Respects m.environment.host) :
    execute i (ρ.machine m) = ρ.outcome id (execute i m) := by
  rw [execute]
  cases i.opcode with
  | constant => exact corresponds_quietly ((corresponds_constant _).bind corresponds_push) m
  | add => exact corresponds_quietly (corresponds_binary (ρ.arithmetic_value .add)) m
  | sub => exact corresponds_quietly (corresponds_binary (ρ.arithmetic_value .sub)) m
  | mul => exact corresponds_quietly (corresponds_binary (ρ.arithmetic_value .mul)) m
  | div => exact corresponds_quietly (corresponds_binary (ρ.arithmetic_value .div)) m
  | equal => exact corresponds_quietly (corresponds_compare .equal) m
  | notEqual => exact corresponds_quietly (corresponds_compare .notEqual) m
  | greaterThan => exact corresponds_quietly (corresponds_compare .greaterThan) m
  | minus => exact corresponds_quietly (corresponds_unary ρ.negate_value) m
  | bang =>
    refine corresponds_quietly (corresponds_unary fun v => ?_) m
    rw [Relabelling.isTruthy_value]
    exact congrArg Except.ok (ρ.value_boolean _).symm
  | pop =>
    refine corresponds_quietly ?_ m
    exact corresponds_pop.bind fun _ => corresponds_pure PUnit.unit
  | pushTrue => exact corresponds_quietly (corresponds_pushPlain (ρ.value_boolean true)) m
  | pushFalse => exact corresponds_quietly (corresponds_pushPlain (ρ.value_boolean false)) m
  | pushNull => exact corresponds_quietly (corresponds_pushPlain ρ.value_null) m
  | jump => exact corresponds_quietly (corresponds_jump _) m
  | jumpNotTruthy => exact corresponds_quietly (corresponds_jumpUnlessTruthy _) m
  | getGlobal => exact corresponds_quietly (corresponds_getGlobal _) m
  | setGlobal => exact corresponds_quietly (corresponds_setGlobal _) m
  | getLocal => exact corresponds_quietly (corresponds_getLocal _) m
  | setLocal => exact corresponds_quietly (corresponds_setLocal _) m
  | getBuiltin => exact corresponds_quietly (corresponds_getBuiltin _) m
  | getFree => exact corresponds_quietly (corresponds_getCaptured _) m
  | array =>
    refine corresponds_quietly ((corresponds_popMany _).bind fun elements => ?_) m
    rw [← Relabelling.value_array]
    exact corresponds_push _
  | hash =>
    refine corresponds_quietly ((corresponds_popMany _).bind fun operands => ?_) m
    exact corresponds_pushAnswer (ρ.hashOf_map operands)
  | index => exact corresponds_quietly (corresponds_binary ρ.index_value) m
  | closure => exact corresponds_quietly (corresponds_pushClosure _ _) m
  | call => exact map_outcome (call_outcome _ respects)
  | returnValue =>
    exact corresponds_pop.bind (fun v => corresponds_map (corresponds_leave v) some) m
  | returnNull => exact corresponds_map corresponds_leave_null some m

end Exec
end BytecodeMachine

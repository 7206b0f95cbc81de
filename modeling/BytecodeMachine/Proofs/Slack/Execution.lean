import BytecodeMachine.Proofs.Slack.Machine

/-!
# Execution on machines that are alike

An instruction ends alike on machines that are alike: with the same event or the same fault. Only
where the second machine may be wider, it may go on although the first one has exceeded a bound.
Each part of an instruction ends alike, and so do sequences of such parts.
-/

namespace BytecodeMachine

/-- Whether an index lay behind the end of a table or a limit was exceeded. -/
def Fault.exceedsBound : Fault → Bool
  | constantOutOfRange .. | globalOutOfRange .. | builtinOutOfRange .. | callStackOverflow _
  | stackOverflow _ => true
  | _ => false

/-- The outcomes of one part on two machines. -/
inductive Slack.Outcomes (slack : Slack) {α : Type} :
    EStateM.Result Fault Machine α → EStateM.Result Fault Machine α → Prop where
  | ok {a m m'} (machines : slack.Machines m m') : Outcomes slack (.ok a m) (.ok a m')
  | error {fault m m'} (machines : slack.Machines m m') :
    Outcomes slack (.error fault m) (.error fault m')
  | exceeded {fault m result} (wider : slack.wider) (bound : fault.exceedsBound = true) :
    Outcomes slack (.error fault m) result

namespace Exec

variable {slack : Slack} {α β : Type}

/-- The part ends alike on machines that are alike. -/
def Alike (slack : Slack) (x : Exec α) : Prop :=
  ∀ m m', slack.Machines m m' → slack.Outcomes (x m) (x m')

theorem Alike.bind {x : Exec α} {f : α → Exec β} (hx : Alike slack x)
    (hf : ∀ a, Alike slack (f a)) : Alike slack (x >>= f) := by
  intro m m' machines
  change slack.Outcomes (EStateM.bind x f m) (EStateM.bind x f m')
  simp only [EStateM.bind]
  have houtcomes := hx m m' machines
  generalize x m = result at houtcomes ⊢
  generalize x m' = result' at houtcomes ⊢
  cases houtcomes with
  | ok machines => exact hf _ _ _ machines
  | error machines => exact .error machines
  | exceeded wider bound => exact .exceeded wider bound

theorem Alike.map {x : Exec α} (hx : Alike slack x) (f : α → β) : Alike slack (f <$> x) := by
  intro m m' machines
  change slack.Outcomes (EStateM.map f x m) (EStateM.map f x m')
  simp only [EStateM.map]
  have houtcomes := hx m m' machines
  generalize x m = result at houtcomes ⊢
  generalize x m' = result' at houtcomes ⊢
  cases houtcomes with
  | ok machines => exact .ok machines
  | error machines => exact .error machines
  | exceeded wider bound => exact .exceeded wider bound

theorem alike_pure (a : α) : Alike slack (pure a) := fun _ _ machines => .ok machines

theorem alike_throw (fault : Fault) : Alike slack (throw fault : Exec α) :=
  fun _ _ machines => .error machines

theorem alike_modify {f : Machine → Machine}
    (h : ∀ m m', slack.Machines m m' → slack.Machines (f m) (f m')) :
    Alike slack (modify f : Exec Unit) := fun m m' machines => .ok (h m m' machines)

theorem alike_ofExcept (x : Except Fault α) : Alike slack (MonadExcept.ofExcept x : Exec α) := by
  cases x with
  | ok a => exact alike_pure a
  | error fault => exact alike_throw fault

/-- What is observed is the same on both machines. -/
theorem alike_observing {f : Machine → α} {next : α → Exec β}
    (h : ∀ m m', slack.Machines m m' → f m' = f m) (hnext : ∀ a, Alike slack (next a)) :
    Alike slack (observe f >>= next) := by
  intro m m' machines
  rw [observe_bind, observe_bind, h m m' machines]
  exact hnext (f m) m m' machines

/-- What is observed is an entry of a table, behind which the part fails. -/
theorem alike_lookingUp {f : Machine → Option α} {next : Option α → Exec β}
    (hsome : ∀ m m' a, slack.Machines m m' → f m = some a → f m' = some a)
    (hexact : ∀ m m', slack.Machines m m' → ¬slack.wider → f m' = f m)
    (hfound : ∀ a, Alike slack (next (some a)))
    (hexceeded : ∀ m, ∃ fault, next none m = .error fault m ∧ fault.exceedsBound = true)
    (hmissing : ¬slack.wider → Alike slack (next none)) :
    Alike slack (observe f >>= next) := by
  intro m m' machines
  rw [observe_bind, observe_bind]
  cases found : f m with
  | some a =>
    rw [hsome m m' a machines found]
    exact hfound a m m' machines
  | none =>
    by_cases hwider : slack.wider
    · obtain ⟨fault, hthrow, bound⟩ := hexceeded m
      rw [hthrow]
      exact .exceeded hwider bound
    · rw [hexact m m' machines hwider, found]
      exact hmissing hwider m m' machines

/-- Guarded parts end alike if the second guard is no stronger than the first. -/
private theorem outcomes_guard {p q : Prop} [Decidable p] [Decidable q] {a : p → α} {b : q → α}
    {after : p → Machine} {after' : q → Machine} {e e' : Fault} {m m' : Machine}
    (machines : slack.Machines m m') (guard : p → q)
    (holds : ∀ h h', b h' = a h ∧ slack.Machines (after h) (after' h'))
    (fails : ¬p → slack.wider ∧ e.exceedsBound = true ∨ ¬q ∧ e' = e) :
    slack.Outcomes (if h : p then EStateM.Result.ok (a h) (after h) else .error e m)
      (if h : q then EStateM.Result.ok (b h) (after' h) else .error e' m') := by
  by_cases h : p
  · obtain ⟨answer, hafter⟩ := holds h (guard h)
    rw [dif_pos h, dif_pos (guard h), answer]
    exact .ok hafter
  · rw [dif_neg h]
    rcases fails h with ⟨wider, bound⟩ | ⟨h', rfl⟩
    · exact .exceeded wider bound
    · rw [dif_neg h']
      exact .error machines

theorem alike_jump (offset : Nat) : Alike slack (jump offset) :=
  alike_modify fun m m' machines => { machines with calls_eq := by rw [machines.calls_eq] }

theorem alike_push (v : Value) : Alike slack (push v) := by
  intro m m' machines
  have hsize := machines.stack.size_eq
  have hcapacity := machines.stack.capacity_le
  apply outcomes_guard machines
  · intro h
    omega
  · exact fun h h' => ⟨rfl, machines.of_stack (machines.stack.push v h h')⟩
  · intro full
    by_cases hwider : slack.wider
    · exact .inl ⟨hwider, rfl⟩
    · rw [machines.stack.capacity_eq hwider, hsize]
      exact .inr ⟨full, rfl⟩

theorem alike_pop : Alike slack pop := by
  intro m m' machines
  have hguard : m'.floor < m'.stack.size ↔ m.floor < m.stack.size := by
    rw [machines.floor_eq, machines.stack.size_eq]
  apply outcomes_guard machines
  · exact hguard.mpr
  · exact fun h h' => ⟨machines.stack.top_eq _ _, machines.of_stack machines.stack.pop⟩
  · exact fun h => .inr ⟨mt hguard.mp h, rfl⟩

theorem alike_popMany (n : Nat) : Alike slack (popMany n) := by
  intro m m' machines
  have hguard : n ≤ m'.stack.size - m'.floor ↔ n ≤ m.stack.size - m.floor := by
    rw [machines.floor_eq, machines.stack.size_eq]
  apply outcomes_guard machines
  · exact hguard.mpr
  · intro h h'
    refine ⟨machines.stack.topmost_eq n, machines.of_stack ?_⟩
    rw [machines.stack.size_eq]
    exact machines.stack.truncate _
  · exact fun h => .inr ⟨mt hguard.mp h, rfl⟩

theorem alike_pushAnswer (x : Except Fault Value) :
    Alike slack (do push (← (MonadExcept.ofExcept x : Exec Value))) :=
  (alike_ofExcept x).bind alike_push

theorem alike_unary (f : Value → Except Fault Value) : Alike slack (unary f) :=
  alike_pop.bind fun v => alike_pushAnswer (f v)

theorem alike_binary (f : Value → Value → Except Fault Value) : Alike slack (binary f) :=
  alike_pop.bind fun r => alike_pop.bind fun l => alike_pushAnswer (f l r)

theorem alike_jumpUnlessTruthy (offset : Nat) : Alike slack (jumpUnlessTruthy offset) := by
  apply alike_pop.bind
  intro condition
  cases condition.isTruthy with
  | false => exact alike_jump offset
  | true => exact alike_pure PUnit.unit

theorem alike_constant (k : Nat) : Alike slack (constant k) := by
  apply alike_lookingUp
  · exact fun m m' v machines found => machines.environment.constants.getElem?_eq k v found
  · intro m m' machines hwider
    rw [Pool.get?, Pool.get?, machines.environment.constants.eq hwider]
  · exact fun v => alike_pure v
  · exact fun m => ⟨_, rfl, rfl⟩
  · intro hwider
    refine alike_observing (fun m m' machines => ?_) fun size => alike_throw _
    rw [Pool.size, Pool.size, machines.environment.constants.eq hwider]

theorem alike_getGlobal (k : Nat) : Alike slack (getGlobal k) := by
  apply alike_lookingUp
  · intro m m' v machines found
    have hk := (Array.getElem?_eq_some_iff.mp found).1
    rw [machines.globals.getElem?_eq trivial hk, found]
  · intro m m' machines hwider
    have hsize := machines.globals.size_eq hwider
    rcases Nat.lt_or_ge k m.globals.size with hk | hk
    · exact machines.globals.getElem?_eq trivial hk
    · rw [Array.getElem?_eq_none hk, Array.getElem?_eq_none (by omega)]
  · exact alike_push
  · exact fun m => ⟨_, rfl, rfl⟩
  · intro hwider
    refine alike_observing (fun m m' machines => ?_) fun size => alike_throw _
    exact machines.globals.size_eq hwider

theorem alike_assignGlobal (k : Nat) (v : Value) : Alike slack (assignGlobal k v) := by
  intro m m' machines
  have hsize := machines.globals.size_le
  apply outcomes_guard machines
  · intro h
    omega
  · intro h h'
    exact ⟨rfl, { machines with globals := machines.globals.set v h h' fun _ _ => .inr trivial }⟩
  · intro hk
    by_cases hwider : slack.wider
    · exact .inl ⟨hwider, rfl⟩
    · rw [machines.globals.size_eq hwider]
      exact .inr ⟨hk, rfl⟩

theorem alike_setGlobal (k : Nat) : Alike slack (setGlobal k) :=
  alike_pop.bind (alike_assignGlobal k)

theorem alike_localSlot (k : Nat) : Alike slack (localSlot k) := by
  refine alike_observing (fun m m' machines => by rw [machines.calls_eq]) fun numSlots => ?_
  by_cases h : k < numSlots
  · rw [if_pos h]
    refine alike_observing (fun m m' machines => by rw [machines.calls_eq]) fun base => ?_
    exact alike_pure _
  · rw [if_neg h]
    exact alike_throw _

theorem alike_getLocal (k : Nat) : Alike slack (getLocal k) := by
  apply (alike_localSlot k).bind
  intro slot
  refine alike_observing (fun m m' machines => machines.stack.get?_eq slot) fun found => ?_
  cases found with
  | none => exact alike_throw _
  | some v => exact alike_push v

theorem alike_assignSlot (slot : Nat) (v : Value) : Alike slack (assignSlot slot v) := by
  intro m m' machines
  have hguard : slot < m'.stack.size ↔ slot < m.stack.size := by rw [machines.stack.size_eq]
  apply outcomes_guard machines
  · exact hguard.mpr
  · exact fun h h' => ⟨rfl, machines.of_stack (machines.stack.set slot v h h')⟩
  · exact fun h => .inr ⟨mt hguard.mp h, rfl⟩

theorem alike_setLocal (k : Nat) : Alike slack (setLocal k) :=
  (alike_localSlot k).bind fun slot => alike_pop.bind (alike_assignSlot slot)

theorem alike_getBuiltin (k : Nat) : Alike slack (getBuiltin k) := by
  apply alike_lookingUp
  · exact fun m m' b machines found => machines.environment.builtins.getElem?_eq k b found
  · intro m m' machines hwider
    rw [machines.environment.builtins.eq hwider]
  · exact fun b => alike_push (.builtin b)
  · exact fun m => ⟨_, rfl, rfl⟩
  · intro hwider
    refine alike_observing (fun m m' machines => ?_) fun size => alike_throw _
    rw [machines.environment.builtins.eq hwider]

theorem alike_getCaptured (k : Nat) : Alike slack (getCaptured k) := by
  refine alike_observing (fun m m' machines => by rw [machines.calls_eq]) fun captured => ?_
  cases captured[k]? with
  | none => exact alike_throw _
  | some v => exact alike_push v

theorem alike_pushClosure (k n : Nat) : Alike slack (pushClosure k n) := by
  apply (alike_constant k).bind
  intro v
  cases v with
  | function f =>
    apply (alike_popMany n).bind
    intro captured
    refine alike_observing (fun m m' machines => machines.numCreated_eq) fun created => ?_
    apply (alike_push _).bind
    exact fun _ => alike_modify fun m m' machines =>
      { machines with numCreated_eq := congrArg (· + 1) machines.numCreated_eq }
  | _ => exact alike_throw _

theorem alike_reserve (f : Frame) : Alike slack (reserve f) := by
  intro m m' machines
  have hcapacity := machines.stack.capacity_le
  apply outcomes_guard machines
  · intro h
    omega
  · exact fun h h' => ⟨rfl, machines.of_stack (machines.stack.growTo _ h h')⟩
  · intro full
    by_cases hwider : slack.wider
    · exact .inl ⟨hwider, rfl⟩
    · rw [machines.stack.capacity_eq hwider]
      exact .inr ⟨full, rfl⟩

/-- A deeper stack of calls than the limit may only fit the second machine. -/
theorem alike_enter (c : Closure Value) (n depth : Nat) :
    Alike slack (do
      let maxFrames ← observe (·.environment.maxFrames)
      unless depth < maxFrames do
        throw (.callStackOverflow maxFrames)
      let base := (← observe (·.stack.size)) - n
      let frame := Frame.enter c base
      reserve frame
      modify fun m => { m with calls := m.calls.push frame }
      return Event.called (depth + 1) base n) := by
  have henter : Alike slack (do
      let base := (← observe (·.stack.size)) - n
      let frame := Frame.enter c base
      reserve frame
      modify fun m => { m with calls := m.calls.push frame }
      return Event.called (depth + 1) base n) := by
    refine alike_observing (fun m m' machines => machines.stack.size_eq) fun size => ?_
    refine (alike_reserve _).bind fun _ => Alike.bind ?_ fun _ => alike_pure _
    exact alike_modify fun m m' machines => { machines with calls_eq := by rw [machines.calls_eq] }
  intro m m' machines
  have hle := machines.environment.maxFrames_le
  rw [observe_bind, observe_bind]
  by_cases room : depth < m.environment.maxFrames
  · rw [if_pos room, if_pos (show depth < m'.environment.maxFrames by omega)]
    exact henter m m' machines
  · rw [if_neg room]
    by_cases hwider : slack.wider
    · exact .exceeded hwider rfl
    · rw [machines.environment.maxFrames_eq hwider, if_neg room]
      exact .error machines

theorem alike_callClosure (c : Closure Value) (n : Nat) : Alike slack (callClosure c n) := by
  simp only [callClosure]
  by_cases arity : n = c.function.numParameters
  · rw [if_pos arity]
    refine alike_observing (fun m m' machines => ?_) fun depth => alike_enter c n depth
    rw [machines.calls_eq]
  · rw [if_neg arity]
    exact alike_throw _

theorem alike_callBuiltin (b : Builtin) (n : Nat) : Alike slack (callBuiltin b n) := by
  refine alike_observing (fun m m' machines => machines.environment.host_eq) fun host => ?_
  refine alike_observing (fun m m' machines => machines.stack.topmost_eq n) fun args => ?_
  refine Alike.bind (alike_modify fun m m' machines => ?_) fun _ =>
    (alike_push _).bind fun _ => alike_pure _
  refine { machines with stack := ?_, printed_eq := congrArg (· ++ _) machines.printed_eq }
  rw [machines.stack.size_eq]
  exact machines.stack.truncate _

theorem alike_call (n : Nat) : Alike slack (call n) := by
  refine alike_observing (fun m m' machines => machines.stack.size_eq) fun size => ?_
  refine alike_observing (fun m m' machines => machines.floor_eq) fun floor => ?_
  by_cases enough : floor + n < size
  · rw [if_pos enough]
    refine alike_observing (fun m m' machines => machines.stack.get?_eq _) fun found => ?_
    cases found with
    | none => exact alike_throw _
    | some callee =>
      cases callee with
      | closure c => exact alike_callClosure c n
      | builtin b => exact alike_callBuiltin b n
      | _ => exact alike_throw _
  · rw [if_neg enough]
    exact alike_throw _

theorem alike_popFrame : Alike slack popFrame := by
  intro m m' machines
  simp only [popFrame]
  rw [machines.calls_eq]
  cases m.calls.callers.back? with
  | none => exact .error machines
  | some caller => exact .ok (machines.of_calls _)

theorem alike_leave (v : Value) : Alike slack (leave v) := by
  apply alike_popFrame.bind
  intro frame
  apply Alike.bind
  · exact alike_modify fun m m' machines => machines.of_stack (machines.stack.truncate _)
  · refine fun _ => (alike_push v).bind fun _ => ?_
    refine alike_observing (fun m m' machines => ?_) fun depth => alike_pure _
    rw [machines.calls_eq]

theorem alike_quietly {x : Exec Unit} (h : Alike slack x) : Alike slack (execute.quietly x) :=
  h.bind fun _ => alike_pure _

theorem alike_execute (i : Instruction) : Alike slack (execute i) := by
  rw [execute]
  cases i.opcode with
  | constant => exact alike_quietly ((alike_constant _).bind alike_push)
  | add | sub | mul | div | equal | notEqual | greaterThan | index =>
    exact alike_quietly (alike_binary _)
  | minus | bang => exact alike_quietly (alike_unary _)
  | pop => exact alike_quietly (alike_pop.map _)
  | pushTrue | pushFalse | pushNull => exact alike_quietly (alike_push _)
  | jump => exact alike_quietly (alike_jump _)
  | jumpNotTruthy => exact alike_quietly (alike_jumpUnlessTruthy _)
  | getGlobal => exact alike_quietly (alike_getGlobal _)
  | setGlobal => exact alike_quietly (alike_setGlobal _)
  | getLocal => exact alike_quietly (alike_getLocal _)
  | setLocal => exact alike_quietly (alike_setLocal _)
  | getBuiltin => exact alike_quietly (alike_getBuiltin _)
  | getFree => exact alike_quietly (alike_getCaptured _)
  | array => exact alike_quietly ((alike_popMany _).bind fun _ => alike_push _)
  | hash => exact alike_quietly ((alike_popMany _).bind fun _ => alike_pushAnswer _)
  | closure => exact alike_quietly (alike_pushClosure _ _)
  | call => exact (alike_call _).map some
  | returnValue => exact alike_pop.bind fun v => (alike_leave v).map some
  | returnNull => exact (alike_leave .null).map some

end Exec
end BytecodeMachine

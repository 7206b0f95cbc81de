import BytecodeMachine.Proofs.Execution.Failure
import BytecodeMachine.Proofs.Execution.Faults

/-!
# Demands on the stack

An instruction demands a number of operands of the running frame, once it has found what it looks up
before. If that number is zero and it pushes a value, then it demands room. Calls demand room for
the frame that they enter.
-/

namespace BytecodeMachine

/-- Whether the fault is one of the stack. -/
def Fault.ofStack : Fault → Bool
  | stackOverflow _ | stackUnderflow => true
  | _ => false

theorem Fault.ofStack_of_ofOperands {fault : Fault} (h : fault.ofOperands = true) :
    fault.ofStack = false := by
  cases fault <;> first | rfl | cases h

/-- How many operands the instruction takes from the stack. -/
def Instruction.numOperands (i : Instruction) : Nat :=
  match i.opcode with
  | .add | .sub | .mul | .div | .equal | .notEqual | .greaterThan | .index => 2
  | .minus | .bang | .pop | .jumpNotTruthy | .setGlobal | .setLocal | .returnValue => 1
  | .array | .hash => i.operand 0
  | .closure => i.operand 1
  | .call => i.operand 0 + 1
  | .constant | .pushTrue | .pushFalse | .pushNull | .jump | .returnNull | .getGlobal | .getLocal
  | .getBuiltin | .getFree => 0

/-- What the instruction looks up before it turns to the stack is there. -/
def Machine.Finds (m : Machine) (i : Instruction) : Prop :=
  match i.opcode with
  | .constant => i.operand 0 < m.environment.constants.size
  | .getGlobal => i.operand 0 < m.globals.size
  | .getLocal | .setLocal => i.operand 0 < m.calls.top.numSlots
  | .getBuiltin => i.operand 0 < m.environment.builtins.size
  | .getFree => i.operand 0 < m.calls.top.closure.captured.size
  | .closure => ∃ f, m.environment.constants.get? (i.operand 0) = some (.function f)
  | _ => True

/-- A call with so many arguments enters a closure whose slots the stack cannot hold. -/
def Machine.Overfills (m : Machine) (numArguments : Nat) : Prop :=
  ∃ below args c, m.Supplies below (.closure c :: args) ∧ args.length = numArguments ∧
    args.length = c.function.numParameters ∧ m.calls.depth < m.environment.maxFrames ∧
    m.stack.capacity < below.length + 1 + c.function.numSlots

namespace Exec

variable {α β : Type} {m m' : Machine} {x : Exec α} {f : α → Exec β} {fault : Fault} {k n : Nat}
  {finds pushes : Prop}

/-- The part ends in the fault. -/
def Throws (x : Exec α) (m : Machine) (fault : Fault) : Prop := ∃ m', x m = .error fault m'

theorem throws_bind_iff :
    Throws (x >>= f) m fault ↔
      Throws x m fault ∨ ∃ a m₁, x m = .ok a m₁ ∧ Throws (f a) m₁ fault := by
  simp only [Throws, bind_eq_error]
  constructor
  · rintro ⟨m', h | ⟨a, m₁, hok, h⟩⟩
    · exact .inl ⟨m', h⟩
    · exact .inr ⟨a, m₁, hok, m', h⟩
  · rintro (⟨m', h⟩ | ⟨a, m₁, hok, m', h⟩)
    · exact ⟨m', .inl h⟩
    · exact ⟨m', .inr ⟨a, m₁, hok, h⟩⟩

/-- The part ends in no fault of the stack. -/
def Spares (x : Exec α) (m : Machine) : Prop := ∀ fault, Throws x m fault → fault.ofStack = false

theorem spares_of_ne_error (h : ∀ fault m', x m ≠ .error fault m') : Spares x m := by
  rintro fault ⟨m', herror⟩
  exact absurd herror (h fault m')

theorem Spares.bind (hx : Spares x m) (hf : ∀ a m₁, x m = .ok a m₁ → Spares (f a) m₁) :
    Spares (x >>= f) m := by
  intro fault h
  rcases throws_bind_iff.mp h with h | ⟨a, m₁, hok, h⟩
  · exact hx fault h
  · exact hf a m₁ hok fault h

theorem Spares.map (hx : Spares x m) (g : α → β) : Spares (g <$> x) m := by
  rintro fault ⟨m', h⟩
  exact hx fault ⟨m', map_eq_error.mp h⟩

theorem spares_push (v : Value) (room : m.stack.HasRoom) : Spares (push v) m := by
  refine spares_of_ne_error fun fault m' h => ?_
  exact (push_eq_error.mp h).1 room

theorem spares_pushAnswer {answer : Except Fault Value} (proper : Proper answer)
    (room : m.stack.HasRoom) :
    Spares (do push (← (MonadExcept.ofExcept answer : Exec Value))) m := by
  refine Spares.bind ?_ fun w m₁ hok => ?_
  · rintro fault ⟨m', h⟩
    exact Fault.ofStack_of_ofOperands (proper fault (ofExcept_eq_error.mp h).1)
  · obtain ⟨-, rfl⟩ := ofExcept_eq_ok.mp hok
    exact spares_push w room

theorem spares_leave (v : Value) (returns : m.Returns) : Spares (leave v) m := by
  rintro fault ⟨m', h⟩
  obtain ⟨-, rfl, -⟩ := callers_eq_of_leave_error returns h
  rfl

/-- If it finds what it looks up, the part demands a number of operands of the running frame. If
that number is zero and the part pushes a value, then it demands room. -/
structure Demands (x : Exec α) (m : Machine) (k : Nat) (finds pushes : Prop) : Prop where
  underflow : Throws x m .stackUnderflow ↔ m.stack.size - m.floor < k ∧ finds
  overflow : ∀ capacity, Throws x m (.stackOverflow capacity) ↔
    capacity = m.stack.capacity ∧ (k = 0 ∧ pushes) ∧ finds ∧ m.stack.size = m.stack.capacity

namespace Demands

theorem of_throws {y : Exec β} (h : Demands x m k finds pushes)
    (hthrows : ∀ fault, Throws y m fault ↔ Throws x m fault) : Demands y m k finds pushes :=
  ⟨(hthrows _).trans h.underflow, fun capacity => (hthrows _).trans (h.overflow capacity)⟩

theorem map (h : Demands x m k finds pushes) (g : α → β) : Demands (g <$> x) m k finds pushes :=
  h.of_throws fun _ => exists_congr fun _ => map_eq_error

/-- What follows the part never fails. -/
theorem bind_of_ok (h : Demands x m k finds pushes)
    (hf : ∀ a m fault m', f a m ≠ .error fault m') : Demands (x >>= f) m k finds pushes := by
  refine h.of_throws fun fault => throws_bind_iff.trans (or_iff_left ?_)
  rintro ⟨a, m₁, -, m', herror⟩
  exact hf a m₁ fault m' herror

/-- What is looked up is found, and the part goes on as another one. -/
theorem of_found {y : Exec α} (h : Demands y m k True pushes) (heq : x m = y m) (found : finds) :
    Demands x m k finds pushes := by
  have hthrows : ∀ fault, Throws x m fault ↔ Throws y m fault := fun fault => by
    rw [Throws, Throws, heq]
  simpa only [found] using h.of_throws hthrows

end Demands

theorem Spares.demands (h : Spares x m) (enough : ¬(m.stack.size - m.floor < k ∧ finds))
    (room : ¬((k = 0 ∧ pushes) ∧ finds ∧ m.stack.size = m.stack.capacity)) :
    Demands x m k finds pushes where
  underflow := iff_of_false (fun herror => Bool.noConfusion (h _ herror)) enough
  overflow _ :=
    iff_of_false (fun herror => Bool.noConfusion (h _ herror)) fun full => room full.2

/-- What is looked up is missing, and this is the fault. -/
theorem demands_of_missing (heq : x m = .error fault m') (hfault : fault.ofStack = false)
    (missing : ¬finds) : Demands x m k finds pushes := by
  have spares : Spares x m := by
    rintro other ⟨m₁, hother⟩
    cases heq.symm.trans hother
    exact hfault
  exact spares.demands (fun h => missing h.2) fun h => missing h.2.1

/-- A tail that has room cannot overflow the stack. -/
theorem Spares.demands_of_room (h : Spares x m) (room : m.stack.HasRoom) :
    Demands x m 0 True pushes := by
  refine h.demands (fun few => Nat.not_lt_zero _ few.1) fun full => ?_
  exact Nat.ne_of_lt room full.2.2

theorem demands_push (v : Value) (hpushes : pushes) : Demands (push v) m 0 True pushes := by
  have hsize : m.stack.size ≤ m.stack.capacity := m.stack.size_le
  constructor
  · refine iff_of_false ?_ fun few => Nat.not_lt_zero _ few.1
    rintro ⟨m', h⟩
    cases (push_eq_error.mp h).2.1
  · intro capacity
    constructor
    · rintro ⟨m', h⟩
      obtain ⟨full, heq, -⟩ := push_eq_error.mp h
      cases heq
      exact ⟨rfl, ⟨rfl, hpushes⟩, trivial, by omega⟩
    · rintro ⟨rfl, -, -, full⟩
      exact ⟨m, push_eq_error.mpr ⟨by omega, rfl, rfl⟩⟩

/-- The part takes so many operands from the stack. If there are fewer, it leaves them there. -/
structure Takes (x : Exec α) (m : Machine) (n : Nat) : Prop where
  lacking : m.stack.size - m.floor < n → x m = .error .stackUnderflow m
  taking : n ≤ m.stack.size - m.floor → ∃ a, x m = .ok a { m with stack := m.stack.drop n }

theorem takes_pop : Takes pop m 1 where
  lacking few := pop_eq_error.mpr ⟨by omega, rfl, rfl⟩
  taking enough := by
    have hpos : 0 < m.stack.size := by omega
    exact ⟨m.stack.top hpos, pop_eq_ok.mpr ⟨by omega, dif_pos hpos, rfl⟩⟩

theorem takes_popMany (n : Nat) : Takes (popMany n) m n where
  lacking few := popMany_eq_error.mpr ⟨Nat.not_le.mpr few, rfl, rfl⟩
  taking enough := ⟨m.stack.topmost n, popMany_eq_ok.mpr ⟨enough, rfl, rfl⟩⟩

namespace Takes

/-- Taking operands makes room, so what follows can only lack further operands. -/
theorem demands_bind (h : Takes x m n) (hpos : 0 < n)
    (hf : n ≤ m.stack.size - m.floor → ∀ a,
      Demands (f a) { m with stack := m.stack.drop n } k True True) :
    Demands (x >>= f) m (n + k) True pushes := by
  rcases Nat.lt_or_ge (m.stack.size - m.floor) n with few | enough
  · have hbind : (x >>= f) m = .error .stackUnderflow m := bind_of_error (h.lacking few)
    constructor
    · exact iff_of_true ⟨m, hbind⟩ ⟨by omega, trivial⟩
    · intro capacity
      refine iff_of_false ?_ fun full => by omega
      rintro ⟨m', herror⟩
      cases hbind.symm.trans herror
  · obtain ⟨a, hok⟩ := h.taking enough
    have hbind : (x >>= f) m = f a { m with stack := m.stack.drop n } := bind_of_ok hok
    obtain ⟨underflow, overflow⟩ := hf enough a
    have hsize : m.stack.size ≤ m.stack.capacity := m.stack.size_le
    have hdrop : (m.stack.drop n).size = m.stack.size - n := m.stack.size_drop n
    constructor
    · rw [Throws, hbind]
      refine underflow.trans (and_congr_left' ?_)
      change (m.stack.drop n).size - m.floor < k ↔ _
      omega
    · intro capacity
      rw [Throws, hbind]
      refine iff_of_false (fun herror => ?_) fun full => by omega
      have full : (m.stack.drop n).size = m.stack.capacity := ((overflow capacity).mp herror).2.2.2
      omega

/-- What follows the operands that are taken finds room for a value. -/
theorem demands_spares (h : Takes x m n) (hpos : 0 < n)
    (hf : n ≤ m.stack.size - m.floor → ∀ a, (m.stack.drop n).HasRoom →
      Spares (f a) { m with stack := m.stack.drop n }) :
    Demands (x >>= f) m n True pushes := by
  have hsize : m.stack.size ≤ m.stack.capacity := m.stack.size_le
  refine h.demands_bind (k := 0) hpos fun enough a => ?_
  have room : (m.stack.drop n).HasRoom := by
    rw [Stack.HasRoom, Stack.size_drop, Stack.capacity_drop]
    omega
  exact (hf enough a room).demands_of_room room

end Takes

theorem demands_pop_spares {g : Value → Exec β}
    (hg : 1 ≤ m.stack.size - m.floor → ∀ v, (m.stack.drop 1).HasRoom →
      Spares (g v) { m with stack := m.stack.drop 1 }) :
    Demands (pop >>= g) m 1 True pushes :=
  takes_pop.demands_spares Nat.one_pos hg

theorem demands_pop : Demands pop m 1 True pushes := by
  have hpure : Demands (pop >>= pure) m 1 True pushes :=
    demands_pop_spares fun _ v _ => spares_of_ne_error fun _ _ h => by cases h
  rwa [bind_pure] at hpure

/-- Operands that are popped at once leave room, unless there are none. -/
theorem demands_popMany_bind {g : Array Value → Exec β}
    (none : n = 0 → Demands (g #[]) m 0 True pushes)
    (some : ∀ vs, (m.stack.drop n).HasRoom → Spares (g vs) { m with stack := m.stack.drop n }) :
    Demands (popMany n >>= g) m n True pushes := by
  rcases Nat.eq_zero_or_pos n with rfl | hpos
  · have hempty : m.stack.topmost 0 = #[] := Array.extract_empty_of_stop_le_start (Nat.le_refl _)
    have hpop : popMany 0 m = .ok #[] m :=
      popMany_eq_ok.mpr ⟨Nat.zero_le _, hempty, by rw [Stack.drop_zero]⟩
    exact (none rfl).of_found (bind_of_ok hpop) trivial
  · exact (takes_popMany n).demands_spares hpos fun _ => some

theorem demands_unary {g : Value → Except Fault Value} (h : ∀ v, Proper (g v)) :
    Demands (unary g) m 1 True pushes :=
  demands_pop_spares fun _ v room => spares_pushAnswer (h v) room

theorem demands_binary {g : Value → Value → Except Fault Value} (h : ∀ l r, Proper (g l r)) :
    Demands (binary g) m 2 True pushes :=
  takes_pop.demands_bind Nat.one_pos fun _ r =>
    demands_pop_spares fun _ l room => spares_pushAnswer (h l r) room

theorem demands_jumpUnlessTruthy (offset : Nat) :
    Demands (jumpUnlessTruthy offset) m 1 True pushes := by
  refine demands_pop_spares fun _ condition _ => spares_of_ne_error fun fault m' h => ?_
  cases truth : condition.isTruthy with
  | true =>
    rw [truth] at h
    cases h
  | false =>
    rw [truth] at h
    cases h

theorem demands_array (n : Nat) (hpushes : pushes) :
    Demands (do push (.array (← popMany n))) m n True pushes :=
  demands_popMany_bind (fun _ => demands_push _ hpushes) fun _ room => spares_push _ room

theorem demands_hash (n : Nat) (hpushes : pushes) :
    Demands (do
      let operands ← popMany n
      push (← MonadExcept.ofExcept (Value.hashOf operands))) m n True pushes := by
  refine demands_popMany_bind (fun _ => ?_) fun vs room => spares_pushAnswer (.hashOf vs) room
  exact (demands_push (.hash .empty) hpushes).of_found rfl trivial

/-- What is looked up is pushed. -/
theorem demands_lookup {x : Exec Unit} (hpushes : pushes)
    (hfound : finds → ∃ v, x m = push v m)
    (hmissing : ¬finds → ∃ fault, x m = .error fault m ∧ fault.ofStack = false) :
    Demands x m 0 finds pushes := by
  by_cases found : finds
  · obtain ⟨v, heq⟩ := hfound found
    exact (demands_push v hpushes).of_found heq found
  · obtain ⟨fault, heq, hfault⟩ := hmissing found
    exact demands_of_missing heq hfault found

theorem demands_constant (index : Nat) (hpushes : pushes) :
    Demands (do push (← constant index)) m 0 (index < m.environment.constants.size) pushes := by
  apply demands_lookup hpushes
  · intro found
    have hconstant := constant_eq_ok.mpr ⟨Array.getElem?_eq_getElem found, rfl⟩
    exact ⟨_, bind_of_ok hconstant⟩
  · intro missing
    have hnone := Array.getElem?_eq_none (Nat.le_of_not_lt missing)
    exact ⟨_, bind_of_error (constant_eq_error.mpr ⟨hnone, rfl, rfl⟩), rfl⟩

theorem demands_getGlobal (index : Nat) (hpushes : pushes) :
    Demands (getGlobal index) m 0 (index < m.globals.size) pushes := by
  apply demands_lookup hpushes
  · intro found
    exact ⟨m.globals[index], by simp [getGlobal, found]⟩
  · intro missing
    exact ⟨.globalOutOfRange index m.globals.size, by simp [getGlobal, missing], rfl⟩

theorem demands_getBuiltin (index : Nat) (hpushes : pushes) :
    Demands (getBuiltin index) m 0 (index < m.environment.builtins.size) pushes := by
  apply demands_lookup hpushes
  · intro found
    exact ⟨.builtin m.environment.builtins[index], by simp [getBuiltin, found]⟩
  · intro missing
    exact ⟨.builtinOutOfRange index m.environment.builtins.size, by simp [getBuiltin, missing], rfl⟩

theorem demands_getCaptured (index : Nat) (hpushes : pushes) :
    Demands (getCaptured index) m 0 (index < m.calls.top.closure.captured.size) pushes := by
  apply demands_lookup hpushes
  · intro found
    exact ⟨m.calls.top.closure.captured[index], by simp [getCaptured, found]⟩
  · intro missing
    exact ⟨.capturedOutOfRange index m.calls.top.closure.captured.size,
      by simp [getCaptured, missing], rfl⟩

/-- The local slots of the running frame are live, so a slot that exists is never missing. -/
theorem demands_getLocal (index : Nat) (noWrap : m.calls.top.NoWrap)
    (live : m.floor ≤ m.stack.size) (hpushes : pushes) :
    Demands (getLocal index) m 0 (index < m.calls.top.numSlots) pushes := by
  apply demands_lookup hpushes
  · intro found
    have hslot := localSlot_eq_ok.mpr ⟨found, rfl, rfl⟩
    have hlive : m.calls.top.base + index < m.stack.toList.length := by
      rw [Machine.floor, Frame.floor_eq noWrap] at live
      rw [Stack.length_toList]
      omega
    refine ⟨m.stack.toList[m.calls.top.base + index], ?_⟩
    rw [getLocal, bind_of_ok hslot, observe_bind, Stack.get?_eq_getElem?,
      List.getElem?_eq_getElem hlive]
  · intro missing
    exact ⟨_, bind_of_error (localSlot_eq_error.mpr ⟨missing, rfl, rfl⟩), rfl⟩

theorem demands_setGlobal (index : Nat) : Demands (setGlobal index) m 1 True pushes := by
  refine demands_pop_spares fun _ v _ => ?_
  rintro fault ⟨m', h⟩
  obtain ⟨-, rfl, -⟩ := assignGlobal_eq_error.mp h
  rfl

theorem demands_setLocal (index : Nat) (noWrap : m.calls.top.NoWrap) :
    Demands (setLocal index) m 1 (index < m.calls.top.numSlots) pushes := by
  by_cases found : index < m.calls.top.numSlots
  · have hslot := localSlot_eq_ok.mpr ⟨found, rfl, rfl⟩
    have hassign : Demands (do assignSlot (m.calls.top.base + index) (← pop)) m 1 True pushes := by
      refine demands_pop_spares fun enough v _ => spares_of_ne_error fun fault m' h => ?_
      obtain ⟨hlive, -⟩ := assignSlot_eq_error.mp h
      change ¬m.calls.top.base + index < (m.stack.drop 1).size at hlive
      rw [Machine.floor, Frame.floor_eq noWrap] at enough
      rw [Stack.size_drop] at hlive
      omega
    exact hassign.of_found (bind_of_ok hslot) found
  · have hslot := localSlot_eq_error.mpr ⟨found, rfl, rfl⟩
    exact demands_of_missing (bind_of_error hslot) rfl found

theorem demands_pushClosure (index n : Nat) (hpushes : pushes) :
    Demands (pushClosure index n) m n
      (∃ f, m.environment.constants.get? index = some (.function f)) pushes := by
  cases found : m.environment.constants.get? index with
  | none =>
    have hconstant := constant_eq_error.mpr ⟨found, rfl, rfl⟩
    exact demands_of_missing (bind_of_error hconstant) rfl (by simp)
  | some v =>
    have hconstant := constant_eq_ok.mpr ⟨found, rfl⟩
    cases v with
    | function f =>
      have hcreate : Demands (do
          let captured ← popMany n
          push (.closure ⟨.created (← observe (·.numCreated)), f, captured⟩)
          modify fun m => { m with numCreated := m.numCreated + 1 }) m n True pushes := by
        apply demands_popMany_bind
        · intro _
          have hpush := demands_push (m := m) (.closure ⟨.created m.numCreated, f, #[]⟩) hpushes
          refine (hpush.bind_of_ok fun _ _ _ _ h => ?_).of_found (observe_bind _ _) trivial
          rw [modify_apply] at h
          cases h
        · intro vs room
          refine spares_of_ne_error fun fault m' h => ?_
          rw [observe_bind, bind_eq_error] at h
          rcases h with h | ⟨_, _, -, h⟩
          · exact (push_eq_error.mp h).1 room
          · rw [modify_apply] at h
            cases h
      exact hcreate.of_found (bind_of_ok hconstant) ⟨f, rfl⟩
    | _ => exact demands_of_missing (bind_of_ok hconstant) rfl (by simp)

theorem Demands.quietly {x : Exec Unit} (h : Demands x m k finds pushes) :
    Demands (execute.quietly x) m k finds pushes :=
  h.bind_of_ok fun _ _ _ _ herror => by cases herror

theorem demands_execute {i : Instruction} (noWrap : m.calls.top.NoWrap)
    (live : m.floor ≤ m.stack.size) (returns : m.Returns) (hop : i.opcode ≠ .call) :
    Demands (execute i) m i.numOperands (m.Finds i)
      (i.opcode ≠ .jump ∧ i.opcode ≠ .returnNull) := by
  obtain ⟨op, operands⟩ := i
  cases op with
  | call => exact absurd rfl hop
  | constant => exact (demands_constant _ ⟨nofun, nofun⟩).quietly
  | add | sub | mul | div => exact (demands_binary (.arithmetic _)).quietly
  | equal | notEqual | greaterThan =>
    exact (demands_binary fun l r => (Proper.comparison _ l r).map _).quietly
  | index => exact (demands_binary .index).quietly
  | minus => exact (demands_unary .negate).quietly
  | bang => exact (demands_unary fun v => .ok _).quietly
  | pop => exact (demands_pop.map _).quietly
  | pushTrue | pushFalse | pushNull => exact (demands_push _ ⟨nofun, nofun⟩).quietly
  | jumpNotTruthy => exact (demands_jumpUnlessTruthy _).quietly
  | getGlobal => exact (demands_getGlobal _ ⟨nofun, nofun⟩).quietly
  | setGlobal => exact (demands_setGlobal _).quietly
  | getLocal => exact (demands_getLocal _ noWrap live ⟨nofun, nofun⟩).quietly
  | setLocal => exact (demands_setLocal _ noWrap).quietly
  | getBuiltin => exact (demands_getBuiltin _ ⟨nofun, nofun⟩).quietly
  | getFree => exact (demands_getCaptured _ ⟨nofun, nofun⟩).quietly
  | array => exact (demands_array _ ⟨nofun, nofun⟩).quietly
  | hash => exact (demands_hash _ ⟨nofun, nofun⟩).quietly
  | closure => exact (demands_pushClosure _ _ ⟨nofun, nofun⟩).quietly
  | jump =>
    have spares : Spares (execute ⟨.jump, operands⟩) m :=
      spares_of_ne_error fun _ _ h => by cases h
    exact spares.demands (fun few => Nat.not_lt_zero _ few.1) fun full => full.1.2.1 rfl
  | returnNull =>
    have spares : Spares (execute ⟨.returnNull, operands⟩) m :=
      (spares_leave .null returns).map some
    exact spares.demands (fun few => Nat.not_lt_zero _ few.1) fun full => full.1.2.2 rfl
  | returnValue =>
    exact demands_pop_spares fun _ v _ => (spares_leave v (by exact returns)).map some

theorem throws_call_underflow_iff :
    Throws (call n) m .stackUnderflow ↔ m.stack.size - m.floor < n + 1 := by
  rcases call_cases m n with ⟨few, heq⟩ | ⟨below, callee, args, supplies, rfl, heq⟩
  · exact iff_of_true ⟨m, heq⟩ few
  · refine iff_of_false ?_ (Nat.not_lt.mpr supplies.enough)
    rintro ⟨m', h⟩
    rw [heq] at h
    cases callee with
    | closure c =>
      rcases callClosure_eq_error.mp h with ⟨-, h, -⟩ | ⟨-, -, h, -⟩ | ⟨-, -, -, h, -⟩ <;> cases h
    | builtin b => exact callBuiltin_ne_error supplies.floor_add_lt h
    | _ => cases h

/-- If the slots of closures on the stack cannot wrap, only a frame that is too large overflows the
stack. -/
theorem throws_call_overflow_iff {capacity : Nat}
    (noWrap : ∀ c, .closure c ∈ m.stack.toList → ∀ base ≤ m.stack.size,
      (Frame.enter c base).NoWrap) :
    Throws (call n) m (.stackOverflow capacity) ↔
      capacity = m.stack.capacity ∧ m.Overfills n := by
  have floor_eq {below args : List Value} {c : Closure Value}
      (supplies : m.Supplies below (.closure c :: args)) :
      (Frame.enter c (below.length + 1)).floor = below.length + 1 + c.function.numSlots := by
    refine Frame.floor_eq (noWrap c (by simp [supplies.split]) _ ?_)
    rw [← supplies.base_eq]
    exact Nat.sub_le _ _
  constructor
  · rintro ⟨m', h⟩
    rcases call_cases m n with ⟨-, heq⟩ | ⟨below, callee, args, supplies, rfl, heq⟩
    · cases heq.symm.trans h
    rw [heq] at h
    cases callee with
    | closure c =>
      rcases callClosure_eq_error.mp h with ⟨-, h, -⟩ | ⟨-, -, h, -⟩ | ⟨arity, depth, full, h, -⟩
      · cases h
      · cases h
      · cases h
        rw [supplies.base_eq, floor_eq supplies] at full
        exact ⟨rfl, below, args, c, supplies, rfl, arity, depth, Nat.lt_of_not_le full⟩
    | builtin b => exact absurd h (callBuiltin_ne_error supplies.floor_add_lt)
    | _ => cases h
  · rintro ⟨rfl, below, args, c, supplies, rfl, arity, depth, full⟩
    refine ⟨m, (call_of_supplies supplies).trans (callClosure_eq_error.mpr ?_)⟩
    rw [supplies.base_eq, floor_eq supplies]
    exact .inr (.inr ⟨arity, depth, Nat.not_le_of_lt full, rfl, rfl⟩)

end Exec
end BytecodeMachine

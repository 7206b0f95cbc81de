import BytecodeMachine.Proofs.Execution.Inversion
import BytecodeMachine.Proofs.Objects.Plain

/-!
# Provenance of objects

Instructions make no functions, no builtins, and of closures only the one that a closure instruction
pushes. All other code in a slot or a global was offered by the machine before the step, unless a
native function answered with it.
-/

namespace BytecodeMachine

theorem CallStack.top_mem_frames (calls : CallStack) : calls.top ∈ calls.frames :=
  List.mem_append_right _ (List.mem_singleton_self _)

namespace Machine

/-- The value occurs somewhere in the machine, in a slot that is not live perhaps. -/
inductive Holds (m : Machine) (u : Value) : Prop where
  | constant {v : Value} (member : v ∈ m.environment.constants.values) (inside : u.Occurs v)
  | global {v : Value} (member : v ∈ m.globals) (inside : u.Occurs v)
  | slot {v : Value} (member : v ∈ m.stack.slots) (inside : u.Occurs v)
  | frame {f : Frame} (member : f ∈ m.calls.frames) (inside : u.Occurs (.closure f.closure))

variable {m m' : Machine} {u : Value}

/-- A machine holds nothing more if only its frames go on elsewhere and its stack shrinks. -/
theorem Holds.mono (h : m'.Holds u) (environment : m'.environment = m.environment)
    (globals : m'.globals = m.globals) (slots : m'.stack.slots = m.stack.slots)
    (frames : ∀ f ∈ m'.calls.frames, ∃ g ∈ m.calls.frames, f.closure = g.closure) :
    m.Holds u := by
  cases h with
  | constant member inside => exact .constant (environment ▸ member) inside
  | global member inside => exact .global (globals ▸ member) inside
  | slot member inside => exact .slot (slots ▸ member) inside
  | @frame f member inside =>
    obtain ⟨g, member, closure_eq⟩ := frames f member
    exact .frame member (closure_eq ▸ inside)

theorem mem_frames_jump {offset : Nat} {f : Frame} (h : f ∈ (m.jump offset).calls.frames) :
    f ∈ m.calls.frames ∨ f = { m.calls.top with ip := offset } := by
  rcases List.mem_append.mp h with h | h
  · exact .inl (List.mem_append_left _ h)
  · exact .inr (List.mem_singleton.mp h)

theorem Holds.of_jump {offset : Nat} (h : (m.jump offset).Holds u) : m.Holds u := by
  refine h.mono rfl rfl rfl fun f hf => ?_
  rcases mem_frames_jump hf with hf | rfl
  · exact ⟨f, hf, rfl⟩
  · exact ⟨_, m.calls.top_mem_frames, rfl⟩

theorem Lowers.holds (h : m.Lowers m') (holds : m'.Holds u) : m.Holds u := by
  obtain ⟨n, -, rfl⟩ := h
  exact holds.mono rfl rfl rfl fun f hf => ⟨f, hf, rfl⟩

theorem mem_slots_of_mem_toList {v : Value} (h : v ∈ m.stack.toList) : v ∈ m.stack.slots := by
  rw [Stack.toList_eq_take] at h
  exact Array.mem_toList_iff.mp (List.mem_of_mem_take h)

/-- An instruction finds the value somewhere in the machine, in a slot that is not live perhaps, or
in the tables to which instructions refer. -/
inductive Offers (m : Machine) : Value → Prop where
  | constant {u v : Value} (member : v ∈ m.environment.constants.values) (inside : u.Occurs v) :
    Offers m u
  | builtin {b : Builtin} (member : b ∈ m.environment.builtins) : Offers m (.builtin b)
  | global {u v : Value} (member : v ∈ m.globals) (inside : u.Occurs v) : Offers m u
  | slot {u v : Value} (member : v ∈ m.stack.slots) (inside : u.Occurs v) : Offers m u
  | captured {u v : Value} (member : v ∈ m.calls.top.closure.captured) (inside : u.Occurs v) :
    Offers m u

/-- Objects that a machine offers are in it, for a builtin is no object. -/
theorem Offers.holds (h : m.Offers u) (object : u.identity? ≠ none) : m.Holds u := by
  cases h with
  | constant member inside => exact .constant member inside
  | builtin => exact absurd rfl object
  | global member inside => exact .global member inside
  | slot member inside => exact .slot member inside
  | captured member inside => exact .frame m.calls.top_mem_frames (.captured member inside)

theorem Supplies.offers {below operands : List Value} {v : Value} (h : m.Supplies below operands)
    (hv : v ∈ operands) (hu : u.Occurs v) : m.Offers u := by
  refine .slot (mem_slots_of_mem_toList ?_) hu
  rw [h.split]
  exact List.mem_append_right _ hv

end Machine

variable {m m' : Machine} {i : Instruction} {event : Option Event} {u : Value}

/-- Code in a computed value is offered by the machine. -/
theorem Computes.offers {below operands : List Value} {v : Value}
    (h : Computes m i operands v) (supplies : m.Supplies below operands) (code : u.IsCode)
    (hu : u.Occurs v) : m.Offers u := by
  have absurd_inert {w : Value} (inert : w.Inert) (hu : u.Occurs w) : m.Offers u :=
    absurd hu (inert.not_occurs code)
  cases h with
  | literal op =>
    refine absurd_inert ?_ hu
    revert op
    cases i.opcode <;> rintro ⟨⟩ <;>
      first | exact Value.inert_boolean _ | exact Value.inert_null
  | constant op found => exact .constant (Array.mem_of_getElem? found) hu
  | readGlobal op found => exact .global (Array.mem_of_getElem? found) hu
  | readLocal op slot found =>
    exact .slot (Machine.mem_slots_of_mem_toList (List.mem_of_getElem? found)) hu
  | readBuiltin op found =>
    cases hu
    exact .builtin (Array.mem_of_getElem? found)
  | readCaptured op found => exact .captured (Array.mem_of_getElem? found) hu
  | unary op value => exact absurd_inert (Value.inert_of_unary op value) hu
  | binary op value =>
    rcases Value.inert_or_occurs_of_binary op value with inert | inside
    · exact absurd_inert inert hu
    · exact supplies.offers (List.mem_cons_self) (inside u hu)
  | array op count =>
    cases hu with
    | here => exact code.elim
    | element member inside => exact supplies.offers (Array.mem_toList_iff.mpr member) inside
  | hash op count value =>
    obtain ⟨w, member, inside⟩ := Value.occurs_of_hashOf value code hu
    exact supplies.offers (Array.mem_toList_iff.mpr member) inside

/-- The closure that an instruction creates. -/
structure Creates (m : Machine) (i : Instruction) (c : Closure Value) : Prop where
  opcode_eq : i.opcode = .closure
  identity_eq : c.identity = .created m.numCreated
  found : m.environment.constants.get? (i.operand 0) = some (.function c.function)
  captured : ∃ below, m.Supplies below c.captured.toList
  count : c.captured.size = i.operand 1

/-- The values that an instruction puts into slots of the stack. -/
inductive Introduces (m : Machine) (i : Instruction) : Value → Prop where
  | null : Introduces m i .null
  | assigned {below : List Value} {v : Value} (supplies : m.Supplies below [v]) : Introduces m i v
  | computed {below operands : List Value} {v : Value} (supplies : m.Supplies below operands)
      (value : Computes m i operands v) : Introduces m i v
  | created {c : Closure Value} (creates : Creates m i c) : Introduces m i (.closure c)
  | answered {below args : List Value} {b : Builtin}
      (supplies : m.Supplies below (.builtin b :: args)) :
      Introduces m i (m.environment.host b.native args).value

namespace Stack

variable {α : Type}

theorem mem_slots_push {s : Stack α} {a b : α} (h : s.size < s.capacity)
    (hb : b ∈ (s.push a h).slots) : b = a ∨ b ∈ s.slots :=
  (Array.mem_or_eq_of_mem_set (w := h) hb).symm

theorem mem_slots_set {s : Stack α} {k : Nat} {a b : α} (h : k < s.size)
    (hb : b ∈ (s.set k a h).slots) : b = a ∨ b ∈ s.slots :=
  (Array.mem_or_eq_of_mem_set (w := Nat.lt_of_lt_of_le h s.size_le) hb).symm

theorem mem_slots_growTo [Inhabited α] {s : Stack α} {n : Nat} {b : α} (h : n ≤ s.capacity)
    (hb : b ∈ (s.growTo n h).slots) : b = default ∨ b ∈ s.slots := by
  obtain ⟨j, hj⟩ := Array.getElem?_of_mem hb
  rw [growTo, getElem?_reset] at hj
  split at hj
  · exact .inl (Option.some.inj hj).symm
  · exact .inr (Array.mem_of_getElem? hj)

end Stack

namespace Effect

theorem mem_slots (h : Effect m i event m') {v : Value} (hv : v ∈ m'.stack.slots) :
    Introduces m i v ∨ v ∈ m.stack.slots := by
  cases h with
  | compute supplies value room =>
    rcases Stack.mem_slots_push room hv with rfl | hv
    · exact .inl (.computed supplies value)
    · exact .inr hv
  | assignLocal op supplies slot live =>
    rcases Stack.mem_slots_set live hv with rfl | hv
    · exact .inl (.assigned supplies)
    · exact .inr hv
  | create op found supplies count room =>
    rcases Stack.mem_slots_push room hv with rfl | hv
    · exact .inl (.created ⟨op, rfl, found, ⟨_, supplies⟩, count⟩)
    · exact .inr hv
  | native op supplies count answer room =>
    subst answer
    rcases Stack.mem_slots_push room hv with rfl | hv
    · exact .inl (.answered supplies)
    · exact .inr hv
  | enter op supplies count arity depth room =>
    rcases Stack.mem_slots_growTo room hv with rfl | hv
    · exact .inl .null
    · exact .inr hv
  | leave op supplies resumed room =>
    rcases Stack.mem_slots_push room hv with rfl | hv
    · rcases op with ⟨-, -, rfl⟩ | ⟨-, rfl⟩
      · exact .inl .null
      · exact .inl (.assigned supplies)
    · exact .inr hv
  | discard | jump | pass | branch | assignGlobal => exact .inr hv

theorem mem_globals (h : Effect m i event m') {v : Value} (hv : v ∈ m'.globals) :
    v ∈ m.globals ∨ v ∈ m.stack.slots := by
  cases h with
  | assignGlobal op supplies slot =>
    rcases Array.mem_or_eq_of_mem_set (w := slot) hv with hv | rfl
    · exact .inl hv
    · refine .inr (Machine.mem_slots_of_mem_toList ?_)
      rw [supplies.split]
      exact List.mem_append_right _ (List.mem_singleton_self _)
  | _ => exact .inl hv

/-- A frame was there before, or it is the running one after a jump, or it begins to run a closure
that lay on the stack. -/
theorem mem_frames (h : Effect m i event m') {f : Frame} (hf : f ∈ m'.calls.frames) :
    f ∈ m.calls.frames ∨
      i.opcode.isJump = true ∧ f = { m.calls.top with ip := i.operand 0 } ∨
      f.ip = 0 ∧ .closure f.closure ∈ m.stack.slots := by
  cases h with
  | jump op | branch op =>
    rcases Machine.mem_frames_jump hf with hf | rfl
    · exact .inl hf
    · exact .inr (.inl ⟨by rw [op]; rfl, rfl⟩)
  | enter op supplies count arity depth room =>
    rcases List.mem_append.mp hf with hf | hf
    · refine .inl ?_
      simpa [CallStack.push, CallStack.frames] using hf
    · obtain rfl := List.mem_singleton.mp hf
      refine .inr (.inr ⟨rfl, Machine.mem_slots_of_mem_toList ?_⟩)
      rw [supplies.split]
      exact List.mem_append_right _ List.mem_cons_self
  | leave op supplies resumed room =>
    refine .inl (List.mem_append_left _ ?_)
    rw [resumed, Array.toList_push]
    exact hf
  | compute | discard | pass | assignGlobal | assignLocal | create | native => exact .inl hf

end Effect

/-- Every object in an answer of the host was in the arguments. -/
def Host.Conserves (host : Host) : Prop :=
  ∀ native args (u : Value), u.identity? ≠ none → u.Occurs (host native args).value →
    ∃ v ∈ args, u.Occurs v

theorem Introduces.offers {v : Value} (h : Introduces m i v)
    (answers : ∀ native args, u.Occurs (m.environment.host native args).value →
      ∃ w ∈ args, u.Occurs w)
    (code : u.IsCode) (hu : u.Occurs v) : m.Offers u ∨ ∃ c, u = .closure c ∧ Creates m i c := by
  cases h with
  | null => exact absurd hu (Value.inert_null.not_occurs code)
  | assigned supplies => exact .inl (supplies.offers (List.mem_singleton_self _) hu)
  | computed supplies value => exact .inl (value.offers supplies code hu)
  | @created c creates =>
    cases hu with
    | here => exact .inr ⟨c, rfl, creates⟩
    | code inside => exact .inl (.constant (Array.mem_of_getElem? creates.found) inside)
    | captured member inside =>
      obtain ⟨below, supplies⟩ := creates.captured
      exact .inl (supplies.offers (Array.mem_toList_iff.mpr member) inside)
  | answered supplies =>
    obtain ⟨w, member, inside⟩ := answers _ _ hu
    exact .inl (supplies.offers (List.mem_cons_of_mem _ member) inside)

/-- Code in a slot or a global was offered before, or the instruction created it. -/
theorem Effect.offers (h : Effect m i event m')
    (answers : ∀ native args, u.Occurs (m.environment.host native args).value →
      ∃ w ∈ args, u.Occurs w)
    (code : u.IsCode) {v : Value} (hv : v ∈ m'.globals ∨ v ∈ m'.stack.slots) (hu : u.Occurs v) :
    m.Offers u ∨ ∃ c, u = .closure c ∧ Creates m i c := by
  rcases hv with hv | hv
  · rcases h.mem_globals hv with member | member
    · exact .inl (.global member hu)
    · exact .inl (.slot member hu)
  · rcases h.mem_slots hv with introduces | member
    · exact introduces.offers answers code hu
    · exact .inl (.slot member hu)

/-- An object in the machine was there before, or the instruction created it. -/
theorem Effect.holds (h : Effect m i event m') (conserves : m.environment.host.Conserves)
    (object : u.identity? ≠ none) (hu : m'.Holds u) :
    m.Holds u ∨ ∃ c, u = .closure c ∧ Creates m i c := by
  have answers := fun native args => conserves native args u object
  have code := Value.isCode_of_identity? object
  cases hu with
  | constant member inside =>
    rw [h.environment_eq] at member
    exact .inl (.constant member inside)
  | global member inside =>
    exact (h.offers answers code (.inl member) inside).imp (·.holds object) id
  | slot member inside =>
    exact (h.offers answers code (.inr member) inside).imp (·.holds object) id
  | frame member inside =>
    rcases h.mem_frames member with member | ⟨-, rfl⟩ | ⟨-, member⟩
    · exact .inl (.frame member inside)
    · exact .inl (.frame m.calls.top_mem_frames inside)
    · exact .inl (.slot member inside)

end BytecodeMachine

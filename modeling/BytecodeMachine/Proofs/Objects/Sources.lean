import BytecodeMachine.Proofs.Frames.Layout

/-!
# Sources of code

Only a program's own code runs. Whatever a machine keeps in its globals, on its stack and in the
frames above the main one, the functions in it occur in the pool, the closures occur there too or
were created by the run over functions of the pool, and the builtins occur there or are registered.
The main closure is in the outermost frame and nowhere else.
-/

namespace BytecodeMachine

/-- The value occurs in a constant. -/
def Pool.Contains (pool : Pool) (u : Value) : Prop := ∃ v ∈ pool.values, u.Occurs v

/-- The closures that the frames run, outermost first. -/
def CallStack.closures (calls : CallStack) : List (Closure Value) :=
  calls.frames.map Frame.closure

namespace Machine

/-- The value occurs in a global, in a slot of the stack, live or not, or in the closure of a frame
above the main one. -/
inductive Keeps (m : Machine) (u : Value) : Prop where
  | global {v : Value} (member : v ∈ m.globals) (inside : u.Occurs v)
  | slot {v : Value} (member : v ∈ m.stack.slots) (inside : u.Occurs v)
  | frame {f : Frame} (member : f ∈ m.calls.inner) (inside : u.Occurs (.closure f.closure))

/-- The next step creates the closure, of a function of the pool and of as many values as its
instruction says. -/
structure Instantiates (s : Machine) (pool : Pool) (c : Closure Value) : Prop where
  makes : s.Makes c
  instruction_eq : ∃ k n, s.instruction? = some ⟨.closure, [k, n]⟩ ∧
    pool.get? k = some (.function c.function) ∧ c.captured.size = n

/-- Where code comes from that a machine with a past keeps. -/
inductive Source (p : Program) (builtins : Array Builtin) (past : List Machine) : Value → Prop where
  | pool {u : Value} (contains : p.constants.Contains u) : Source p builtins past u
  | registry {b : Builtin} (member : b ∈ builtins) : Source p builtins past (.builtin b)
  | created {s : Machine} {c : Closure Value} (member : s ∈ past)
      (instantiates : s.Instantiates p.constants c) : Source p builtins past (.closure c)

/-- Only the program's own code runs. -/
structure RunsOwnCode (p : Program) (builtins : Array Builtin) (past : List Machine)
    (m : Machine) : Prop where
  main : ∃ f, m.calls.frames.head? = some f ∧ f.closure = mainClosure p
  main_not_kept : ¬m.Keeps (.function (mainClosure p).function)
  function : ∀ f, m.Keeps (.function f) → p.constants.Contains (.function f)
  closure : ∀ c, m.Keeps (.closure c) → p.constants.Contains (.closure c) ∨
    ∃ s ∈ past, s.Instantiates p.constants c
  builtin : ∀ b, m.Keeps (.builtin b) → b ∈ builtins ∨ p.constants.Contains (.builtin b)
  frames : ∀ f ∈ m.calls.inner, p.constants.Contains (.function f.closure.function)

variable {p : Program} {setup : Setup} {builtins : Array Builtin} {past past' : List Machine}
  {m m' : Machine} {i : Instruction} {event : Option Event} {u : Value} {offset : Nat}

theorem Source.mono (h : Source p builtins past u) (subset : past ⊆ past') :
    Source p builtins past' u := by
  cases h with
  | pool contains => exact .pool contains
  | registry member => exact .registry member
  | created member instantiates => exact .created (subset member) instantiates

theorem closures_jump : (m.jump offset).calls.closures = m.calls.closures := by
  simp [CallStack.closures, CallStack.frames, jump]

theorem closures_ne_nil : m.calls.closures ≠ [] := by
  simp [CallStack.closures, CallStack.frames]

end Machine

/-- The frames run the closures that they ran before, but for one that was entered or left. -/
theorem Effect.closures_cases {m m' : Machine} {i : Instruction} {event : Option Event}
    (h : Effect m i event m') :
    m'.calls.closures = m.calls.closures ∨
      (∃ c, .closure c ∈ m.stack.slots ∧ m'.calls.closures = m.calls.closures ++ [c]) ∨
      ∃ c, m.calls.closures = m'.calls.closures ++ [c] := by
  cases h with
  | jump | branch => exact .inl Machine.closures_jump
  | @enter below args c op supplies count arity depth room =>
    refine .inr (.inl ⟨c, Machine.mem_slots_of_mem_toList ?_, ?_⟩)
    · rw [supplies.split]
      exact List.mem_append_right _ List.mem_cons_self
    · simp [CallStack.closures, CallStack.frames, CallStack.push, Frame.enter]
  | @leave callers caller below popped v op supplies resumed room =>
    refine .inr (.inr ⟨m.calls.top.closure, ?_⟩)
    simp [CallStack.closures, CallStack.frames, resumed]
  | compute | discard | pass | assignGlobal | assignLocal | create | native => exact .inl rfl

namespace Machine

variable {p : Program} {setup : Setup} {builtins : Array Builtin} {past past' : List Machine}
  {m m' : Machine} {i : Instruction} {event : Option Event} {u : Value} {offset : Nat}

/-- The outermost frame never runs another closure. -/
theorem Reachable.head?_closures (h : Reachable p setup m) :
    m.calls.closures.head? = some (mainClosure p) := by
  induction h with
  | loaded | started => rfl
  | @stepped m h ih =>
    rcases effect_or_lowers h.fits.framesRooted.returns with
      ⟨offset, i, event, effect⟩ | ⟨offset, n, -, heq⟩
    · rcases effect.closures_cases with same | ⟨c, -, entered⟩ | ⟨c, left⟩
      · rw [same, closures_jump, ih]
      · rw [entered, closures_jump, List.head?_append, ih, Option.some_or]
      · rw [closures_jump] at left
        rw [left, List.head?_append_of_ne_nil _ closures_ne_nil] at ih
        exact ih
    · rw [heq]
      exact closures_jump ▸ ih

/-- Without a caller the main closure runs. -/
theorem Reachable.closure_of_outermost (h : Reachable p setup m) (outermost : m.calls.depth = 1) :
    m.calls.top.closure = mainClosure p := by
  have hcallers : m.calls.callers = #[] := Array.eq_empty_of_size_eq_zero (Nat.succ.inj outermost)
  have head := h.head?_closures
  rw [CallStack.closures, CallStack.frames, hcallers] at head
  exact Option.some.inj head

theorem Keeps.of_closure {c : Closure Value} (member : c ∈ m.calls.closures.tail)
    (inside : u.Occurs (.closure c)) : m.Keeps u := by
  rw [CallStack.closures, ← List.map_tail, List.mem_map] at member
  obtain ⟨f, member, rfl⟩ := member
  exact .frame member inside

theorem mem_tail_closures {f : Frame} (h : f ∈ m.calls.inner) :
    f.closure ∈ m.calls.closures.tail := by
  rw [CallStack.closures, ← List.map_tail]
  exact List.mem_map_of_mem h

/-- What a machine offers is kept or stands in a table, for the main closure captures nothing. -/
theorem Offers.source (h : m.Offers u) (head : m.calls.closures.head? = some (mainClosure p))
    (constants : m.environment.constants = p.constants) (past : List Machine) :
    m.Keeps u ∨ Source p m.environment.builtins past u := by
  cases h with
  | constant member inside => exact .inr (.pool ⟨_, constants ▸ member, inside⟩)
  | builtin member => exact .inr (.registry member)
  | global member inside => exact .inl (.global member inside)
  | slot member inside => exact .inl (.slot member inside)
  | captured member inside =>
    -- The running closure is the main one, or that of a frame which the machine keeps.
    cases hcallers : m.calls.callers.toList with
    | nil =>
      have htop : m.calls.top.closure = mainClosure p := by
        simpa [CallStack.closures, CallStack.frames, hcallers] using head
      rw [htop] at member
      exact absurd member (Array.not_mem_empty _)
    | cons f callers =>
      refine .inl (.frame (f := m.calls.top) ?_ (.captured member inside))
      simp [CallStack.inner, CallStack.frames, hcallers]

theorem Keeps.mono (h : m'.Keeps u) (globals : m'.globals = m.globals)
    (slots : m'.stack.slots = m.stack.slots) (closures : m'.calls.closures = m.calls.closures) :
    m.Keeps u := by
  cases h with
  | global member inside => exact .global (globals ▸ member) inside
  | slot member inside => exact .slot (slots ▸ member) inside
  | frame member inside => exact .of_closure (closures ▸ mem_tail_closures member) inside

/-- Code that is kept after an instruction was kept before, or it comes from a table, or the
instruction created it. -/
theorem Keeps.of_effect (h : m'.Keeps u) (effect : Effect m i event m')
    (head : m.calls.closures.head? = some (mainClosure p))
    (constants : m.environment.constants = p.constants)
    (answers : ∀ native args, u.Occurs (m.environment.host native args).value →
      ∃ w ∈ args, u.Occurs w)
    (code : u.IsCode) (past : List Machine) :
    (m.Keeps u ∨ Source p m.environment.builtins past u) ∨ ∃ c, u = .closure c ∧ Creates m i c := by
  cases h with
  | global member inside =>
    exact (effect.offers answers code (.inl member) inside).imp (·.source head constants past) id
  | slot member inside =>
    exact (effect.offers answers code (.inr member) inside).imp (·.source head constants past) id
  | frame member inside =>
    refine .inl (.inl ?_)
    have hc := mem_tail_closures member
    rcases effect.closures_cases with same | ⟨c, slot, entered⟩ | ⟨c, left⟩
    · exact .of_closure (same ▸ hc) inside
    · rw [entered, List.tail_append_of_ne_nil closures_ne_nil] at hc
      rcases List.mem_append.mp hc with hc | hc
      · exact .of_closure hc inside
      · exact .slot slot (List.mem_singleton.mp hc ▸ inside)
    · refine .of_closure ?_ inside
      rw [left, List.tail_append_of_ne_nil closures_ne_nil]
      exact List.mem_append_left _ hc

theorem Instantiates.of_creates {pool : Pool} {c : Closure Value} {events : List Event}
    (found : m.instruction? = some i) (effect : Effect (m.pass i) i event m')
    (next : m.step = .continued m' events) (creates : Creates (m.pass i) i c)
    (constants : m.environment.constants = pool) : m.Instantiates pool c where
  makes := .of_creates found effect next creates
  instruction_eq := ⟨_, _,
    found.trans (congrArg some (eq_of_opcode_operands found creates.opcode_eq rfl)),
    constants ▸ creates.found, creates.count⟩

/-- The next step is a closure instruction that succeeds and creates the closure. -/
inductive CreatesNext (m : Machine) (c : Closure Value) : Prop where
  | intro {i : Instruction} {event : Option Event} {m' : Machine} {events : List Event}
    (found : m.instruction? = some i) (effect : Effect (m.pass i) i event m')
    (next : m.step = .continued m' events) (creates : Creates (m.pass i) i c)

/-- Code that is kept after a step was kept before, or it comes from a table, or the step created
it. -/
theorem Keeps.step_cases (h : m.step.machine.Keeps u) (reachable : Reachable p setup m)
    (answers : ∀ native args, u.Occurs (setup.host native args).value → ∃ w ∈ args, u.Occurs w)
    (code : u.IsCode) (past : List Machine) :
    (m.Keeps u ∨ Source p setup.builtins past u) ∨ ∃ c, u = .closure c ∧ m.CreatesNext c := by
  have environment := reachable.fits.environment_eq
  have constants : m.environment.constants = p.constants := by rw [environment]; rfl
  have builtins : m.environment.builtins = setup.builtins := by rw [environment]; rfl
  have host : m.environment.host = setup.host := by rw [environment]; rfl
  have head := reachable.head?_closures
  rw [← host] at answers
  rw [← builtins]
  cases hstep : m.step with
  | continued m' events =>
    rw [hstep] at h
    cases continues_of_step hstep with
    | @dispatch i event m' found effect =>
      rcases h.of_effect effect (closures_jump ▸ head) constants answers code past with
        (keeps | source) | ⟨c, rfl, creates⟩
      · exact .inl (.inl (keeps.mono rfl rfl closures_jump))
      · exact .inl (.inr source)
      · exact .inr ⟨c, rfl, .intro found effect hstep creates⟩
    | finish beyond inner effect =>
      rcases h.of_effect effect head constants answers code past with keeps | ⟨c, rfl, creates⟩
      · exact .inl keeps
      · cases creates.opcode_eq
  | ended m' =>
    rw [hstep] at h
    obtain rfl := eq_of_step_ended hstep
    exact .inl (.inl h)
  | failed m' error events =>
    rw [hstep] at h
    obtain ⟨offset, n, -, rfl⟩ := lowers_of_step reachable.fits.framesRooted.returns hstep
    exact .inl (.inl (h.mono rfl rfl closures_jump))

theorem Keeps.of_step (h : m.step.machine.Keeps u) (reachable : Reachable p setup m)
    (answers : ∀ native args, u.Occurs (setup.host native args).value → ∃ w ∈ args, u.Occurs w)
    (code : u.IsCode) (past : List Machine) :
    m.Keeps u ∨ Source p setup.builtins (m :: past) u := by
  rcases h.step_cases reachable answers code (m :: past) with
    kept | ⟨c, rfl, ⟨found, effect, next, creates⟩⟩
  · exact kept
  · have constants : m.environment.constants = p.constants := by
      rw [reachable.fits.environment_eq]
      rfl
    exact .inr (.created List.mem_cons_self (.of_creates found effect next creates constants))

theorem Keeps.eq_null_of_load (h : (load p setup).Keeps u) : u = .null := by
  cases h with
  | global member inside => exact Value.eq_null_of_mem_replicate member inside
  | slot member inside => exact Value.eq_null_of_mem_replicate member inside
  | frame member => cases member

theorem Reached.source (h : Reached p setup past m)
    (answers : ∀ native args, u.Occurs (setup.host native args).value → ∃ w ∈ args, u.Occurs w)
    (code : u.IsCode) (keeps : m.Keeps u) : Source p setup.builtins past u := by
  induction h with
  | loaded =>
    obtain rfl := keeps.eq_null_of_load
    exact code.elim
  | started =>
    obtain rfl := Keeps.eq_null_of_load (keeps.mono rfl rfl rfl : (load p setup).Keeps u)
    exact code.elim
  | @stepped past m h ih =>
    rcases keeps.of_step h.reachable answers code past with keeps | source
    · exact (ih keeps).mono (List.subset_cons_self _ _)
    · exact source

theorem runsOwnCode_of_reached {limits : Limits}
    (h : Reached p ⟨limits, builtins, Host.standard⟩ past m) : RunsOwnCode p builtins past m := by
  have source {u : Value} (keeps : m.Keeps u) (code : u.IsCode) : Source p builtins past u :=
    h.source (Host.standard_answers code) code keeps
  have function (f : Function) (keeps : m.Keeps (.function f)) :
      p.constants.Contains (.function f) := by
    cases source keeps trivial with
    | pool contains => exact contains
  constructor
  case main =>
    have head := h.reachable.head?_closures
    rw [CallStack.closures, List.head?_map] at head
    exact Option.map_eq_some_iff.mp head
  case main_not_kept =>
    intro keeps
    obtain ⟨v, member, inside⟩ := function _ keeps
    exact Identity.not_isGiven_main (p.constants.given v member _ inside _ rfl)
  case function => exact function
  case closure =>
    intro c keeps
    cases source keeps trivial with
    | pool contains => exact .inl contains
    | created member instantiates => exact .inr ⟨_, member, instantiates⟩
  case builtin =>
    intro b keeps
    cases source keeps trivial with
    | pool contains => exact .inr contains
    | registry member => exact .inl member
  case frames => exact fun f member => function _ (.frame member (.code .here))

theorem runsOwnCode_callOnce :
    ∃ past, Reached callOnce { limits := ⟨8, 1, 2⟩ } past (callOnceAfter 6) ∧
      (callOnceAfter 6).calls.depth = 2 ∧
      RunsOwnCode callOnce Builtin.standard past (callOnceAfter 6) := by
  obtain ⟨past, h⟩ := (reachable_callOnceAfter 6).exists_reached
  exact ⟨past, h, by rfl, runsOwnCode_of_reached h⟩

end Machine
end BytecodeMachine

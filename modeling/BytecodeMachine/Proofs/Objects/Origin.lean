import BytecodeMachine.Proofs.Frames.Rooted
import BytecodeMachine.Proofs.Objects.Provenance

/-!
# Origins of functions and closures

A closure that a machine holds after a run is the main one, lay in the pool, or was pushed by a
closure instruction of the run, over the values that the instruction took off the stack. A function
is the main one or lay in the pool.
-/

namespace BytecodeMachine

namespace Value

variable {u : Value}

theorem occurs_element {elements : Array Value} (code : u.IsCode)
    (hu : u.Occurs (array elements)) : ∃ v ∈ elements, u.Occurs v := by
  cases hu with
  | here => exact code.elim
  | element member inside => exact ⟨_, member, inside⟩

/-- Nothing but null is in parts that no instruction has written to. -/
theorem eq_null_of_mem_replicate {n : Nat} {v : Value} (hv : v ∈ Array.replicate n null)
    (hu : u.Occurs v) : u = null := by
  obtain rfl := (Array.mem_replicate.mp hv).2
  cases hu
  rfl

end Value

namespace Native

variable {u : Value} {args : List Value}

/-- Code in the answer of a native function was in the arguments. -/
private theorem occurs_of_onArray {native : String} {f : Array Value → Value} (code : u.IsCode)
    (hf : ∀ elements, u.Occurs (f elements) → u.Occurs (.array elements))
    (hu : u.Occurs (onArray native f args)) : ∃ v ∈ args, u.Occurs v := by
  simp only [onArray] at hu
  split at hu
  · exact ⟨_, List.mem_singleton_self _, hf _ hu⟩
  · exact absurd hu ((Value.inert_error _).not_occurs code)
  · exact absurd hu ((Value.inert_error _).not_occurs code)

private theorem occurs_of_getD {elements : Array Value} {found : Option Value} (code : u.IsCode)
    (hfound : ∀ v ∈ found, v ∈ elements) (hu : u.Occurs (found.getD .null)) :
    u.Occurs (.array elements) := by
  cases found with
  | none => exact absurd hu (Value.inert_null.not_occurs code)
  | some v => exact .element (hfound v rfl) hu

theorem occurs_of_len (code : u.IsCode) (hu : u.Occurs (len args)) : ∃ v ∈ args, u.Occurs v := by
  simp only [len] at hu
  split at hu
  · exact absurd hu ((Value.inert_integer _).not_occurs code)
  · exact absurd hu ((Value.inert_integer _).not_occurs code)
  · exact absurd hu ((Value.inert_error _).not_occurs code)
  · exact absurd hu ((Value.inert_error _).not_occurs code)

theorem occurs_of_first (code : u.IsCode) (hu : u.Occurs (first args)) :
    ∃ v ∈ args, u.Occurs v :=
  occurs_of_onArray code
    (fun _ h => occurs_of_getD code (fun _ hv => Array.mem_of_getElem? hv) h) hu

theorem occurs_of_last (code : u.IsCode) (hu : u.Occurs (last args)) :
    ∃ v ∈ args, u.Occurs v :=
  occurs_of_onArray code
    (fun _ h => occurs_of_getD code (fun _ hv => Array.mem_of_back? hv) h) hu

theorem occurs_of_rest (code : u.IsCode) (hu : u.Occurs (rest args)) :
    ∃ v ∈ args, u.Occurs v := by
  refine occurs_of_onArray code (fun elements h => ?_) hu
  split at h
  · exact absurd h (Value.inert_null.not_occurs code)
  · obtain ⟨v, member, inside⟩ := Value.occurs_element code h
    obtain ⟨k, hk, rfl⟩ := Array.mem_extract_iff_getElem.mp member
    exact .element (Array.getElem_mem _) inside

theorem occurs_of_push (code : u.IsCode) (hu : u.Occurs (push args)) :
    ∃ v ∈ args, u.Occurs v := by
  simp only [push] at hu
  split at hu
  · next elements v =>
    obtain ⟨w, member, inside⟩ := Value.occurs_element code hu
    rcases Array.mem_push.mp member with member | rfl
    · exact ⟨_, List.mem_cons_self, .element member inside⟩
    · exact ⟨_, List.mem_cons_of_mem _ (List.mem_singleton_self _), inside⟩
  · exact absurd hu ((Value.inert_error _).not_occurs code)
  · exact absurd hu ((Value.inert_error _).not_occurs code)

end Native

/-- What holds of each standard function, and of answering with an error, holds of the host. -/
theorem Host.standard_cases {P : (List Value → Reply) → Prop}
    (len : P fun args => ⟨Native.len args, []⟩) (puts : P fun args => ⟨.null, args⟩)
    (first : P fun args => ⟨Native.first args, []⟩) (last : P fun args => ⟨Native.last args, []⟩)
    (rest : P fun args => ⟨Native.rest args, []⟩) (push : P fun args => ⟨Native.push args, []⟩)
    (unknown : ∀ message, P fun _ => ⟨.error message, []⟩) (native : String) :
    P (Host.standard native) := by
  unfold Host.standard
  cases found : Native.standard.lookup native with
  | none => exact unknown _
  | some f =>
    obtain ⟨before, after, heq, -⟩ := List.lookup_eq_some_iff.mp found
    have member : (native, f) ∈ Native.standard := by simp [heq]
    simp only [Native.standard, List.mem_cons, Prod.mk.injEq, List.not_mem_nil, or_false] at member
    rcases member with ⟨-, rfl⟩ | ⟨-, rfl⟩ | ⟨-, rfl⟩ | ⟨-, rfl⟩ | ⟨-, rfl⟩ | ⟨-, rfl⟩
    · exact len
    · exact puts
    · exact first
    · exact last
    · exact rest
    · exact push

/-- The standard host answers with no code but what its arguments hold. -/
theorem Host.standard_answers {u : Value} (code : u.IsCode) (native : String) (args : List Value)
    (hu : u.Occurs (standard native args).value) : ∃ v ∈ args, u.Occurs v := by
  revert args
  apply Host.standard_cases (P := fun f => ∀ args, u.Occurs (f args).value → ∃ v ∈ args, u.Occurs v)
  case len => exact fun args => Native.occurs_of_len code
  case puts => exact fun args hu => absurd hu (Value.inert_null.not_occurs code)
  case first => exact fun args => Native.occurs_of_first code
  case last => exact fun args => Native.occurs_of_last code
  case rest => exact fun args => Native.occurs_of_rest code
  case push => exact fun args => Native.occurs_of_push code
  case unknown =>
    exact fun message args hu => absurd hu ((Value.inert_error _).not_occurs code)

theorem Host.standard_conserves : Host.standard.Conserves :=
  fun native args _ object => standard_answers (Value.isCode_of_identity? object) native args

namespace Machine

variable {p : Program} {setup : Setup} {m s : Machine} {past : List Machine} {u : Value}
  {c : Closure Value}

/-- The next step pushes the closure, which it makes of a function of the pool and the topmost
values of the stack. -/
structure Makes (s : Machine) (c : Closure Value) : Prop where
  instruction_eq : ∃ k n, s.instruction? = some ⟨.closure, [k, n]⟩ ∧ c.captured = s.stack.topmost n
  pushed : s.step.machine.stack.top? = some (.closure c)

theorem Makes.of_creates {i : Instruction} {event : Option Event} {m' : Machine}
    {events : List Event} (found : m.instruction? = some i) (effect : Effect (m.pass i) i event m')
    (next : m.step = .continued m' events) (creates : Creates (m.pass i) i c) : m.Makes c := by
  obtain ⟨below, operands, f, hf, supplies, count, live⟩ := effect.of_closure creates.opcode_eq
  obtain ⟨below', supplies'⟩ := creates.captured
  have hfunction : f = c.function := by
    have heq := hf.symm.trans creates.found
    cases heq
    rfl
  have hoperands : operands = c.captured.toList := by
    have hsplit := supplies.split.symm.trans supplies'.split
    exact (List.append_inj' hsplit (by rw [count, Array.length_toList, creates.count])).2
  have htopmost : (m.stack.topmost (i.operand 1)).toList = operands :=
    count ▸ Stack.toList_topmost supplies.split
  refine ⟨⟨_, _, found.trans (congrArg some (eq_of_opcode_operands found creates.opcode_eq rfl)),
    ?_⟩, ?_⟩
  · rw [← Array.toList_inj, htopmost, hoperands]
  · have hclosure :
        (⟨.created (m.pass i).numCreated, f, operands.toArray⟩ : Closure Value) = c := by
      rw [← creates.identity_eq, hfunction, hoperands, Array.toArray_toList]
    rw [next, Transition.machine, Stack.top?_eq_getLast?, live, hclosure, List.getLast?_concat]

/-- Where a closure that the run may call comes from. -/
inductive Origin (p : Program) (past : List Machine) (c : Closure Value) : Prop where
  | main (captured : c.captured = #[]) : Origin p past c
  | pool {v : Value} (member : v ∈ p.constants.values) (inside : (Value.closure c).Occurs v) :
    Origin p past c
  | made {s : Machine} (member : s ∈ past) (makes : s.Makes c) : Origin p past c

theorem Origin.later (h : Origin p past c) (s : Machine) : Origin p (s :: past) c := by
  cases h with
  | main captured => exact .main captured
  | pool member inside => exact .pool member inside
  | made member makes => exact .made (List.mem_cons_of_mem _ member) makes

/-- The closure over the code of a program, with which its run begins. -/
def mainClosure (p : Program) : Closure Value := ⟨.main, ⟨.main, p.code, 0, 0⟩, #[]⟩

/-- When a program is loaded, values other than null come from its pool or its main closure. -/
theorem Holds.of_load (h : (load p setup).Holds u) :
    u = .null ∨ (∃ v ∈ p.constants.values, u.Occurs v) ∨ u.Occurs (.closure (mainClosure p)) := by
  cases h with
  | constant member inside => exact .inr (.inl ⟨_, member, inside⟩)
  | global member inside => exact .inl (Value.eq_null_of_mem_replicate member inside)
  | slot member inside => exact .inl (Value.eq_null_of_mem_replicate member inside)
  | frame member inside =>
    obtain rfl := List.mem_singleton.mp member
    exact .inr (.inr inside)

theorem Holds.of_initial (h : (initial p setup).Holds u) : (load p setup).Holds u :=
  h.mono rfl rfl rfl fun f hf => ⟨f, hf, rfl⟩

theorem Origin.of_initial (h : (initial p setup).Holds (.closure c)) : Origin p [] c := by
  rcases h.of_initial.of_load with hnull | ⟨v, member, inside⟩ | inside
  · cases hnull
  · exact .pool member inside
  · cases inside with
    | here => exact .main rfl
    | code inside => cases inside
    | captured member inside => exact absurd member (Array.not_mem_empty _)

theorem Continues.holds {m' : Machine} {events : List Event} (next : m.step = .continued m' events)
    (conserves : m.environment.host.Conserves) (h : m'.Holds (.closure c)) :
    m.Holds (.closure c) ∨ m.Makes c := by
  have object : (Value.closure c).identity? ≠ none := nofun
  cases continues_of_step next with
  | @dispatch i event m' found effect =>
    rcases effect.holds conserves object h with holds | ⟨d, hd, creates⟩
    · exact .inl holds.of_jump
    · cases hd
      exact .inr (.of_creates found effect next creates)
  | finish beyond inner effect =>
    rcases effect.holds conserves object h with holds | ⟨d, -, creates⟩
    · exact .inl holds
    · cases creates.opcode_eq

theorem Run.origin (run : Run (initial p setup) past m) (conserves : setup.host.Conserves)
    (h : m.Holds (.closure c)) : Origin p past c := by
  induction run with
  | refl => exact .of_initial h
  | step run next ih =>
    have environment_eq := (Reachable.of_run run).fits.environment_eq
    rcases Continues.holds next (by rw [environment_eq]; exact conserves) h with holds | makes
    · exact (ih holds).later _
    · exact .made List.mem_cons_self makes

/-- Every function in a reachable state is the main one or occurs in the pool. -/
theorem Reachable.function_origin (h : Reachable p setup m) (conserves : setup.host.Conserves)
    {f : Function} (holds : m.Holds (.function f)) :
    f = (mainClosure p).function ∨ ∃ v ∈ p.constants.values, (Value.function f).Occurs v := by
  have of_load (holds : (load p setup).Holds (.function f)) :
      f = (mainClosure p).function ∨ ∃ v ∈ p.constants.values, (Value.function f).Occurs v := by
    rcases holds.of_load with hnull | pool | inside
    · cases hnull
    · exact .inr pool
    · cases inside with
      | code inside =>
        cases inside
        exact .inl rfl
      | captured member inside => exact absurd member (Array.not_mem_empty _)
  induction h with
  | loaded => exact of_load holds
  | started => exact of_load holds.of_initial
  | @stepped m h ih =>
    rcases effect_or_lowers h.fits.framesRooted.returns with
      ⟨offset, i, event, effect⟩ | ⟨offset, lowers⟩
    · have object : (Value.function f).identity? ≠ none := nofun
      have conserves : m.environment.host.Conserves := by
        rw [h.fits.environment_eq]
        exact conserves
      rcases effect.holds conserves object holds with holds | ⟨c, hc, -⟩
      · exact ih holds.of_jump
      · cases hc
    · exact ih (lowers.holds holds).of_jump

end Machine

end BytecodeMachine

import BytecodeMachine.Proofs.Execution.Log
import BytecodeMachine.Proofs.Frames.Layout

/-!
# Brackets in the log

The calls and returns in a log are the brackets of a run. Each return closes the latest call that is
open, and the calls that are open are the frames above the main one. What a run reports of its depth
is what the brackets before it say. As long as no end of a frame wraps, the bases of the open calls
grow from one to the next.
-/

namespace BytecodeMachine
namespace Event

def isCall : Event → Bool
  | called .. => true
  | _ => false

def isReturn : Event → Bool
  | returned _ => true
  | _ => false

/-- The bases of the open calls after an event, latest first. -/
def bracket (bases : List Nat) : Event → List Nat
  | called _ base _ => base :: bases
  | returned _ => bases.tail
  | _ => bases

theorem bracket_eq {event : Event} (hcall : event.isCall = false) (hreturn : event.isReturn = false)
    (bases : List Nat) : event.bracket bases = bases := by
  cases event with
  | called => cases hcall
  | returned => cases hreturn
  | _ => rfl

end Event

def numCalls (log : List Event) : Nat := log.countP Event.isCall

def numReturns (log : List Event) : Nat := log.countP Event.isReturn

/-- The bases of the calls that a log leaves open, latest first. -/
def openBases (log : List Event) : List Nat := log.foldl Event.bracket []

/-- The event may come after others in a log, and no depth in it is above a bound. -/
def Event.MayFollow (maxDepth : Nat) (before : List Event) : Event → Prop
  | dispatched _ depth _ => depth + numReturns before = 1 + numCalls before ∧ depth ≤ maxDepth
  | called depth base _ =>
    depth + numReturns before = 1 + numCalls before + 1 ∧ depth ≤ maxDepth ∧ 1 ≤ base
  | returned depth =>
    depth + numReturns before = 1 + numCalls before ∧ depth ≤ maxDepth ∧ depth ≠ 1
  | finished _ => numReturns before = numCalls before
  | aborted error =>
    error.depth + numReturns before = 1 + numCalls before ∧ error.depth ≤ maxDepth
  | started _ _ | calledBuiltin _ _ => True

/-- Every event may come where it is. -/
def Bracketed (maxDepth : Nat) (log : List Event) : Prop :=
  ∀ before event after, log = before ++ event :: after → event.MayFollow maxDepth before

/-- Every call has a greater base than the calls that are open there. -/
def Rising (log : List Event) : Prop :=
  ∀ before depth base n after, log = before ++ .called depth base n :: after →
    ∀ b ∈ openBases before, b < base

variable {maxDepth : Nat} {log : List Event} {event : Event}

@[simp] theorem numCalls_concat :
    numCalls (log ++ [event]) = numCalls log + if event.isCall then 1 else 0 := by
  rw [numCalls, List.countP_append, List.countP_singleton, numCalls]

@[simp] theorem numReturns_concat :
    numReturns (log ++ [event]) = numReturns log + if event.isReturn then 1 else 0 := by
  rw [numReturns, List.countP_append, List.countP_singleton, numReturns]

@[simp] theorem openBases_concat : openBases (log ++ [event]) = event.bracket (openBases log) := by
  rw [openBases, List.foldl_append, List.foldl_cons, List.foldl_nil, openBases]

/-- A split of a longer log is one at its last event or one of the shorter log. -/
theorem split_concat {before after : List Event} {e : Event}
    (heq : log ++ [event] = before ++ e :: after) :
    log = before ∧ event = e ∨ ∃ rest, log = before ++ e :: rest := by
  rcases List.eq_nil_or_concat after with rfl | ⟨rest, last, rfl⟩
  · obtain ⟨hlog, hlast⟩ := List.append_inj' heq rfl
    exact .inl ⟨hlog, List.singleton_inj.mp hlast⟩
  · rw [List.concat_eq_append, ← List.cons_append, ← List.append_assoc] at heq
    exact .inr ⟨rest, (List.append_inj' heq rfl).1⟩

theorem bracketed_nil : Bracketed maxDepth [] := by
  intro before event after heq
  simp at heq

theorem Bracketed.concat (h : Bracketed maxDepth log) (last : event.MayFollow maxDepth log) :
    Bracketed maxDepth (log ++ [event]) := by
  intro before e after heq
  rcases split_concat heq with ⟨rfl, rfl⟩ | ⟨rest, hlog⟩
  · exact last
  · exact h before e rest hlog

theorem rising_nil : Rising [] := by
  intro before depth base n after heq
  simp at heq

theorem Rising.concat (h : Rising log)
    (last : ∀ depth base n, event = .called depth base n → ∀ b ∈ openBases log, b < base) :
    Rising (log ++ [event]) := by
  intro before depth base n after heq
  rcases split_concat heq with ⟨rfl, hcalled⟩ | ⟨rest, hlog⟩
  · exact last depth base n hcalled
  · exact h before depth base n rest hlog

/-- No frame begins above the running one. -/
theorem Stacked.base_le {live : List Value} {callers : Array Frame} {top f : Frame}
    (h : Stacked live callers top) (noWrap : ∀ f ∈ callers, f.NoWrap)
    (hf : f ∈ callers.toList ++ [top]) : f.base ≤ top.base := by
  induction h with
  | main => rw [List.mem_singleton.mp hf]
  | @call callers lower upper h above closure ih =>
    rcases List.mem_append.mp hf with hf | hf
    · have hlower := ih (fun f hf => noWrap f (Array.mem_push_of_mem _ hf)) (Array.toList_push ▸ hf)
      have hfloor := (noWrap lower Array.mem_push_self).base_le_floor
      omega
    · rw [List.mem_singleton.mp hf]

namespace Machine

variable {m m' : Machine} {i : Instruction} {events : List Event}

theorem bases_jump (m : Machine) (offset : Nat) :
    (m.jump offset).calls.inner.map Frame.base = m.calls.inner.map Frame.base := by
  simp [CallStack.inner, CallStack.frames, jump, List.map_tail]

/-- What a log says of the machine to which it belongs. -/
structure Logged (log : List Event) (m : Machine) : Prop where
  framesRooted : m.FramesRooted
  bracketed : Bracketed (max 1 m.environment.maxFrames) log
  numCalls_eq : numCalls log = numReturns log + m.calls.inner.length
  openBases_eq : openBases log = (m.calls.inner.map Frame.base).reverse

namespace Logged

theorem depth_eq (h : Logged log m) : m.calls.depth + numReturns log = 1 + numCalls log := by
  rw [m.calls.depth_eq_length_inner, h.numCalls_eq]
  omega

theorem base_le_of_open (h : Logged log m) (sound : m.Sound) {b : Nat} (hb : b ∈ openBases log) :
    b ≤ m.calls.top.base := by
  rw [h.openBases_eq, List.mem_reverse, List.mem_map] at hb
  obtain ⟨f, hf, rfl⟩ := hb
  exact sound.stacked.base_le sound.noWrap.callers (List.mem_of_mem_tail hf)

/-- An event that is no bracket comes in between. -/
theorem between (h : Logged log m) (framesRooted : m'.FramesRooted)
    (environment : m'.environment = m.environment)
    (inner : m'.calls.inner.map Frame.base = m.calls.inner.map Frame.base) (event : Option Event)
    (may : ∀ e ∈ event, e.MayFollow (max 1 m.environment.maxFrames) log ∧
      e.isCall = false ∧ e.isReturn = false) :
    Logged (log ++ event.toList) m' := by
  have hlength : m'.calls.inner.length = m.calls.inner.length := by
    simpa using congrArg List.length inner
  cases event with
  | none =>
    rw [Option.toList_none, List.append_nil]
    refine ⟨framesRooted, environment ▸ h.bracketed, hlength ▸ h.numCalls_eq, ?_⟩
    rw [inner, h.openBases_eq]
  | some e =>
    obtain ⟨hmay, hcall, hreturn⟩ := may e rfl
    refine ⟨framesRooted, environment ▸ h.bracketed.concat hmay, ?_, ?_⟩
    · simp [hcall, hreturn, h.numCalls_eq, hlength]
    · rw [Option.toList_some, openBases_concat, Event.bracket_eq hcall hreturn, inner,
        h.openBases_eq]

/-- Before an instruction is executed, it is logged. -/
theorem pass (h : Logged log m) (i : Instruction) :
    Logged (log ++ [.dispatched m.calls.top.ip m.calls.depth i]) (m.pass i) := by
  have framesRooted : (m.pass i).FramesRooted := h.framesRooted.jump _
  refine h.between framesRooted rfl (bases_jump m _) (some _) ?_
  rintro _ ⟨⟩
  exact ⟨⟨h.depth_eq, h.framesRooted.depth_le⟩, rfl, rfl⟩

theorem effect {event : Option Event} (h : Logged log m) (effect : Effect m i event m') :
    Logged (log ++ event.toList) m' := by
  have framesRooted := h.framesRooted.effect effect
  have hdepth := h.depth_eq
  have silent (inner : m'.calls.inner.map Frame.base = m.calls.inner.map Frame.base) :
      Logged (log ++ (none : Option Event).toList) m' :=
    h.between framesRooted effect.environment_eq inner none (by simp)
  cases effect with
  | compute | discard | pass | assignGlobal | assignLocal | create => exact silent rfl
  | jump | branch => exact silent (bases_jump _ _)
  | native op supplies count answer room =>
    refine h.between framesRooted rfl rfl (some _) ?_
    rintro _ ⟨⟩
    exact ⟨trivial, rfl, rfl⟩
  | @enter below args c op supplies count arity depth room =>
    refine ⟨framesRooted, h.bracketed.concat ⟨?_, ?_, ?_⟩, ?_, ?_⟩
    · omega
    · exact Nat.le_trans depth (Nat.le_max_right _ _)
    · exact Nat.le_add_left 1 _
    · simp [Event.isCall, Event.isReturn, h.numCalls_eq, Nat.add_assoc]
    · simp [Event.bracket, h.openBases_eq, Frame.enter]
  | @leave callers caller below popped v op supplies resumed room =>
    have hinner := CallStack.inner_eq_of_resumed resumed
    have hlength := congrArg List.length hinner
    have hdepth := m.calls.depth_eq_length_inner
    rw [List.length_append, List.length_singleton] at hlength
    refine ⟨framesRooted, h.bracketed.concat ⟨h.depth_eq, h.framesRooted.depth_le, ?_⟩, ?_, ?_⟩
    · omega
    · have hcalls := h.numCalls_eq
      simp [Event.isCall, Event.isReturn]
      omega
    · simp [Event.bracket, h.openBases_eq, hinner]

theorem continues (h : Logged log m) (next : m.Continues events m') :
    Logged (log ++ events) m' := by
  cases next with
  | @dispatch i event m' found effect =>
    have heffect := (h.pass i).effect effect
    rwa [List.append_assoc] at heffect
  | finish beyond inner effect => exact h.effect effect

/-- A frame is entered above the local slots of its caller. -/
theorem rising_effect {event : Option Event} (h : Logged log m) (sound : m.Sound)
    (rising : Rising log) (effect : Effect m i event m') : Rising (log ++ event.toList) := by
  cases event with
  | none => rwa [Option.toList_none, List.append_nil]
  | some e =>
    refine rising.concat ?_
    rintro depth base n rfl b hb
    cases effect with
    | @enter below args c op supplies count arity depth room =>
      have hopen := h.base_le_of_open sound hb
      have hbase := sound.base_le_floor
      have hbelow := supplies.floor_le sound.floor_le
      omega

theorem rising_continues (h : Logged log m) (sound : m.Sound) (rising : Rising log)
    (next : m.Continues events m') : Rising (log ++ events) := by
  cases next with
  | @dispatch i event m' found effect =>
    have passed : Rising (log ++ [.dispatched m.calls.top.ip m.calls.depth i]) :=
      rising.concat nofun
    have heffect := (h.pass i).rising_effect (sound.jump _) passed effect
    rwa [List.append_assoc] at heffect
  | finish beyond inner effect => exact h.rising_effect sound rising effect

/-- A run that has ended has closed all calls. -/
theorem ended (h : Logged log m) (last : m.step = .ended m') : numReturns log = numCalls log := by
  have outermost := depth_of_step_ended last
  have hdepth := h.depth_eq
  omega

theorem aborted {error : RunError} (h : Logged log m) (depth : error.depth = m.calls.depth) :
    Bracketed (max 1 m.environment.maxFrames) (log ++ [.aborted error]) ∧
      error.depth + numReturns (log ++ [.aborted error]) =
        1 + numCalls (log ++ [.aborted error]) := by
  have hdepth : error.depth + numReturns log = 1 + numCalls log := by rw [depth, h.depth_eq]
  exact ⟨h.bracketed.concat ⟨hdepth, depth ▸ h.framesRooted.depth_le⟩,
    by simpa [Event.isCall, Event.isReturn] using hdepth⟩

/-- A failing step opens and closes no calls, and its error tells the depth. -/
theorem failed {error : RunError} (h : Logged log m) (last : m.Fails error events m') :
    Bracketed (max 1 m.environment.maxFrames) (log ++ (events ++ [.aborted error])) ∧
      error.depth + numReturns (log ++ (events ++ [.aborted error])) =
        1 + numCalls (log ++ (events ++ [.aborted error])) := by
  cases last with
  | decode | finish => exact h.aborted rfl
  | @dispatch i fault m' found thrown =>
    rw [← List.append_assoc]
    exact (h.pass i).aborted rfl

/-- The log begins when the machine starts. -/
theorem started (p : Program) (setup : Setup) :
    Logged [.started p.code.size p.constants.size] (initial p setup) :=
  ⟨Reachable.started.fits.framesRooted, bracketed_nil.concat trivial, rfl, rfl⟩

theorem run {p : Program} {setup : Setup} {past : List Machine}
    (run : Run (initial p setup) past m) :
    Logged (.started p.code.size p.constants.size :: Machine.log past) m := by
  induction run with
  | refl => exact started p setup
  | step run next ih =>
    have hnext := ih.continues (continues_of_step next)
    rwa [Machine.log, next]

theorem rising_run {p : Program} {setup : Setup} {past : List Machine}
    (run : Run (initial p setup) past m) (noWrap : ∀ s ∈ m :: past, s.NoWrap) :
    Rising (.started p.code.size p.constants.size :: Machine.log past) := by
  induction run with
  | refl => exact rising_nil.concat nofun
  | step run next ih =>
    have earlier := fun s hs => noWrap s (.tail _ hs)
    have sound := (Reached.of_run run).sound earlier
    have hnext := (Logged.run run).rising_continues sound (ih earlier) (continues_of_step next)
    rwa [Machine.log, next]

end Logged

/-- Native functions run in the frame that calls them. -/
theorem depth_eq_of_calledBuiltin {name : String} {n : Nat} (h : m.step = .continued m' events)
    (native : .calledBuiltin name n ∈ events) : m'.calls.depth = m.calls.depth := by
  have same {start : Machine} {i : Instruction} {event : Option Event}
      (effect : Effect start i event m') (hevent : .calledBuiltin name n ∈ event.toList) :
      m'.calls.depth = start.calls.depth := by
    cases effect with
    | native => rfl
    | _ => simp at hevent
  cases continues_of_step h with
  | @dispatch i event m' found effect =>
    rcases List.mem_cons.mp native with hevent | hevent
    · cases hevent
    · exact (same effect hevent : m'.calls.depth = (m.pass i).calls.depth)
  | finish beyond inner effect => exact same effect native

/-- The log of each run of a program is well bracketed, and it tells how deep the run is. -/
structure RunsBracketed (p : Program) (setup : Setup) : Prop where
  bracketed : ∀ fuel, Bracketed (max 1 setup.limits.maxFrames) (trace fuel (load p setup)).toList
  /-- Bases grow until a frame wraps. -/
  rising : ∀ fuel, (initial p setup).givesUp fuel = false →
    Rising (trace fuel (load p setup)).toList
  depth_eq : ∀ past m, Run (initial p setup) past m →
    m.calls.depth + numReturns (trace past.length (load p setup)).toList =
      1 + numCalls (trace past.length (load p setup)).toList
  depth_le : ∀ past m, Run (initial p setup) past m →
    m.calls.depth ≤ max 1 setup.limits.maxFrames
  depth_of_builtin : ∀ past m m' events name n, Run (initial p setup) past m →
    m.step = .continued m' events → .calledBuiltin name n ∈ events →
    m'.calls.depth = m.calls.depth
  balanced_of_ok : ∀ fuel m, (load p setup).run fuel = some (.ok (), m) →
    numReturns (trace fuel (load p setup)).toList = numCalls (trace fuel (load p setup)).toList
  depth_of_error : ∀ fuel error m, (load p setup).run fuel = some (.error error, m) →
    error.depth + numReturns (trace fuel (load p setup)).toList =
      1 + numCalls (trace fuel (load p setup)).toList

/-- What the brackets of a log say of the result of the run. -/
def Accounts (log : List Event) : Option (Outcome × Machine) → Prop
  | none => True
  | some (.ok (), _) => numReturns log = numCalls log
  | some (.error error, _) => error.depth + numReturns log = 1 + numCalls log

theorem Goes.bracketed {p : Program} {setup : Setup} {fuel : Nat}
    {result : Option (Outcome × Machine)} (h : Goes (initial p setup) fuel result events) :
    Bracketed (max 1 setup.limits.maxFrames)
        (.started p.code.size p.constants.size :: events) ∧
      Accounts (.started p.code.size p.constants.size :: events) result := by
  have bound {past : List Machine} {m : Machine} (run : Run (initial p setup) past m) :
      max 1 m.environment.maxFrames = max 1 setup.limits.maxFrames := by
    rw [run.environment_eq]
    rfl
  cases h with
  | on run => exact ⟨bound run ▸ (Logged.run run).bracketed, trivial⟩
  | ended run enough last =>
    have logged := Logged.run run
    have hended := logged.ended last
    rw [← List.cons_append, ← bound run]
    refine ⟨logged.bracketed.concat hended, ?_⟩
    rw [Accounts, numReturns_concat, numCalls_concat]
    exact hended
  | failed run enough last =>
    rw [← List.cons_append, ← bound run]
    exact (Logged.run run).failed (fails_of_step last)

theorem Goes.rising {p : Program} {setup : Setup} {fuel : Nat}
    {result : Option (Outcome × Machine)} (h : Goes (initial p setup) fuel result events)
    (never : (initial p setup).givesUp fuel = false) :
    Rising (.started p.code.size p.constants.size :: events) := by
  have before {past : List Machine} {m : Machine} (run : Run (initial p setup) past m)
      (enough : past.length ≤ fuel) :
      Rising (.started p.code.size p.constants.size :: log past) :=
    Logged.rising_run run (run.noWrap_of_givesUp (noWrap_initial p setup) enough never)
  cases h with
  | on run => exact before run le_rfl
  | ended run enough last =>
    rw [← List.cons_append]
    exact (before run (Nat.le_of_lt enough)).concat nofun
  | @failed _ past m m' error events run enough last =>
    have rising := before run (Nat.le_of_lt enough)
    rw [← List.cons_append, ← List.append_assoc]
    refine Rising.concat ?_ nofun
    cases fails_of_step last with
    | decode | finish => rwa [List.append_nil]
    | dispatch found thrown => exact rising.concat nofun

theorem runsBracketed_of_load (p : Program) (setup : Setup) : RunsBracketed p setup where
  bracketed fuel := by
    rw [toList_trace_load]
    exact (goes_loop fuel (initial p setup)).bracketed.1
  rising fuel never := by
    rw [toList_trace_load]
    exact (goes_loop fuel (initial p setup)).rising never
  depth_eq past m run := by
    rw [run.trace_eq]
    exact (Logged.run run).depth_eq
  depth_le past m run := by
    have hdepth := (Logged.run run).framesRooted.depth_le
    rwa [run.environment_eq] at hdepth
  depth_of_builtin past m m' events name n run next native :=
    depth_eq_of_calledBuiltin next native
  balanced_of_ok fuel m result := by
    have accounts := (goes_loop fuel (initial p setup)).bracketed.2
    have hloop : loop fuel (initial p setup) = some (.ok (), m) := result
    rwa [hloop, ← toList_trace_load] at accounts
  depth_of_error fuel error m result := by
    have accounts := (goes_loop fuel (initial p setup)).bracketed.2
    have hloop : loop fuel (initial p setup) = some (.error error, m) := result
    rwa [hloop, ← toList_trace_load] at accounts

/-- A program that calls a function whose slots end beyond the largest word. The function pops its
own closure and calls the next one in the same place. -/
def reenter : Program where
  code := #[27, 0, 0, 0, 21, 0]
  constants := Pool.empty.push (.function ⟨.given 0, #[2, 27, 0, 0, 0, 21, 0], 2 ^ 64 - 1, 0⟩)
    (Value.given_function (Identity.isGiven_given 0))

theorem not_rising_of_reenter :
    ¬∀ fuel, Rising (trace fuel (load reenter { limits := ⟨2, 1, 3⟩ })).toList := by
  intro rising
  have split := (List.take_append_drop 7
    (trace 5 (load reenter { limits := ⟨2, 1, 3⟩ })).toList).symm
  have opened : 1 ∈ openBases
      ((trace 5 (load reenter { limits := ⟨2, 1, 3⟩ })).toList.take 7) := by
    exact List.mem_singleton_self 1
  exact Nat.lt_irrefl 1 (rising 5 _ 3 1 0 [] split 1 opened)

end Machine
end BytecodeMachine

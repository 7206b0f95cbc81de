import BytecodeMachine.Proofs.Objects.Origin
import BytecodeMachine.Proofs.Variables.Assignment

/-!
# Reading variables

Variables form an environment. Whatever a run does in between, a read finds what was assigned last
to the global, or to the local slot by the same activation, or what the running closure captured
when it was made. For local slots this is so as long as no end of a frame wraps.
-/

namespace BytecodeMachine

variable {m m' : Machine} {i : Instruction} {event : Option Event}

/-- Whether the operation reads a variable. -/
def Opcode.reads : Opcode → Bool
  | getGlobal | getLocal | getFree => true
  | _ => false

/-- What the variable holds that the instruction reads. -/
def Machine.reading? (m : Machine) (i : Instruction) : Option Value :=
  match i.opcode with
  | .getGlobal => m.globals[i.operand 0]?
  | .getLocal =>
    if i.operand 0 < m.calls.top.numSlots then m.stack.toList[m.calls.top.base + i.operand 0]?
    else none
  | .getFree => m.calls.top.closure.captured[i.operand 0]?
  | _ => none

theorem Computes.reading?_eq {operands : List Value} {v : Value} (h : Computes m i operands v)
    (hop : i.opcode.reads = true) : operands = [] ∧ m.reading? i = some v := by
  have literal : ∀ op v, Opcode.literal? op = some v → op.reads = false := by
    intro op v hop
    cases op <;> first | rfl | cases hop
  have unary : ∀ op f, Opcode.unary? op = some f → op.reads = false := by
    intro op f hop
    cases op <;> first | rfl | cases hop
  have binary : ∀ op f, Opcode.binary? op = some f → op.reads = false := by
    intro op f hop
    cases op <;> first | rfl | cases hop
  cases h with
  | readGlobal op found =>
    refine ⟨rfl, ?_⟩
    rw [Machine.reading?, op]
    exact found
  | readLocal op slot found =>
    refine ⟨rfl, ?_⟩
    rw [Machine.reading?, op]
    exact (if_pos slot).trans found
  | readCaptured op found =>
    refine ⟨rfl, ?_⟩
    rw [Machine.reading?, op]
    exact found
  | literal op => exact absurd (literal _ _ op) (ne_false_of_eq_true hop)
  | unary op value => exact absurd (unary _ _ op) (ne_false_of_eq_true hop)
  | binary op value => exact absurd (binary _ _ op) (ne_false_of_eq_true hop)
  | constant op | readBuiltin op | array op | hash op =>
    rw [op] at hop
    cases hop

namespace Machine

variable {events : List Event} {k : Nat}

/-- A successful instruction that reads a variable pushes what the variable holds. -/
theorem Continues.push_reading (h : m.Continues events m') (found : m.instruction? = some i)
    (hop : i.opcode.reads = true) :
    ∃ v, m.reading? i = some v ∧ m'.stack.toList = m.stack.toList ++ [v] := by
  have hyields : i.opcode.yields = true := by
    revert hop
    cases i.opcode <;> first | exact fun _ => rfl | exact nofun
  cases h with
  | @dispatch j event m' found' effect =>
    obtain rfl : j = i := Option.some.inj (found'.symm.trans found)
    obtain ⟨below, operands, v, supplies, value, live, -⟩ := effect.of_yields hyields
    obtain ⟨rfl, hv⟩ := value.reading?_eq hop
    have hsplit : m.stack.toList = below ++ [] := supplies.split
    exact ⟨v, hv, by rw [live, hsplit, List.append_nil]⟩
  | finish beyond =>
    obtain ⟨hip, -⟩ := exists_of_instruction? found
    omega

/-- A read of a local slot gives what the activation assigned to it last, or else an argument of the
call that the activation began with, or null behind the arguments. -/
def ReadsLocal (past : List Machine) (m m' : Machine) (k : Nat) : Prop :=
  ∃ call recent args, Entered past m call recent args ∧ k < m.calls.top.numSlots ∧
    args.length = m.calls.top.closure.function.numParameters ∧
    m'.stack.toList = m.stack.toList ++
      [(recent.findSome? (·.localAssigned? m.calls.depth k)).getD (args[k]?.getD .null)]

/-- What a step from `m` to `m'` reads, in terms of the machines that the run went through before,
latest first. -/
structure ReadsBack (p : Program) (host : Host) (past : List Machine) (m m' : Machine) :
    Prop where
  /-- A global is what was assigned to it last, or null. -/
  global : ∀ k, m.instruction? = some ⟨.getGlobal, [k]⟩ →
    m'.stack.toList = m.stack.toList ++ [(past.findSome? (·.globalAssigned? k)).getD .null]
  /-- A local slot is what the activation made of it, until a frame wraps. -/
  slot : (∀ s ∈ m :: past, s.NoWrap) → ∀ k, m.instruction? = some ⟨.getLocal, [k]⟩ →
    ReadsLocal past m m' k
  /-- A captured value is one of those that were taken off the stack when the running closure was
  made, unless that closure lay in the pool. -/
  captured : ∀ k, m.instruction? = some ⟨.getFree, [k]⟩ →
    ∃ v, m'.stack.toList = m.stack.toList ++ [v] ∧ m.calls.top.closure.captured[k]? = some v ∧
      (host.Conserves →
        (∃ s ∈ past, ∃ j n, s.instruction? = some ⟨.closure, [j, n]⟩ ∧
          s.step.machine.stack.top? = some (.closure m.calls.top.closure) ∧
          (s.stack.topmost n)[k]? = some v) ∨
        ∃ w ∈ p.constants.values, (Value.closure m.calls.top.closure).Occurs w)

variable {p : Program} {setup : Setup} {past : List Machine}

private theorem eq_getD_of_or {a b : Option Value} {v d : Value} (h : a.or b = some v)
    (hb : ∀ w, b = some w → w = d) : v = a.getD d := by
  cases a with
  | none => exact hb v h
  | some w => exact (Option.some.inj h).symm

private theorem eq_null_of_initial_global {v : Value}
    (h : (initial p setup).globals[k]? = some v) : v = .null := by
  have hmem : v ∈ Array.replicate setup.limits.globalsSize Value.null := Array.mem_of_getElem? h
  exact (Array.mem_replicate.mp hmem).2

/-- The main frame has no local slots. -/
theorem Run.lt_depth_of_slot (run : Run (initial p setup) past m)
    (noWrap : m.calls.top.NoWrap) (hk : k < m.calls.top.numSlots) :
    (initial p setup).calls.depth < m.calls.depth := by
  have rooted := (Reachable.of_run run).fits.framesRooted.rooted
  have hne : m.calls.callers ≠ #[] := by
    intro heq
    obtain ⟨-, hfloor⟩ := rooted.base_and_floor_of_callers_eq heq
    exact Nat.not_lt_zero _ (hfloor ▸ noWrap.add_lt_floor hk)
  exact Nat.succ_lt_succ (Array.size_pos_iff.mpr hne)

theorem readsBack_of_run (p : Program) (setup : Setup) (past : List Machine) (m m' : Machine)
    (events : List Event) (run : Run (initial p setup) past m)
    (next : m.step = .continued m' events) : ReadsBack p setup.host past m m' := by
  have continues := continues_of_step next
  refine ⟨fun k found => ?_, fun noWrap k found => ?_, fun k found => ?_⟩
  · obtain ⟨v, hv, live⟩ := continues.push_reading found rfl
    have hv : m.globals[k]? = some v := hv
    rw [run.getElem?_globals] at hv
    rw [live, eq_getD_of_or hv fun w hw => eq_null_of_initial_global hw]
  · obtain ⟨v, hv, live⟩ := continues.push_reading found rfl
    obtain ⟨slot, hv⟩ := Option.ite_none_right_eq_some.mp hv
    have slot : k < m.calls.top.numSlots := slot
    have hv : m.stack.toList[m.calls.top.base + k]? = some v := hv
    have hdepth := run.lt_depth_of_slot (noWrap m (.head _)).top slot
    obtain ⟨call, recent, args, entered, arity, hlocal⟩ :=
      run.exists_entered (wellStacked_initial p setup) noWrap hdepth
    refine ⟨call, recent, args, entered, slot, arity, ?_⟩
    rw [hlocal k slot] at hv
    rw [live, eq_getD_of_or hv fun w hw => (Option.some.inj hw).symm]
  · obtain ⟨v, hv, live⟩ := continues.push_reading found rfl
    have hv : m.calls.top.closure.captured[k]? = some v := hv
    refine ⟨v, live, hv, fun conserves => ?_⟩
    have holds : m.Holds (.closure m.calls.top.closure) :=
      .frame (List.mem_append_right _ (List.mem_singleton_self _)) .here
    cases run.origin conserves holds with
    | main captured => simp [captured] at hv
    | pool member inside => exact .inr ⟨_, member, inside⟩
    | @made s member makes =>
      obtain ⟨j, n, instruction, captured⟩ := makes.instruction_eq
      exact .inl ⟨s, member, j, n, instruction, makes.pushed, captured ▸ hv⟩

theorem readsBack_of_callOnce :
    Host.standard.Conserves ∧ (callOnceAfter 6).instruction? = some ⟨.getGlobal, [0]⟩ ∧
      (callOnceAfter 8).instruction? = some ⟨.getFree, [0]⟩ ∧
      (callOnceAfter 9).instruction? = some ⟨.getLocal, [0]⟩ ∧
      ∃ past,
        (∀ s ∈ callOnceAfter 9 :: callOnceAfter 8 :: callOnceAfter 7 :: callOnceAfter 6 :: past,
          s.NoWrap) ∧
        ReadsBack callOnce Host.standard past (callOnceAfter 6) (callOnceAfter 7) ∧
        ReadsBack callOnce Host.standard (callOnceAfter 7 :: callOnceAfter 6 :: past)
          (callOnceAfter 8) (callOnceAfter 9) ∧
        ReadsBack callOnce Host.standard
          (callOnceAfter 8 :: callOnceAfter 7 :: callOnceAfter 6 :: past) (callOnceAfter 9)
          (callOnceAfter 10) := by
  have run : Run (initial callOnce { limits := ⟨8, 1, 2⟩ })
      [callOnceAfter 5, callOnceAfter 4, callOnceAfter 3, callOnceAfter 2, callOnceAfter 1,
        callOnceAfter 0] (callOnceAfter 6) :=
    .step (.step (.step (.step (.step (.step .refl (by rfl)) (by rfl)) (by rfl)) (by rfl))
      (by rfl)) (by rfl)
  have run₇ : Run _ _ (callOnceAfter 7) := run.step (by rfl)
  have run₈ : Run _ _ (callOnceAfter 8) := run₇.step (by rfl)
  have run₉ : Run _ _ (callOnceAfter 9) := run₈.step (by rfl)
  refine ⟨Host.standard_conserves, by rfl, by rfl, by rfl,
    [callOnceAfter 5, callOnceAfter 4, callOnceAfter 3, callOnceAfter 2, callOnceAfter 1,
      callOnceAfter 0], neverWraps_callOnce.reached (.of_run run₉), ?_, ?_, ?_⟩
  · exact readsBack_of_run callOnce { limits := ⟨8, 1, 2⟩ } _ _ _ _ run (by rfl)
  · exact readsBack_of_run callOnce { limits := ⟨8, 1, 2⟩ } _ _ _ _ run₈ (by rfl)
  · exact readsBack_of_run callOnce { limits := ⟨8, 1, 2⟩ } _ _ _ _ run₉ (by rfl)

/-- A program that calls a function whose slots end beyond the largest word. The function pushes a
value and reads its first local slot. -/
def readOperand : Program where
  code := #[27, 0, 0, 0, 21, 0]
  constants := Pool.empty.push (.function ⟨.given 0, #[6, 24, 0], 2 ^ 64 - 1, 0⟩)
    (Value.given_function (Identity.isGiven_given 0))

def readOperandAfter (steps : Nat) : Machine := after readOperand { limits := ⟨3, 1, 2⟩ } steps

/-- The operand lies in the slot. -/
theorem not_readsLocal_of_readOperand :
    ∃ past events, Run (initial readOperand { limits := ⟨3, 1, 2⟩ }) past (readOperandAfter 3) ∧
      (readOperandAfter 3).step = .continued (readOperandAfter 4) events ∧
      (readOperandAfter 3).instruction? = some ⟨.getLocal, [0]⟩ ∧
      ¬ReadsLocal past (readOperandAfter 3) (readOperandAfter 4) 0 := by
  have run : Run (initial readOperand { limits := ⟨3, 1, 2⟩ })
      [readOperandAfter 2, readOperandAfter 1, readOperandAfter 0] (readOperandAfter 3) :=
    .step (.step (.step .refl (by rfl)) (by rfl)) (by rfl)
  refine ⟨_, _, run, by rfl, by rfl, ?_⟩
  rintro ⟨call, recent, args, entered, -, arity, live⟩
  obtain rfl : args = [] := List.eq_nil_of_length_eq_zero arity
  obtain ⟨before, hpast⟩ := entered.past_eq
  have unassigned : ∀ s ∈ [readOperandAfter 2, readOperandAfter 1, readOperandAfter 0],
      s.localAssigned? (readOperandAfter 3).calls.depth 0 = none := by
    simp only [List.forall_mem_cons]
    exact ⟨rfl, rfl, rfl, nofun⟩
  have hrecent : recent.findSome? (·.localAssigned? (readOperandAfter 3).calls.depth 0) = none :=
    List.findSome?_eq_none_iff.mpr fun s hs =>
      unassigned s (hpast ▸ List.mem_append_left _ hs)
  rw [hrecent] at live
  cases live

end Machine
end BytecodeMachine

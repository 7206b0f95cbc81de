import BytecodeMachine.Proofs.Execution.Log
import BytecodeMachine.Proofs.Frames.Layout

/-!
# Stack discipline

Each instruction changes the number of operands by an amount that stands in the instruction. A call
counts once its callee has returned, and then one value lies in the place of the callee and its
arguments, whatever the callee left behind. So a frame has as many operands as the instructions of
its activation sum up to, as long as no end of a frame wraps.
-/

namespace BytecodeMachine

/-- How many operands more the running frame has after an operation. A call counts from the moment
before it to the moment when its callee has returned. -/
def Instruction.stackEffect (i : Instruction) : Int :=
  match i.opcode with
  | .constant | .pushTrue | .pushFalse | .pushNull | .getGlobal | .getLocal | .getBuiltin
  | .getFree => 1
  | .pop | .setGlobal | .setLocal | .jumpNotTruthy | .returnValue => -1
  | .add | .sub | .mul | .div | .equal | .notEqual | .greaterThan | .index => -1
  | .minus | .bang | .jump | .returnNull => 0
  | .array | .hash => 1 - i.operand 0
  | .closure => 1 - i.operand 1
  | .call => -i.operand 0

def totalEffect : List Instruction → Int
  | [] => 0
  | i :: is => i.stackEffect + totalEffect is

theorem totalEffect_append (is js : List Instruction) :
    totalEffect (is ++ js) = totalEffect is + totalEffect js := by
  induction is with
  | nil => exact (Int.zero_add _).symm
  | cons i is ih => rw [List.cons_append, totalEffect, totalEffect, ih, Int.add_assoc]

/-- A computed value takes the place of its operands. -/
theorem Computes.stackEffect_eq {m : Machine} {i : Instruction} {operands : List Value} {v : Value}
    (h : Computes m i operands v) : i.stackEffect = 1 - operands.length := by
  cases h with
  | literal op | unary op | binary op =>
    cases hop : i.opcode <;> rw [hop] at op <;> first
      | (cases op; done)
      | simp [Instruction.stackEffect, hop]
  | array op count | hash op count => simp [Instruction.stackEffect, op, count]
  | constant op | readGlobal op | readLocal op | readBuiltin op | readCaptured op =>
    simp [Instruction.stackEffect, op]

namespace Machine

variable {m m' : Machine} {i : Instruction} {event : Option Event}

/-- What an instruction does to the frames and to the height of the stack. -/
inductive Heights (m : Machine) (i : Instruction) : Machine → Prop where
  | stay {m' offset} (calls : m'.calls = (m.jump offset).calls)
      (size : (m'.stack.size : Int) = m.stack.size + i.stackEffect) : Heights m i m'
  | enter {m' offset base c} (op : i.opcode = .call)
      (calls : m'.calls = (m.jump offset).calls.push (.enter c base))
      (arguments : base + i.operand 0 = m.stack.size) (size : m'.stack.size = m'.floor) :
      Heights m i m'
  | leave {m' callers caller} (resumed : m.calls.callers = callers.push caller)
      (calls : m'.calls = ⟨callers, caller⟩) (size : m'.stack.size = m.calls.top.base) :
      Heights m i m'

/-- Where the running frame went on before does not matter. -/
theorem Heights.of_jump {offset : Nat} (h : (m.jump offset).Heights i m') : m.Heights i m' := by
  cases h with
  | stay calls size => exact .stay calls size
  | enter op calls arguments size => exact .enter op calls arguments size
  | leave resumed calls size => exact .leave resumed calls size

private theorem Heights.of_operands {offset k : Nat} {below operands : List Value}
    (supplies : m.Supplies below operands) (calls : m'.calls = (m.jump offset).calls)
    (size : m'.stack.size = (m.stack.drop operands.length).size + k)
    (effect : i.stackEffect = k - operands.length) : m.Heights i m' := by
  have hle : operands.length ≤ m.stack.size := Nat.le_trans supplies.enough (Nat.sub_le _ _)
  rw [Stack.size_drop] at size
  exact .stay calls (by omega)

end Machine

theorem Effect.heights {m m' : Machine} {i : Instruction} {event : Option Event}
    (h : Effect m i event m') (sound : m.Sound) (noWrap : m'.NoWrap) : m.Heights i m' := by
  cases h with
  | compute supplies value room =>
    exact .of_operands supplies rfl (Stack.size_push _ _ room) value.stackEffect_eq
  | discard op supplies | pass op supplies | branch op supplies | assignGlobal op supplies
  | assignLocal op supplies =>
    exact .of_operands supplies rfl (Nat.add_zero _).symm (by simp [Instruction.stackEffect, op])
  | jump op => exact .stay rfl (by simp [Instruction.stackEffect, op, Machine.jump])
  | create op found supplies count room =>
    exact .of_operands supplies rfl (Stack.size_push _ _ room)
      (by simp [Instruction.stackEffect, op, count])
  | native op supplies count answer room =>
    refine .of_operands supplies rfl (Stack.size_push _ _ room) ?_
    simp only [Instruction.stackEffect, op, List.length_cons, count]
    omega
  | @enter below args c op supplies count arity depth room =>
    have hbelow := supplies.length_below
    have henough := supplies.enough
    have hslots : c.function.numParameters ≤ c.function.numSlots := Nat.le_max_right _ _
    have hfloor : (Frame.enter c (below.length + 1)).floor =
        below.length + 1 + c.function.numSlots := Frame.floor_eq noWrap.top
    rw [List.length_cons] at hbelow henough
    refine .enter op rfl (by omega) ?_
    rw [Stack.size_growTo, Nat.max_eq_right (by omega)]
    rfl
  | @leave callers caller below popped v op supplies resumed room =>
    have henough := supplies.enough
    have hbase := sound.base_le_floor
    have hfloor := sound.floor_le
    have hpos : 0 < m.calls.top.base := by
      have hstacked := sound.stacked
      rw [resumed] at hstacked
      exact Nat.zero_lt_of_lt hstacked.caller.2.1
    refine .leave resumed rfl ?_
    have hmin : min (m.stack.drop popped.length).size (m.calls.top.base - 1) =
        m.calls.top.base - 1 := Nat.min_eq_right (by rw [Stack.size_drop]; omega)
    change min (m.stack.drop popped.length).size (m.calls.top.base - 1) + 1 = _
    omega

namespace Machine

/-- The machines on which the latest frame at a depth was the running one, latest first. The past of
that frame ends where the run was below the depth. -/
def activation (depth : Nat) (past : List Machine) : List Machine :=
  (past.takeWhile (depth ≤ ·.calls.depth)).filter (·.calls.depth = depth)

/-- The instructions that the latest frame at a depth dispatched, latest first. -/
def instructionsOf (depth : Nat) (past : List Machine) : List Instruction :=
  (activation depth past).filterMap instruction?

section Activation

variable {depth : Nat} {m : Machine} (past : List Machine)

theorem instructionsOf_cons_of_eq (h : m.calls.depth = depth) :
    instructionsOf depth (m :: past) = m.instruction?.toList ++ instructionsOf depth past := by
  rw [instructionsOf, activation, List.takeWhile_cons_of_pos (by simp [h]),
    List.filter_cons_of_pos (by simp [h])]
  cases hi : m.instruction? with
  | none => rw [List.filterMap_cons_none hi, instructionsOf, activation]; rfl
  | some i => rw [List.filterMap_cons_some hi, instructionsOf, activation]; rfl

theorem instructionsOf_cons_of_gt (h : depth < m.calls.depth) :
    instructionsOf depth (m :: past) = instructionsOf depth past := by
  rw [instructionsOf, activation, List.takeWhile_cons_of_pos (by simp; omega),
    List.filter_cons_of_neg (by simp; omega), instructionsOf, activation]

theorem instructionsOf_cons_of_lt (h : m.calls.depth < depth) :
    instructionsOf depth (m :: past) = [] := by
  rw [instructionsOf, activation, List.takeWhile_cons_of_neg (by simp; omega)]
  rfl

end Activation

/-- Each suspended caller is at a call, below which its operands are those that its instructions
left. The call's arguments begin at the base of the frame that was entered. -/
inductive Pending (past : List Machine) : Array Frame → (base : Nat) → Prop where
  | main {base : Nat} : Pending past #[] base
  | call {callers lower} {base n : Nat} {rest} (h : Pending past callers lower.base)
      (latest : instructionsOf (callers.size + 1) past = ⟨.call, [n]⟩ :: rest)
      (size : (base + n : Int) = lower.floor + totalEffect rest) :
      Pending past (callers.push lower) base

namespace Pending

variable {past past' : List Machine} {callers : Array Frame} {lower upper top : Frame} {base : Nat}

/-- Only the instructions of the callers matter. -/
theorem congr (h : Pending past callers base)
    (same : ∀ depth ≤ callers.size, instructionsOf depth past' = instructionsOf depth past) :
    Pending past' callers base := by
  induction h with
  | main => exact .main
  | @call callers lower base n rest h latest size ih =>
    rw [Array.size_push] at same
    refine .call (ih fun depth hdepth => same depth (by omega)) ?_ size
    rw [same _ (Nat.le_refl _), latest]

theorem caller (h : Pending past (callers.push lower) base) :
    Pending past callers lower.base ∧ ∃ n rest,
      instructionsOf (callers.size + 1) past = ⟨.call, [n]⟩ :: rest ∧
        (base + n : Int) = lower.floor + totalEffect rest := by
  generalize hcallers : callers.push lower = all at h
  cases h with
  | main => simp at hcallers
  | call h latest size =>
    obtain ⟨rfl, rfl⟩ := Array.push_eq_push.mp hcallers
    exact ⟨h, _, _, latest, size⟩

theorem of_getElem? (h : Pending past callers top.base) {k : Nat}
    (hlower : (callers.toList ++ [top])[k]? = some lower)
    (hupper : (callers.toList ++ [top])[k + 1]? = some upper) :
    ∃ n rest, instructionsOf (k + 1) past = ⟨.call, [n]⟩ :: rest ∧
      (upper.base + n : Int) = lower.floor + totalEffect rest := by
  generalize hbase : top.base = base at h
  induction h generalizing top with
  | main => simp at hupper
  | @call callers caller base n rest h latest size ih =>
    rw [Array.toList_push] at hlower hupper
    by_cases hlast : k = callers.size
    · subst hlast
      obtain rfl : caller = lower := by simpa [List.getElem?_append] using hlower
      obtain rfl : top = upper := by simpa [List.getElem?_append] using hupper
      exact ⟨n, rest, latest, hbase ▸ size⟩
    · have hk : k + 1 < callers.size + 2 := by
        simpa using (List.getElem?_eq_some_iff.mp hupper).1
      rw [List.getElem?_append_left (by simp; omega)] at hlower hupper
      exact ih hlower hupper rfl

end Pending

/-- The operands of each frame are those that its instructions left. -/
structure Counted (past : List Machine) (m : Machine) : Prop where
  sound : m.Sound
  pending : Pending past m.calls.callers m.calls.top.base
  size_eq : (m.stack.size : Int) = m.floor + totalEffect (instructionsOf m.calls.depth past)

namespace Counted

variable {past : List Machine} {m m' : Machine} {i : Instruction} {events : List Event}

/-- The callers' instructions are not those of the running frame. -/
theorem pending_cons (h : Counted past m) :
    Pending (m :: past) m.calls.callers m.calls.top.base :=
  h.pending.congr fun _ hdepth => instructionsOf_cons_of_gt past (Nat.lt_succ_of_le hdepth)

theorem of_heights (h : Counted past m) (sound : m'.Sound) (heights : m.Heights i m')
    (total : totalEffect m.instruction?.toList = i.stackEffect)
    (call : i.opcode = .call → m.instruction? = some ⟨.call, [i.operand 0]⟩) :
    Counted (m :: past) m' := by
  have hsize := h.size_eq
  have hcons := instructionsOf_cons_of_eq past (Eq.refl m.calls.depth)
  cases heights with
  | stay calls size =>
    have hdepth : m'.calls.depth = m.calls.depth := by rw [calls]; rfl
    have hfloor : m'.floor = m.floor := by rw [floor, calls]; rfl
    refine ⟨sound, ?_, ?_⟩
    · rw [calls]
      exact h.pending_cons
    · rw [hdepth, hcons, totalEffect_append, total, hfloor, size, hsize]
      omega
  | @enter offset base c op calls arguments size =>
    -- The call heads the instructions of the caller and does not count before the callee returns.
    have hdepth : m'.calls.depth = m.calls.depth + 1 := by
      rw [calls, CallStack.depth_push]
      rfl
    rw [call op] at hcons
    have hbase : (base + i.operand 0 : Int) =
        m.floor + totalEffect (instructionsOf m.calls.depth past) := by
      rw [← hsize]
      exact_mod_cast arguments
    refine ⟨sound, ?_, ?_⟩
    · rw [calls]
      exact .call h.pending_cons hcons hbase
    · rw [hdepth, instructionsOf_cons_of_lt past (Nat.lt_succ_self _), size]
      exact (Int.add_zero _).symm
  | @leave callers caller resumed calls size =>
    -- Now the pending call counts, and the value lies where the callee was.
    obtain ⟨hcaller, n, rest, latest, hcount⟩ := (resumed ▸ h.pending).caller
    have hdepth : m.calls.depth = callers.size + 2 := by
      rw [CallStack.depth, resumed, Array.size_push]
    have hlower (depth : Nat) (hle : depth ≤ callers.size + 1) :
        instructionsOf depth (m :: past) = instructionsOf depth past :=
      instructionsOf_cons_of_gt past (by omega)
    refine ⟨sound, ?_, ?_⟩
    · rw [calls]
      exact hcaller.congr fun depth hle => hlower depth (Nat.le_succ_of_le hle)
    · have hcalled : instructionsOf m'.calls.depth (m :: past) = ⟨.call, [n]⟩ :: rest := by
        rw [calls, ← latest]
        exact hlower _ (Nat.le_refl _)
      have hfloor : m'.floor = caller.floor := by rw [floor, calls]
      have heffect : Instruction.stackEffect ⟨.call, [n]⟩ = -n := rfl
      rw [hcalled, totalEffect, heffect, hfloor, size]
      omega

theorem step (h : Counted past m) (next : m.step = .continued m' events) (noWrap : m'.NoWrap) :
    Counted (m :: past) m' := by
  have hcontinues := continues_of_step next
  have sound := h.sound.continues hcontinues noWrap
  cases hcontinues with
  | @dispatch i event m' found effect =>
    refine h.of_heights sound (effect.heights (h.sound.jump _) noWrap).of_jump ?_ ?_
    · rw [found]
      exact Int.add_zero _
    · intro op
      rw [found, ← eq_of_opcode_operand found op rfl]
  | finish beyond inner effect =>
    refine h.of_heights sound (effect.heights h.sound noWrap) ?_ nofun
    rw [instruction?_eq_none beyond]
    rfl

theorem run {p : Program} {setup : Setup} (run : Run (initial p setup) past m)
    (noWrap : ∀ s ∈ m :: past, s.NoWrap) : Counted past m := by
  induction run with
  | refl => exact ⟨Reached.started.sound noWrap, .main, rfl⟩
  | step run next ih =>
    exact (ih fun s hs => noWrap s (.tail _ hs)).step next (noWrap _ (.head _))

end Counted

end Machine

/-- The instruction of a dispatch at a depth. -/
def Event.instructionAt? (depth : Nat) : Event → Option Instruction
  | dispatched _ d i => if d = depth then some i else none
  | _ => none

theorem Effect.filterMap_instructionAt? {m m' : Machine} {i : Instruction} {event : Option Event}
    (h : Effect m i event m') (depth : Nat) :
    event.toList.filterMap (Event.instructionAt? depth) = [] := by
  cases h <;> rfl

namespace Machine

variable {m m' : Machine} {events : List Event}

theorem Continues.filterMap_instructionAt? (h : m.Continues events m') (depth : Nat) :
    events.filterMap (Event.instructionAt? depth) =
      if m.calls.depth = depth then m.instruction?.toList else [] := by
  cases h with
  | dispatch found effect =>
    rw [List.filterMap_cons, effect.filterMap_instructionAt?, found, Event.instructionAt?]
    by_cases hdepth : m.calls.depth = depth
    · rw [if_pos hdepth, if_pos hdepth]
      rfl
    · rw [if_neg hdepth, if_neg hdepth]
  | finish beyond inner effect =>
    rw [effect.filterMap_instructionAt?, instruction?_eq_none beyond]
    exact (ite_self _).symm

/-- At depth one the instructions of the activation are all that were ever dispatched there. -/
theorem Run.totalEffect_log {start : Machine} {past : List Machine} (run : Run start past m) :
    totalEffect ((log past).filterMap (Event.instructionAt? 1)) =
      totalEffect (instructionsOf 1 past) := by
  induction run with
  | refl => rfl
  | @step past m m' events run next ih =>
    rw [log, next, List.filterMap_append, totalEffect_append, ih]
    change _ + totalEffect (events.filterMap _) = _
    rw [(continues_of_step next).filterMap_instructionAt?]
    by_cases hdepth : m.calls.depth = 1
    · rw [if_pos hdepth, instructionsOf_cons_of_eq past hdepth, totalEffect_append, Int.add_comm]
    · have hpos : 0 < m.calls.depth := Nat.succ_pos _
      rw [if_neg hdepth, instructionsOf_cons_of_gt past (by omega)]
      exact Int.add_zero _

/-- No run of the program leaks or loses an operand before a frame wraps. -/
structure Disciplined (p : Program) (setup : Setup) : Prop where
  running : ∀ past m, Run (initial p setup) past m → (∀ s ∈ m :: past, s.NoWrap) →
    (m.stack.size - m.floor : Int) = totalEffect (instructionsOf m.calls.depth past)
  suspended : ∀ past m k lower upper, Run (initial p setup) past m →
    (∀ s ∈ m :: past, s.NoWrap) →
    m.calls.frames[k]? = some lower → m.calls.frames[k + 1]? = some upper →
    ∃ n rest, instructionsOf (k + 1) past = ⟨.call, [n]⟩ :: rest ∧
      (upper.base + n - lower.floor : Int) = totalEffect rest
  ended : ∀ fuel m, (load p setup).run fuel = some (.ok (), m) →
    (initial p setup).givesUp fuel = false →
    (m.stack.size : Int) = totalEffect
      ((trace fuel (load p setup)).toList.filterMap (Event.instructionAt? 1))

theorem Goes.size_eq {p : Program} {setup : Setup} {fuel : Nat}
    {result : Option (Outcome × Machine)} (h : Goes (initial p setup) fuel result events)
    (ok : result = some (.ok (), m)) (never : (initial p setup).givesUp fuel = false) :
    (m.stack.size : Int) = totalEffect (events.filterMap (Event.instructionAt? 1)) := by
  cases h with
  | on => cases ok
  | failed => cases ok
  | @ended _ past _ run enough last =>
    cases ok
    have counted := Counted.run run
      (run.noWrap_of_givesUp (noWrap_initial p setup) (Nat.le_of_lt enough) never)
    have outermost := depth_of_step_ended last
    have hmain : m.calls.callers = #[] := Array.size_eq_zero_iff.mp (Nat.succ.inj outermost)
    have hfloor : m.floor = 0 :=
      (counted.sound.stacked.rooted.base_and_floor_of_callers_eq hmain).2
    have hsize := counted.size_eq
    rw [outermost, hfloor, Int.natCast_zero, Int.zero_add, ← run.totalEffect_log] at hsize
    rw [hsize, List.filterMap_append]
    exact congrArg totalEffect (List.append_nil _).symm

theorem disciplined_of_load (p : Program) (setup : Setup) : Disciplined p setup where
  running past m run noWrap := by
    rw [(Counted.run run noWrap).size_eq, Int.add_comm, Int.add_sub_cancel]
  suspended past m k lower upper run noWrap hlower hupper := by
    obtain ⟨n, rest, latest, size⟩ := (Counted.run run noWrap).pending.of_getElem? hlower hupper
    exact ⟨n, rest, latest, by rw [size, Int.add_comm, Int.add_sub_cancel]⟩
  ended fuel m result never := by
    rw [toList_trace_load]
    exact (goes_loop fuel (initial p setup)).size_eq result never

theorem disciplined_callOnce :
    (∀ fuel, (initial callOnce { limits := ⟨8, 1, 2⟩ }).givesUp fuel = false) ∧
      Disciplined callOnce { limits := ⟨8, 1, 2⟩ } :=
  ⟨neverWraps_callOnce.givesUp_eq_false, disciplined_of_load callOnce { limits := ⟨8, 1, 2⟩ }⟩

/-- A program that calls a function without code whose slots end beyond the largest word. -/
def callVast : Program where
  code := #[27, 0, 0, 0, 21, 0]
  constants := Pool.empty.push (.function ⟨.given 0, #[], 2 ^ 64 - 1, 0⟩)
    (Value.given_function (Identity.isGiven_given 0))

/-- The frame has its own closure for an operand before it has dispatched an instruction. -/
theorem not_disciplined_callVast :
    ∃ past m, Run (initial callVast { limits := ⟨2, 1, 2⟩ }) past m ∧
      (m.stack.size - m.floor : Int) ≠ totalEffect (instructionsOf m.calls.depth past) := by
  have start : Run (initial callVast { limits := ⟨2, 1, 2⟩ }) [] _ := .refl
  refine ⟨_, _, (start.step rfl).step rfl, ?_⟩
  change (1 - 0 : Int) ≠ 0
  decide

end Machine
end BytecodeMachine

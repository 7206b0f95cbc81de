import BytecodeMachine.Proofs.Execution.Inversion

/-!
# Frames under a step

Seen from the frames, a step does one of three things. It goes on in the running frame and leaves
the slots below that frame alone, it enters a frame on a closure of the stack, or it leaves the
running frame and puts one value in the place of everything from its closure on. This holds as long
as the local slots of the running frame end at a word, before the step and after it.
-/

namespace BytecodeMachine

variable {m m' : Machine} {i : Instruction} {event : Option Event}

namespace Machine

/-- What a step does to the frames and to the live part of the stack. -/
inductive FrameEffect (m : Machine) : Machine → Prop where
  | stay {m' offset} (calls : m'.calls = (m.jump offset).calls) (live : m.floor ≤ m'.stack.size)
      (below : m'.stack.toList.take m.calls.top.base = m.stack.toList.take m.calls.top.base) :
      FrameEffect m m'
  | enter {m' offset below args c n} (split : m.stack.toList = below ++ .closure c :: args)
      (above : m.floor ≤ below.length) (room : m.calls.depth < m.environment.maxFrames)
      (calls : m'.calls = (m.jump offset).calls.push (.enter c (below.length + 1)))
      (live : m'.stack.toList = m.stack.toList ++ .replicate n .null)
      (size : m'.floor = m'.stack.size) : FrameEffect m m'
  | leave {m' callers caller v} (resumed : m.calls.callers = callers.push caller)
      (calls : m'.calls = ⟨callers, caller⟩)
      (live : m'.stack.toList = m.stack.toList.take (m.calls.top.base - 1) ++ [v]) :
      FrameEffect m m'

theorem base_le_floor (noWrap : m.calls.top.NoWrap) : m.calls.top.base ≤ m.floor := by
  rw [floor, Frame.floor_eq noWrap]
  exact Nat.le_add_right _ _

theorem Supplies.floor_le {below operands : List Value} (h : m.Supplies below operands)
    (hfloor : m.floor ≤ m.stack.size) : m.floor ≤ below.length := by
  have hbelow := h.length_below
  have henough := h.enough
  omega

/-- Local slots keep their values while operands are replaced. -/
theorem Supplies.take_below {below operands : List Value} {b : Nat}
    (h : m.Supplies below operands) (hfloor : m.floor ≤ m.stack.size) (hb : b ≤ m.floor)
    (results : List Value) : (below ++ results).take b = m.stack.toList.take b := by
  have hbelow : b ≤ below.length := Nat.le_trans hb (h.floor_le hfloor)
  rw [h.split, List.take_append_of_le_length hbelow, List.take_append_of_le_length hbelow]

private theorem FrameEffect.of_operands {offset : Nat} {below operands results : List Value}
    (noWrap : m.calls.top.NoWrap) (supplies : m.Supplies below operands)
    (hfloor : m.floor ≤ m.stack.size) (calls : m'.calls = (m.jump offset).calls)
    (live : m'.stack.toList = below ++ results) : FrameEffect m m' := by
  refine .stay calls ?_ ?_
  · have hbelow := supplies.floor_le hfloor
    rw [← Stack.length_toList, live, List.length_append]
    omega
  · rw [live]
    exact supplies.take_below hfloor (base_le_floor noWrap) results

end Machine

/-- Every effect of an instruction is one of the three, if the running frame's slots are live. -/
theorem Effect.frameEffect (h : Effect m i event m') (noWrap : m.calls.top.NoWrap)
    (noWrap' : m'.calls.top.NoWrap) (hfloor : m.floor ≤ m.stack.size) : m.FrameEffect m' := by
  cases h with
  | compute supplies value room =>
    exact .of_operands noWrap supplies hfloor rfl (by rw [Stack.toList_push, supplies.toList_drop])
  | discard op supplies =>
    exact .of_operands noWrap supplies hfloor rfl (supplies.toList_drop.trans (List.append_nil _).symm)
  | jump op => exact .stay rfl hfloor rfl
  | pass op supplies truthy =>
    exact .of_operands noWrap supplies hfloor rfl (supplies.toList_drop.trans (List.append_nil _).symm)
  | branch op supplies falsy =>
    exact .of_operands noWrap supplies hfloor rfl (supplies.toList_drop.trans (List.append_nil _).symm)
  | assignGlobal op supplies slot =>
    exact .of_operands noWrap supplies hfloor rfl (supplies.toList_drop.trans (List.append_nil _).symm)
  | assignLocal op supplies slot live =>
    have hbelow := supplies.toList_drop
    have henough := supplies.floor_le hfloor
    refine .stay rfl ?_ ?_
    · rw [Stack.size_set, ← Stack.length_toList]
      exact hbelow.symm ▸ henough
    · have hfirst := supplies.take_below hfloor (Machine.base_le_floor noWrap) []
      rw [Stack.toList_set, List.take_set_of_le (Nat.le_add_right _ _)]
      rw [← hfirst, List.append_nil]
      exact congrArg (List.take m.calls.top.base) hbelow
  | create op found supplies count room =>
    exact .of_operands noWrap supplies hfloor rfl (by rw [Stack.toList_push, supplies.toList_drop])
  | native op supplies count answer room =>
    exact .of_operands noWrap supplies hfloor rfl
      (by rw [Stack.toList_push]; exact congrArg (· ++ _) supplies.toList_drop)
  | @enter below args c op supplies count arity depth room =>
    have hsize : m.stack.size = below.length + 1 + args.length := by
      rw [← Stack.length_toList, supplies.split, List.length_append, List.length_cons]
      omega
    have hslots : c.function.numParameters ≤ c.function.numSlots := Nat.le_max_right _ _
    have hfloor' : (Frame.enter c (below.length + 1)).floor =
        below.length + 1 + c.function.numSlots := Frame.floor_eq noWrap'
    refine .enter supplies.split (supplies.floor_le hfloor) depth rfl
      (Stack.toList_growTo _ _ room) ?_
    rw [Stack.size_growTo, Nat.max_eq_right (by omega)]
    rfl
  | @leave callers caller below popped v op supplies resumed room =>
    have hbase := Machine.base_le_floor noWrap
    have henough := supplies.enough
    refine .leave (v := v) resumed rfl ?_
    rw [Stack.toList_push, Stack.toList_truncate, Stack.toList_drop, List.take_take,
      Nat.min_eq_left (by omega)]

/-- The local slots of the running frame keep their values unless one of them is assigned or the
frame is left. -/
theorem Effect.take_floor_eq (h : Effect m i event m') (hfloor : m.floor ≤ m.stack.size)
    (hop : i.opcode ≠ .setLocal) (hdepth : m.calls.depth ≤ m'.calls.depth) :
    m'.stack.toList.take m.floor = m.stack.toList.take m.floor := by
  have kept {below operands results : List Value} (supplies : m.Supplies below operands)
      (live : m'.stack.toList = below ++ results) :
      m'.stack.toList.take m.floor = m.stack.toList.take m.floor := by
    rw [live]
    exact supplies.take_below hfloor (Nat.le_refl _) results
  cases h with
  | compute supplies value room =>
    exact kept supplies (by rw [Stack.toList_push, supplies.toList_drop])
  | discard op supplies | pass op supplies | branch op supplies | assignGlobal op supplies =>
    exact kept supplies (supplies.toList_drop.trans (List.append_nil _).symm)
  | jump => rfl
  | assignLocal op => exact absurd op hop
  | create op found supplies count room =>
    exact kept supplies (by rw [Stack.toList_push, supplies.toList_drop])
  | native op supplies count answer room =>
    exact kept supplies (by rw [Stack.toList_push]; exact congrArg (· ++ _) supplies.toList_drop)
  | enter op supplies count arity depth room =>
    rw [Stack.toList_growTo _ _ room, List.take_append_of_le_length]
    rwa [Stack.length_toList]
  | leave op supplies resumed room =>
    simp only [CallStack.depth, resumed, Array.size_push] at hdepth
    omega

namespace Machine

/-- Where the running frame went on before the step does not matter to the frames. -/
theorem FrameEffect.of_jump {offset : Nat} (h : (m.jump offset).FrameEffect m') :
    m.FrameEffect m' := by
  cases h with
  | stay calls live below => exact .stay calls live below
  | enter split above room calls live size => exact .enter split above room calls live size
  | leave resumed calls live => exact .leave resumed calls live

/-- Slots that lie below the closure of the running frame keep their values. -/
theorem FrameEffect.take_eq {b : Nat} (h : m.FrameEffect m') (noWrap : m.calls.top.NoWrap)
    (hfloor : m.floor ≤ m.stack.size) (hb : b ≤ m.calls.top.base - 1) :
    m'.stack.toList.take b = m.stack.toList.take b := by
  have hbase := base_le_floor noWrap
  have hlen := m.stack.length_toList
  cases h with
  | stay calls live below =>
    have htake := congrArg (List.take b) below
    rwa [List.take_take, List.take_take, Nat.min_eq_left (by omega)] at htake
  | enter split above room calls live size =>
    rw [live, List.take_append_of_le_length (by omega)]
  | leave resumed calls live =>
    rw [live, List.take_append_of_le_length (by rw [List.length_take]; omega), List.take_take,
      Nat.min_eq_left hb]

theorem Continues.frameEffect {events : List Event} (h : m.Continues events m')
    (noWrap : m.calls.top.NoWrap) (noWrap' : m'.calls.top.NoWrap)
    (hfloor : m.floor ≤ m.stack.size) : m.FrameEffect m' := by
  cases h with
  | dispatch found effect => exact .of_jump (effect.frameEffect noWrap noWrap' hfloor)
  | finish beyond inner effect => exact effect.frameEffect noWrap noWrap' hfloor

end Machine
end BytecodeMachine

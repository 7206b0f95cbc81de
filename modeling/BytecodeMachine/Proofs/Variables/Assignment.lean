import BytecodeMachine.Proofs.Frames.Within

/-!
# Assigned variables

A global holds what the run assigned to it last. A local slot holds what its own activation assigned
to it last, and before that the argument or the null with which the activation began, as long as no
end of a frame wraps.
-/

namespace BytecodeMachine.Machine

variable {m m' start : Machine} {past : List Machine} {events : List Event} {k : Nat}

private theorem findSome?_cons_or {α β : Type} (f : α → Option β) (a : α) (l : List α)
    (b : Option β) : ((a :: l).findSome? f).or b = (f a).or ((l.findSome? f).or b) := by
  rw [List.findSome?_cons]
  cases f a <;> rfl

/-- The value that the next step assigns to a global. -/
def globalAssigned? (m : Machine) (k : Nat) : Option Value :=
  if m.instruction? = some ⟨.setGlobal, [k]⟩ then m.stack.top? else none

theorem Continues.getElem?_globals (h : m.Continues events m') :
    m'.globals[k]? = (m.globalAssigned? k).or m.globals[k]? := by
  cases h with
  | @dispatch i event m' found effect =>
    rw [globalAssigned?]
    by_cases hop : i.opcode = .setGlobal
    · obtain ⟨v, top, slot, hglobals⟩ := effect.of_setGlobal hop
      have top : m.stack.top? = some v := top
      rw [found, eq_of_opcode_operand found hop rfl, hglobals, Array.getElem?_set]
      by_cases hoperand : i.operand 0 = k
      · rw [if_pos hoperand, hoperand, if_pos rfl, top]
        rfl
      · rw [if_neg hoperand, if_neg (by simpa using hoperand)]
        rfl
    · have hne : m.instruction? ≠ some ⟨.setGlobal, [k]⟩ := by
        intro heq
        obtain rfl := Option.some.inj (found.symm.trans heq)
        exact hop rfl
      rw [if_neg hne, effect.globals_eq hop]
      rfl
  | finish beyond inner effect =>
    rw [globalAssigned?, instruction?_eq_none beyond, if_neg nofun, effect.globals_eq nofun]
    rfl

/-- A global holds the value that the run assigned to it last, or the one it began with. -/
theorem Run.getElem?_globals (run : Run start past m) :
    m.globals[k]? = (past.findSome? (·.globalAssigned? k)).or start.globals[k]? := by
  induction run with
  | refl => rfl
  | step run next ih =>
    rw [(continues_of_step next).getElem?_globals, ih, findSome?_cons_or]

/-- The value that the next step assigns to a local slot of a frame at a depth. -/
def localAssigned? (m : Machine) (depth k : Nat) : Option Value :=
  if m.calls.depth = depth ∧ m.instruction? = some ⟨.setLocal, [k]⟩ then m.stack.top? else none

/-- A step that does not leave the running frame changes no local slot but the one it assigns. -/
theorem Continues.getElem?_local (h : m.Continues events m') (noWrap : m.calls.top.NoWrap)
    (hfloor : m.floor ≤ m.stack.size) (hdepth : m.calls.depth ≤ m'.calls.depth)
    (hk : k < m.calls.top.numSlots) :
    m'.stack.toList[m.calls.top.base + k]? =
      (m.localAssigned? m.calls.depth k).or m.stack.toList[m.calls.top.base + k]? := by
  have hslot : m.calls.top.base + k < m.floor := noWrap.add_lt_floor hk
  have kept (htake : m'.stack.toList.take m.floor = m.stack.toList.take m.floor) :
      m'.stack.toList[m.calls.top.base + k]? = m.stack.toList[m.calls.top.base + k]? := by
    rw [← List.getElem?_take_of_lt hslot, htake, List.getElem?_take_of_lt hslot]
  rw [localAssigned?]
  cases h with
  | @dispatch i event m' found effect =>
    by_cases hop : i.opcode = .setLocal
    · obtain ⟨below, v, supplies, slot, live, -⟩ := effect.of_setLocal hop
      have hsplit : m.stack.toList = below ++ [v] := supplies.split
      have hbelow : m.floor ≤ below.length := supplies.floor_le hfloor
      have live : m'.stack.toList = below.set (m.calls.top.base + i.operand 0) v := live
      rw [found, eq_of_opcode_operand found hop rfl, live, List.getElem?_set, hsplit,
        Stack.top?_eq_getLast?, hsplit, List.getLast?_concat]
      by_cases hoperand : i.operand 0 = k
      · rw [hoperand, if_pos rfl, if_pos (by omega), if_pos ⟨rfl, rfl⟩]
        rfl
      · rw [if_neg (by omega), if_neg (by simpa using hoperand),
          List.getElem?_append_left (by omega)]
        rfl
    · have hne : ¬(m.calls.depth = m.calls.depth ∧
          m.instruction? = some ⟨.setLocal, [k]⟩) := by
        rintro ⟨-, heq⟩
        obtain rfl := Option.some.inj (found.symm.trans heq)
        exact hop rfl
      rw [if_neg hne]
      exact kept (effect.take_floor_eq hfloor hop hdepth)
  | finish beyond inner effect =>
    rw [instruction?_eq_none beyond, if_neg nofun]
    exact kept (effect.take_floor_eq hfloor nofun hdepth)

namespace Within

variable {frames : Array Frame} {callee : Frame}

/-- Steps on the callee or above it change no local slot of the callee but by an assignment on the
callee itself. -/
theorem getElem?_local (h : Within frames callee m) (next : m.step = .continued m' events)
    (noWrap : m'.NoWrap) (hcallee : callee.NoWrap) (hdepth : frames.size < m'.calls.depth)
    (hk : k < callee.numSlots) :
    m'.stack.toList[callee.base + k]? =
      (m.localAssigned? (frames.size + 1) k).or m.stack.toList[callee.base + k]? := by
  have continues := continues_of_step next
  have hfloor := h.sound.floor_le
  have htop := h.sound.noWrap.top
  rcases h.above.eq_or_floor_lt h.sound.stacked h.sound.noWrap.callers with
    ⟨callers_eq, closure_eq, base_eq⟩ | ⟨hsize, habove⟩
  · have hslots : m.calls.top.numSlots = callee.numSlots := by
      rw [Frame.numSlots, Frame.numSlots, closure_eq]
    have hsame : m.calls.depth = frames.size + 1 := by
      rw [CallStack.depth, callers_eq]
    have hlocal := continues.getElem?_local (k := k) htop hfloor (by omega) (by omega)
    rwa [base_eq, hsame] at hlocal
  · have hne : ¬(m.calls.depth = frames.size + 1 ∧
        m.instruction? = some ⟨.setLocal, [k]⟩) := by
      rintro ⟨hsame, -⟩
      have hdeeper : m.calls.depth = m.calls.callers.size + 1 := rfl
      omega
    have hslot : callee.base + k < callee.floor := hcallee.add_lt_floor hk
    have effect := continues.frameEffect htop noWrap.top hfloor
    have htake := effect.take_eq (b := callee.floor) htop hfloor (by omega)
    rw [localAssigned?, if_neg hne, ← List.getElem?_take_of_lt hslot, htake,
      List.getElem?_take_of_lt hslot]
    rfl

/-- A local slot of the callee holds the value that the callee assigned to it last, or the one it
began with. -/
theorem getElem?_local_of_run (h : Within frames callee start) (run : Run start past m)
    (inside : ∀ s ∈ m :: past, frames.size < s.calls.depth) (noWrap : ∀ s ∈ m :: past, s.NoWrap)
    (hcallee : callee.NoWrap) (hk : k < callee.numSlots) :
    m.stack.toList[callee.base + k]? =
      (past.findSome? (·.localAssigned? (frames.size + 1) k)).or
        start.stack.toList[callee.base + k]? := by
  induction run with
  | refl => rfl
  | @step past m m' events run next ih =>
    have earlier : ∀ s ∈ m :: past, s.NoWrap := fun s hs => noWrap s (.tail _ hs)
    have within := h.run run (fun s hs => Nat.ne_of_gt (inside s (.tail _ hs))) earlier
    rw [within.getElem?_local next (noWrap _ (.head _)) hcallee (inside _ (.head _)) hk,
      ih (fun s hs => inside s (.tail _ hs)) earlier, findSome?_cons_or]

end Within

/-- How the running frame was entered: by a call from a lower frame, with arguments, after which the
run went through some states without leaving the frame. -/
structure Entered (past : List Machine) (m call : Machine) (recent : List Machine)
    (args : List Value) : Prop where
  past_eq : ∃ before, past = recent ++ call :: before
  inside : ∀ s ∈ recent, m.calls.depth ≤ s.calls.depth
  outside : call.calls.depth < m.calls.depth
  instruction_eq : call.instruction? = some ⟨.call, [args.length]⟩
  callee_eq : ∃ below, call.stack.toList = below ++ .closure m.calls.top.closure :: args

/-- A run that goes deeper than it began splits at the last step to that depth. -/
theorem Run.exists_split {depth : Nat} (run : Run start past m) (hstart : start.calls.depth < depth)
    (hdepth : depth ≤ m.calls.depth) :
    ∃ recent call before first events, past = recent ++ call :: before ∧ Run start before call ∧
      call.calls.depth < depth ∧ call.step = .continued first events ∧
      depth ≤ first.calls.depth ∧ Run first recent m ∧
      ∀ s ∈ m :: recent, depth ≤ s.calls.depth := by
  induction run with
  | refl => omega
  | @step past m m' events run next ih =>
    rcases Nat.lt_or_ge m.calls.depth depth with hlower | hinside
    · exact ⟨[], m, past, m', events, rfl, run, hlower, next, hdepth, .refl, by simpa using hdepth⟩
    · obtain ⟨recent, call, before, first, events', rfl, hbefore, hcall, hnext, hfirst, hrecent,
        inside⟩ := ih hinside
      refine ⟨m :: recent, call, before, first, events', rfl, hbefore, hcall, hnext, hfirst,
        .step hrecent next, ?_⟩
      intro s hs
      rcases List.mem_cons.mp hs with rfl | hs
      · exact hdepth
      · exact inside s hs

/-- A step to a greater depth calls a closure. -/
theorem Continues.called (h : m.Continues events m') (noWrap : m'.calls.top.NoWrap)
    (hdepth : m.calls.depth < m'.calls.depth) :
    ∃ below args c, m.instruction? = some ⟨.call, [args.length]⟩ ∧
      m.stack.toList = below ++ .closure c :: args ∧
      args.length = c.function.numParameters ∧
      (∃ caller, m'.calls = ⟨m.calls.callers.push caller, .enter c (below.length + 1)⟩) ∧
      m'.stack.toList =
        m.stack.toList ++ .replicate (c.function.numSlots - args.length) .null := by
  cases h with
  | @dispatch i event m' found effect =>
    have hop := effect.opcode_of_depth_lt hdepth
    have hi := eq_of_opcode_operand found hop rfl
    rcases effect.of_call hop with
      ⟨_, _, _, -, -, calls⟩ | ⟨below, args, c, supplies, count, arity, calls, live⟩
    · rw [calls] at hdepth
      exact absurd hdepth (Nat.lt_irrefl _)
    · have hentered : m'.calls.top = .enter c (below.length + 1) := by
        rw [calls]
        rfl
      have hgrown : m'.floor - m.stack.size = c.function.numSlots - args.length := by
        rw [floor, hentered]
        exact supplies.floor_sub_size (hentered ▸ noWrap)
      exact ⟨below, args, c, by rw [found, hi, count], supplies.split, arity, ⟨_, calls⟩,
        hgrown ▸ live⟩
  | finish beyond inner effect =>
    cases effect.opcode_of_depth_lt hdepth

/-- The slots above the closure hold the arguments and then nulls. -/
private theorem getElem?_arguments {below args : List Value} {c : Value} {k numSlots : Nat}
    (hk : k < numSlots) :
    (below ++ c :: args ++ List.replicate (numSlots - args.length) .null)[below.length + 1 + k]? =
      some (args[k]?.getD .null) := by
  rw [List.append_assoc, List.cons_append, Nat.add_assoc, List.getElem?_append_right (by omega),
    Nat.add_sub_cancel_left, Nat.add_comm 1 k, List.getElem?_cons_succ]
  rcases Nat.lt_or_ge k args.length with hlt | hge
  · rw [List.getElem?_append_left hlt, List.getElem?_eq_getElem hlt]
    rfl
  · rw [List.getElem?_append_right hge, List.getElem?_replicate, if_pos (by omega),
      List.getElem?_eq_none hge]
    rfl

/-- In a run that went deeper than it began, the running frame was entered by a call, and until a
frame wraps its local slots hold what it assigned to them last, or else the arguments of that call
and then nulls. -/
theorem Run.exists_entered (run : Run start past m) (wellStacked : start.WellStacked)
    (noWrap : ∀ s ∈ m :: past, s.NoWrap) (hdepth : start.calls.depth < m.calls.depth) :
    ∃ call recent args, Entered past m call recent args ∧
      args.length = m.calls.top.closure.function.numParameters ∧
      ∀ k < m.calls.top.numSlots, m.stack.toList[m.calls.top.base + k]? =
        (recent.findSome? (·.localAssigned? m.calls.depth k)).or (args[k]?.getD .null) := by
  obtain ⟨recent, call, before, first, events, rfl, hbefore, hcall, hnext, hfirst, hrecent,
    inside⟩ := run.exists_split hdepth le_rfl
  have inRecent : ∀ s ∈ m :: recent, s.NoWrap := fun s hs => noWrap s (List.mem_append_left _ hs)
  have earlier : ∀ s ∈ call :: before, s.NoWrap :=
    fun s hs => noWrap s (List.mem_append_right (m :: recent) hs)
  have hentered := inRecent first hrecent.start_mem
  have entered : first.Sound := wellStacked.sound_of_run (hbefore.step hnext)
    (List.forall_mem_cons.mpr ⟨hentered, earlier⟩)
  obtain ⟨below, args, c, instruction, split, arity, ⟨caller, calls⟩, live⟩ :=
    (continues_of_step hnext).called hentered.top (by omega)
  have hcallee : (Frame.enter c (below.length + 1)).NoWrap := by
    have htop := hentered.top
    rwa [calls] at htop
  have hsize : (call.calls.callers.push caller).size + 1 = m.calls.depth := by
    have hfirst' : first.calls.depth = (call.calls.callers.push caller).size + 1 := by
      rw [calls, CallStack.depth]
    have hcall' : call.calls.depth = call.calls.callers.size + 1 := rfl
    rw [Array.size_push] at hfirst' ⊢
    omega
  -- From the call on the run stays on the callee or above it, so the callee's slots are its own.
  have within : Within (call.calls.callers.push caller) (.enter c (below.length + 1)) first :=
    ⟨entered, by rw [calls]; exact .callee rfl rfl⟩
  have hinside : ∀ s ∈ m :: recent, (call.calls.callers.push caller).size < s.calls.depth := by
    intro s hs
    have hle := inside s hs
    omega
  have hwithin := within.run hrecent (fun s hs => Nat.ne_of_gt (hinside s hs)) inRecent
  have sound := hwithin.sound
  have htop : m.calls.top.closure = c ∧ m.calls.top.base = below.length + 1 := by
    rcases hwithin.above.eq_or_floor_lt sound.stacked sound.noWrap.callers with
      ⟨-, closure_eq, base_eq⟩ | ⟨hdeeper, -⟩
    · exact ⟨closure_eq, base_eq⟩
    · have hm : m.calls.depth = m.calls.callers.size + 1 := rfl
      omega
  refine ⟨call, recent, args, ⟨⟨before, rfl⟩, fun s hs => inside s (.tail _ hs), hcall,
    instruction, below, by rw [htop.1, split]⟩, by rw [htop.1, arity], ?_⟩
  intro k hk
  rw [Frame.numSlots, htop.1] at hk
  have hslot := within.getElem?_local_of_run hrecent hinside inRecent hcallee (k := k) hk
  rw [htop.2, ← hsize]
  refine hslot.trans (congrArg _ ?_)
  rw [live, split]
  exact getElem?_arguments hk

end BytecodeMachine.Machine

import BytecodeMachine.Proofs.Frames.Within

/-!
# Calls and returns

A call of a closure sets up a frame above everything its caller has. Until the run is back in the
caller, the frames up to the caller and the slots below the closure stay as they are, and then one
value stands in the place of the closure and its arguments. All of it holds as long as no end of a
frame wraps.
-/

namespace BytecodeMachine.Machine

variable {m m' m₁ m₂ s : Machine} {past : List Machine} {events : List Event} {n : Nat}
  {c : Closure Value} {v : Value} {below args : List Value}

/-- A successful call of a closure keeps the stack and puts a frame on top of its caller, which is
to go on behind the call. -/
theorem Continues.enter (h : m.Continues events m') (found : m.instruction? = some ⟨.call, [n]⟩)
    (split : m.stack.toList = below ++ .closure c :: args) (count : args.length = n) :
    m'.calls = (m.pass ⟨.call, [n]⟩).calls.push (.enter c (below.length + 1)) ∧
      ∃ k, m'.stack.toList = m.stack.toList ++ .replicate k .null := by
  cases h with
  | @dispatch i event m' found' effect =>
    obtain rfl : i = ⟨.call, [n]⟩ := Option.some.inj (found'.symm.trans found)
    have callee {below' args' : List Value} {v : Value}
        (supplies : (m.pass ⟨.call, [n]⟩).Supplies below' (v :: args'))
        (length : args'.length = n) : below' = below ∧ v = .closure c ∧ args' = args := by
      have hsplit : below' ++ v :: args' = below ++ .closure c :: args :=
        supplies.split.symm.trans split
      obtain ⟨rfl, hcons⟩ := List.append_inj' hsplit (by simp [count, length])
      obtain ⟨rfl, rfl⟩ := List.cons.inj hcons
      exact ⟨rfl, rfl, rfl⟩
    rcases effect.of_call rfl with
      ⟨_, _, b, supplies, length, -⟩ | ⟨_, _, c', supplies, length, -, calls, live⟩
    · obtain ⟨-, hcallee, -⟩ := callee supplies length
      cases hcallee
    · obtain ⟨rfl, hcallee, rfl⟩ := callee supplies length
      cases hcallee
      exact ⟨calls, _, live⟩
  | finish beyond =>
    obtain ⟨hip, -⟩ := exists_of_instruction? found
    exact absurd hip (Nat.not_lt.mpr beyond)

/-- The value with which the next step leaves the running frame: the one it pops, or null if it
pops none or the code is over. -/
inductive Answers (m : Machine) : Value → Prop where
  | popped {v : Value} (found : m.instruction? = some ⟨.returnValue, []⟩)
    (top : m.stack.top? = some v) : Answers m v
  | null (found : m.instruction? = some ⟨.returnNull, []⟩) : Answers m .null
  | finished (beyond : m.calls.top.code.size ≤ m.calls.top.ip) : Answers m .null

/-- A step to a smaller depth leaves the running frame with the value that it answers. -/
theorem Continues.leave (h : m.Continues events m') (hdepth : m'.calls.depth < m.calls.depth) :
    ∃ v, m.Answers v ∧ m'.stack.top? = some v := by
  cases h with
  | dispatch found effect =>
    obtain ⟨below, popped, v, supplies, htop, ⟨op, -, rfl⟩ | ⟨op, rfl⟩⟩ :=
      effect.of_depth_gt hdepth
    · exact ⟨.null, .null (found.trans (congrArg some (eq_of_opcode found op rfl))), htop⟩
    · refine ⟨v, .popped (found.trans (congrArg some (eq_of_opcode found op rfl))) ?_, htop⟩
      have hsplit : m.stack.toList = below ++ [v] := supplies.split
      rw [Stack.top?_eq_getLast?, hsplit, List.getLast?_concat]
  | finish beyond inner effect =>
    obtain ⟨below, popped, v, supplies, htop, ⟨-, -, rfl⟩ | ⟨op, -⟩⟩ :=
      effect.of_depth_gt hdepth
    · exact ⟨.null, .finished beyond, htop⟩
    · cases op

/-- When the run is back at the depth of a call and no frame has wrapped, the value that the callee
answered stands in the place of the callee and its arguments, and the frames are those from right
after the call. -/
theorem calls_and_stack_of_return (p : Program) (setup : Setup) (m m₁ m₂ : Machine)
    (before past : List Machine) (events : List Event) (n : Nat) (c : Closure Value)
    (below args : List Value) (reached : Reached p setup before m)
    (noWrap : ∀ s ∈ m₂ :: past ++ m :: before, s.NoWrap)
    (found : m.instruction? = some ⟨.call, [n]⟩)
    (split : m.stack.toList = below ++ .closure c :: args) (count : args.length = n)
    (next : m.step = .continued m₁ events) (run : Run m₁ past m₂)
    (first : ∀ s ∈ past, s.calls.depth ≠ m.calls.depth)
    (back : m₂.calls.depth = m.calls.depth) :
    ∃ last rest v, past = last :: rest ∧ last.Answers v ∧ m₂.stack.toList = below ++ [v] ∧
      m₁.calls = m₂.calls.push (.enter c (below.length + 1)) ∧
      m₂.calls = ⟨m.calls.callers, { m.calls.top with ip := m.calls.top.ip + 2 }⟩ := by
  have continues := continues_of_step next
  have inCall : ∀ s ∈ m₂ :: past, s.NoWrap := fun s hs => noWrap s (List.mem_append_left _ hs)
  have sound := reached.sound fun s hs => noWrap s (List.mem_append_right _ hs)
  have entered := sound.continues continues (inCall m₁ run.start_mem)
  obtain ⟨calls, k, live⟩ := continues.enter found split count
  have within : Within (m.calls.callers.push (m.pass ⟨.call, [n]⟩).calls.top)
      (.enter c (below.length + 1)) m₁ := ⟨entered, by rw [calls]; exact .callee rfl rfl⟩
  have hdepth : (m.calls.callers.push (m.pass ⟨.call, [n]⟩).calls.top).size = m.calls.depth :=
    Array.size_push ..
  -- Only the last step can leave the callee: before it the run never was at the caller's depth.
  cases run with
  | refl => exact absurd (within.lt_depth.trans_eq back) (by omega)
  | @step rest last _ events' run last_next =>
    have earlier := fun s hs => inCall s (.tail _ hs)
    have inside := within.run run (by rwa [hdepth]) earlier
    rcases inside.step last_next (inCall _ (.head _)) with within' | ⟨frames_eq, w, hlive⟩
    · exact absurd (within'.lt_depth.trans_eq back) (by omega)
    · obtain ⟨top_eq, callers_eq⟩ := Array.push_eq_push.mp frames_eq
      have hcalls : m₂.calls = (m.pass ⟨.call, [n]⟩).calls := by
        change (⟨m₂.calls.callers, m₂.calls.top⟩ : CallStack) = _
        rw [callers_eq, top_eq]
        rfl
      have hkept : last.stack.toList.take below.length = m₁.stack.toList.take below.length :=
        within.take_run_eq run (by rw [hdepth]; exact fun s hs => first s (.tail _ hs)) earlier le_rfl
      have hbelow : m₁.stack.toList.take below.length = below := by
        rw [live, split, List.append_assoc, List.take_left]
      obtain ⟨v, answers, top⟩ := (continues_of_step last_next).leave
        (by rw [back, ← hdepth]; exact inside.lt_depth)
      have hv : w = v := by
        rw [Stack.top?_eq_getLast?, hlive, List.getLast?_concat] at top
        exact Option.some.inj top
      refine ⟨last, rest, v, rfl, answers, ?_, by rw [hcalls, calls], hcalls⟩
      rw [hlive, hv]
      exact congrArg (· ++ [v]) (hkept.trans hbelow)

/-- The closure that `callOnce` calls. -/
def callOnceCallee : Closure Value :=
  ⟨.created 0, ⟨.given 0, #[16, 0, 0, 25, 1, 28, 0, 24, 0, 22], 2, 1⟩, #[.null]⟩

theorem calls_and_stack_of_callOnce :
    ∃ before, Reached callOnce { limits := ⟨8, 1, 2⟩ } before (callOnceAfter 5) ∧
      (∀ s ∈ callOnceAfter 11 :: [callOnceAfter 10, callOnceAfter 9, callOnceAfter 8,
        callOnceAfter 7, callOnceAfter 6] ++ callOnceAfter 5 :: before, s.NoWrap) ∧
      ∃ last rest v,
        [callOnceAfter 10, callOnceAfter 9, callOnceAfter 8, callOnceAfter 7, callOnceAfter 6] =
          last :: rest ∧
        last.Answers v ∧ (callOnceAfter 11).stack.toList = [] ++ [v] ∧
        (callOnceAfter 6).calls = (callOnceAfter 11).calls.push (.enter callOnceCallee 1) ∧
        (callOnceAfter 11).calls =
          ⟨(callOnceAfter 5).calls.callers, { (callOnceAfter 5).calls.top with ip := 12 }⟩ := by
  obtain ⟨before, reached⟩ := (reachable_callOnceAfter 5).exists_reached
  have run : Run (callOnceAfter 6) [callOnceAfter 10, callOnceAfter 9, callOnceAfter 8,
      callOnceAfter 7, callOnceAfter 6] (callOnceAfter 11) :=
    .step (.step (.step (.step (.step .refl (by rfl)) (by rfl)) (by rfl)) (by rfl)) (by rfl)
  have called : Run (callOnceAfter 5) [callOnceAfter 5] (callOnceAfter 6) := .step .refl (by rfl)
  have noWrap := neverWraps_callOnce.reached (reached.run (called.trans run))
  exact ⟨before, reached, noWrap,
    calls_and_stack_of_return callOnce { limits := ⟨8, 1, 2⟩ } (callOnceAfter 5) (callOnceAfter 6)
      (callOnceAfter 11) before _ _ 1 callOnceCallee [] [.boolean true] reached noWrap (by rfl)
      (by rfl) (by rfl) (by rfl) run (by decide) (by rfl)⟩

/-- A program with an operand below the call of a function whose slots end beyond the largest word.
The function pops its own closure and then the operand. -/
def popCaller : Program where
  code := #[6, 27, 0, 0, 0, 21, 0]
  constants := Pool.empty.push (.function ⟨.given 0, #[2, 2], 2 ^ 64 - 2, 0⟩)
    (Value.given_function (Identity.isGiven_given 0))

def popCallerAfter (steps : Nat) : Machine := after popCaller { limits := ⟨3, 1, 2⟩ } steps

/-- The caller's operand is lost when the call is over. -/
theorem not_stack_of_popCaller :
    ∃ c past events, Reachable popCaller { limits := ⟨3, 1, 2⟩ } (popCallerAfter 2) ∧
      (popCallerAfter 2).instruction? = some ⟨.call, [0]⟩ ∧
      (popCallerAfter 2).stack.toList = [.boolean true] ++ [.closure c] ∧
      (popCallerAfter 2).step = .continued (popCallerAfter 3) events ∧
      Run (popCallerAfter 3) past (popCallerAfter 6) ∧
      (∀ s ∈ past, s.calls.depth ≠ (popCallerAfter 2).calls.depth) ∧
      (popCallerAfter 6).calls.depth = (popCallerAfter 2).calls.depth ∧
      ∀ v, (popCallerAfter 6).stack.toList ≠ [.boolean true] ++ [v] := by
  have run : Run (popCallerAfter 3) [popCallerAfter 5, popCallerAfter 4, popCallerAfter 3]
      (popCallerAfter 6) :=
    .step (.step (.step .refl (by rfl)) (by rfl)) (by rfl)
  refine ⟨_, _, _, reachable_after _ _ 2, by rfl, by rfl, by rfl, run, by decide, by rfl, ?_⟩
  intro v heq
  cases heq

end BytecodeMachine.Machine

import BytecodeMachine.Proofs.Frames.Layout

/-!
# Runs inside a frame

From the moment a frame is entered until the run is back below it, that frame stays where it is, on
the callers that it was entered from, and the slots below the running frame keep their values, as
long as no end of a frame wraps.
-/

namespace BytecodeMachine

/-- The running frame is a callee on top of some frames, or lies above that callee. The callee may
have gone on since it was entered. -/
inductive Above (frames : Array Frame) (callee : Frame) : Array Frame → Frame → Prop where
  | callee {f : Frame} (closure_eq : f.closure = callee.closure) (base_eq : f.base = callee.base) :
    Above frames callee frames f
  | inner {callers : Array Frame} {lower upper : Frame} (h : Above frames callee callers lower) :
    Above frames callee (callers.push lower) upper

namespace Above

variable {frames callers : Array Frame} {callee lower upper top : Frame}

theorem jump (h : Above frames callee callers top) (offset : Nat) :
    Above frames callee callers { top with ip := offset } := by
  cases h with
  | callee closure_eq base_eq => exact .callee closure_eq base_eq
  | inner h => exact .inner h

theorem size_le (h : Above frames callee callers top) : frames.size ≤ callers.size := by
  induction h with
  | callee => exact Nat.le_refl _
  | inner h ih =>
    rw [Array.size_push]
    omega

/-- The running frame is the callee, or it lies above the slots of the callee. -/
theorem eq_or_floor_lt {live : List Value} (h : Above frames callee callers top)
    (stacked : Stacked live callers top) (noWrap : ∀ f ∈ callers, f.NoWrap) :
    (callers = frames ∧ top.closure = callee.closure ∧ top.base = callee.base) ∨
      frames.size < callers.size ∧ callee.floor < top.base := by
  induction h with
  | callee closure_eq base_eq => exact .inl ⟨rfl, closure_eq, base_eq⟩
  | @inner callers lower upper h ih =>
    obtain ⟨hlower, habove, -⟩ := stacked.caller
    refine .inr ⟨by rw [Array.size_push]; exact Nat.lt_succ_of_le h.size_le, ?_⟩
    rcases ih hlower fun f hf => noWrap f (Array.mem_push_of_mem _ hf) with ⟨-, hclosure, hbase⟩ | ⟨-, hfloor⟩
    · have hfloor : callee.floor = lower.floor := by
        rw [Frame.floor, Frame.floor, Frame.numSlots, Frame.numSlots, hclosure, hbase]
      omega
    · have hbase := (noWrap lower Array.mem_push_self).base_le_floor
      omega

theorem base_le {live : List Value} (h : Above frames callee callers top)
    (stacked : Stacked live callers top) (noWrap : ∀ f ∈ callers, f.NoWrap) :
    callee.base ≤ top.base := by
  induction h with
  | callee closure_eq base_eq => exact Nat.le_of_eq base_eq.symm
  | @inner callers lower upper h ih =>
    obtain ⟨hlower, habove, -⟩ := stacked.caller
    have hbase := (noWrap lower Array.mem_push_self).base_le_floor
    have hle := ih hlower fun f hf => noWrap f (Array.mem_push_of_mem _ hf)
    omega

/-- The running frame is the callee, or its caller is or lies above it. -/
theorem caller (h : Above frames callee (callers.push lower) upper) :
    (frames = callers.push lower ∧ upper.base = callee.base) ∨
      Above frames callee callers lower := by
  generalize hcallers : callers.push lower = all at h
  cases h with
  | callee closure_eq base_eq => exact .inl ⟨rfl, base_eq⟩
  | inner h =>
    obtain ⟨rfl, rfl⟩ := Array.push_eq_push.mp hcallers
    exact .inr h

end Above

namespace Machine

variable {m m' start s : Machine} {past : List Machine} {events : List Event}
  {frames : Array Frame} {callee : Frame}

/-- The run is on a frame that lies on top of some frames, or above it. -/
structure Within (frames : Array Frame) (callee : Frame) (m : Machine) : Prop where
  sound : m.Sound
  above : Above frames callee m.calls.callers m.calls.top

namespace Within

theorem lt_depth (h : Within frames callee m) : frames.size < m.calls.depth :=
  Nat.lt_succ_of_le h.above.size_le

theorem base_le (h : Within frames callee m) : callee.base ≤ m.calls.top.base :=
  h.above.base_le h.sound.stacked h.sound.noWrap.callers

/-- A step stays on the callee or above it, or goes back to the frames below and puts a value in
the place of the callee. -/
theorem step (h : Within frames callee m) (next : m.step = .continued m' events)
    (noWrap : m'.NoWrap) :
    Within frames callee m' ∨ m'.calls.callers.push m'.calls.top = frames ∧
      ∃ v, m'.stack.toList = m.stack.toList.take (callee.base - 1) ++ [v] := by
  have continues := continues_of_step next
  have sound := h.sound.continues continues noWrap
  cases continues.frameEffect h.sound.noWrap.top noWrap.top h.sound.floor_le with
  | stay calls live below =>
    refine .inl ⟨sound, ?_⟩
    rw [calls]
    exact h.above.jump _
  | enter split above room calls live size =>
    refine .inl ⟨sound, ?_⟩
    rw [calls]
    exact .inner (h.above.jump _)
  | @leave callers caller v resumed calls live =>
    have above := h.above
    rw [resumed] at above
    rcases above.caller with ⟨hframes, hbase⟩ | above
    · exact .inr ⟨by rw [calls, hframes], v, by rw [live, hbase]⟩
    · exact .inl ⟨sound, by rwa [calls]⟩

/-- Slots below the callee keep their values. -/
theorem take_eq {b : Nat} (h : Within frames callee m) (next : m.step = .continued m' events)
    (noWrap : m'.NoWrap) (hb : b ≤ callee.base - 1) :
    m'.stack.toList.take b = m.stack.toList.take b := by
  have hbase := h.base_le
  have hfloor := h.sound.floor_le
  have effect := (continues_of_step next).frameEffect h.sound.noWrap.top noWrap.top hfloor
  exact effect.take_eq h.sound.noWrap.top hfloor (by omega)

/-- The run stays on the callee or above it as long as it does not come back to the depth below. -/
theorem run (h : Within frames callee start) (run : Run start past m)
    (first : ∀ s ∈ m :: past, s.calls.depth ≠ frames.size) (noWrap : ∀ s ∈ m :: past, s.NoWrap) :
    Within frames callee m := by
  induction run with
  | refl => exact h
  | step run next ih =>
    have within := ih (fun s hs => first s (.tail _ hs)) fun s hs => noWrap s (.tail _ hs)
    rcases within.step next (noWrap _ (.head _)) with within | ⟨back, -⟩
    · exact within
    · refine absurd ?_ (first _ (.head _))
      rw [← back, Array.size_push]
      rfl

/-- What lies below the callee lies there as long as the run is on the callee or above it. -/
theorem take_run_eq {b : Nat} (h : Within frames callee start) (run : Run start past m)
    (first : ∀ s ∈ past, s.calls.depth ≠ frames.size) (noWrap : ∀ s ∈ m :: past, s.NoWrap)
    (hb : b ≤ callee.base - 1) :
    m.stack.toList.take b = start.stack.toList.take b := by
  induction run with
  | refl => rfl
  | @step past m m' events run next ih =>
    have earlier : ∀ s ∈ m :: past, s.NoWrap := fun s hs => noWrap s (.tail _ hs)
    rw [(h.run run first earlier).take_eq next (noWrap _ (.head _)) hb]
    exact ih (fun s hs => first s (.tail _ hs)) earlier

end Within
end Machine
end BytecodeMachine

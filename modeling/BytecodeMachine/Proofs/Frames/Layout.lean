import BytecodeMachine.Proofs.Frames.Effect
import BytecodeMachine.Proofs.Frames.Wrapping
import Mathlib.Data.List.Chain

/-!
# Layout of frames and stack

The frames lie on the stack one above another, each of them on the slot that holds its closure. The
slots of a frame end below that slot of the frame above it, and those of the running frame are live.
A program has this layout until the end of a frame wraps: a frame whose end has wrapped takes the
values below its slots for operands of its own.
-/

namespace BytecodeMachine

/-- Frames lie one above another on the live part of a stack, the main one on the ground. -/
inductive Stacked (live : List Value) : Array Frame → Frame → Prop where
  | main {f : Frame} (base : f.base = 0) (floor : f.floor = 0) : Stacked live #[] f
  | call {callers : Array Frame} {lower upper : Frame} (h : Stacked live callers lower)
      (above : lower.floor < upper.base)
      (closure : live[upper.base - 1]? = some (.closure upper.closure)) :
      Stacked live (callers.push lower) upper

theorem Frame.NoWrap.base_le_floor {f : Frame} (h : f.NoWrap) : f.base ≤ f.floor := by
  rw [Frame.floor_eq h]
  exact Nat.le_add_right _ _

theorem Frame.NoWrap.add_lt_floor {f : Frame} {k : Nat} (h : f.NoWrap) (hk : k < f.numSlots) :
    f.base + k < f.floor := by
  rw [Frame.floor_eq h]
  exact Nat.add_lt_add_left hk _

namespace Stacked

variable {live live' : List Value} {callers : Array Frame} {top lower upper : Frame}

theorem congr_take (h : Stacked live callers top) (noWrap : ∀ f ∈ callers, f.NoWrap)
    (htake : live'.take top.base = live.take top.base) : Stacked live' callers top := by
  -- The frames below look at less of the stack than the top one, so the same change suits them.
  induction h with
  | main base floor => exact .main base floor
  | @call callers lower upper h above closure ih =>
    have hlower := (noWrap lower Array.mem_push_self).base_le_floor
    refine .call (ih (fun f hf => noWrap f (Array.mem_push_of_mem _ hf)) ?_) above ?_
    · have htake := congrArg (List.take lower.base) htake
      rwa [List.take_take, List.take_take, Nat.min_eq_left (by omega)] at htake
    · have hslot : upper.base - 1 < upper.base := by omega
      rw [← List.getElem?_take_of_lt hslot, htake, List.getElem?_take_of_lt hslot, closure]

theorem jump (h : Stacked live callers top) (offset : Nat) :
    Stacked live callers { top with ip := offset } := by
  cases h with
  | main base floor => exact .main base floor
  | call h above closure => exact .call h above closure

theorem caller (h : Stacked live (callers.push lower) upper) :
    Stacked live callers lower ∧ lower.floor < upper.base ∧
      live[upper.base - 1]? = some (.closure upper.closure) := by
  generalize hcallers : callers.push lower = all at h
  cases h with
  | main => simp at hcallers
  | call h above closure =>
    obtain ⟨rfl, rfl⟩ := Array.push_eq_push.mp hcallers
    exact ⟨h, above, closure⟩

/-- A frame begins above the slot of its closure. -/
theorem rooted (h : Stacked live callers top) : Rooted live.length callers top := by
  induction h with
  | main base floor => exact .main base floor
  | call h above closure ih =>
    obtain ⟨hslot, -⟩ := List.getElem?_eq_some_iff.mp closure
    exact .call ih (by omega) (by omega)

theorem isChain (h : Stacked live callers top) :
    (callers.toList ++ [top]).IsChain fun lower upper =>
      1 ≤ upper.base ∧ lower.floor ≤ upper.base - 1 ∧
        live[upper.base - 1]? = some (.closure upper.closure) := by
  induction h with
  | main => exact .singleton _
  | @call callers lower upper h above closure ih =>
    rw [Array.toList_push, List.isChain_append]
    refine ⟨ih, .singleton _, ?_⟩
    intro f hf g hg
    obtain rfl : lower = f := by simpa using hf
    obtain rfl : upper = g := by simpa using hg
    exact ⟨by omega, by omega, closure⟩

end Stacked

namespace Machine

variable {m m' : Machine}

/-- Frames and stack fit together: frames lie one above another, and the slots of the running one
are live. -/
structure WellStacked (m : Machine) : Prop where
  stacked : Stacked m.stack.toList m.calls.callers m.calls.top
  floor_le : m.floor ≤ m.stack.size
  depth_le : m.calls.depth ≤ max 1 m.environment.maxFrames

/-- Frames and stack fit together, and no end of a frame has wrapped. Steps keep both. -/
structure Sound (m : Machine) : Prop extends WellStacked m where
  noWrap : m.NoWrap

theorem NoWrap.callers (h : m.NoWrap) : ∀ f ∈ m.calls.callers, f.NoWrap :=
  fun f hf => h f (List.mem_append_left _ hf.val)

namespace Sound

theorem base_le_floor (h : m.Sound) : m.calls.top.base ≤ m.floor := h.noWrap.top.base_le_floor

theorem jump (h : m.Sound) (offset : Nat) : (m.jump offset).Sound :=
  ⟨⟨h.stacked.jump offset, h.floor_le, h.depth_le⟩, h.noWrap.jump offset⟩

theorem lowers (h : m.Sound) (hlowers : m.Lowers m') : m'.Sound := by
  obtain ⟨n, hn, rfl⟩ := hlowers
  have hfloor := h.floor_le
  refine ⟨⟨h.stacked.congr_take h.noWrap.callers ?_, ?_, h.depth_le⟩, h.noWrap⟩
  · have hbase := h.base_le_floor
    change (m.stack.drop n).toList.take m.calls.top.base = _
    rw [Stack.toList_drop, List.take_take, Nat.min_eq_left (by omega)]
  · change m.floor ≤ (m.stack.drop n).size
    rw [Stack.size_drop]
    omega

theorem frameEffect (h : m.Sound) (effect : m.FrameEffect m')
    (henvironment : m'.environment = m.environment) (noWrap : m'.NoWrap) : m'.Sound := by
  refine ⟨?_, noWrap⟩
  have hfloor := h.floor_le
  have hdepth := h.depth_le
  have hbase := h.base_le_floor
  cases effect with
  | stay calls live below =>
    refine ⟨?_, ?_, ?_⟩
    · rw [calls]
      exact (h.stacked.jump _).congr_take h.noWrap.callers below
    · rw [floor, calls]
      exact live
    · rw [calls, henvironment]
      exact hdepth
  | @enter offset below args c n split above room calls live size =>
    refine ⟨?_, Nat.le_of_eq size, ?_⟩
    · rw [calls]
      refine .call ((h.stacked.jump offset).congr_take h.noWrap.callers ?_)
        (Nat.lt_succ_of_le above) ?_
      · have hlength : m.calls.top.base ≤ m.stack.toList.length := by
          rw [Stack.length_toList]
          exact Nat.le_trans hbase hfloor
        rw [live, List.take_append_of_le_length hlength]
      · rw [live, split]
        simp [CallStack.push, Frame.enter]
    · rw [calls, henvironment, CallStack.depth_push]
      exact Nat.le_trans room (Nat.le_max_right _ _)
  | @leave callers caller v resumed calls live =>
    have hstacked := h.stacked
    have hcallers := h.noWrap.callers
    rw [resumed] at hstacked hcallers
    obtain ⟨hcaller, habove, -⟩ := hstacked.caller
    have hlen : (m.stack.toList.take (m.calls.top.base - 1)).length = m.calls.top.base - 1 := by
      rw [List.length_take, Stack.length_toList]
      omega
    have hcallerBase : caller.base ≤ caller.floor :=
      (hcallers caller Array.mem_push_self).base_le_floor
    refine ⟨?_, ?_, ?_⟩
    · rw [calls]
      apply hcaller.congr_take fun f hf => hcallers f (Array.mem_push_of_mem _ hf)
      rw [live, List.take_append_of_le_length (by omega), List.take_take,
        Nat.min_eq_left (by omega)]
    · rw [floor, calls, ← Stack.length_toList, live, List.length_append, hlen]
      simp only [List.length_singleton]
      omega
    · rw [calls, henvironment]
      simp only [CallStack.depth, resumed, Array.size_push] at hdepth ⊢
      omega

theorem continues {events : List Event} (h : m.Sound) (next : m.Continues events m')
    (noWrap : m'.NoWrap) : m'.Sound :=
  h.frameEffect (next.frameEffect h.noWrap.top noWrap.top h.floor_le) next.environment_eq noWrap

end Sound

theorem WellStacked.sound_of_run {start : Machine} {past : List Machine} (h : start.WellStacked)
    (run : Run start past m) (noWrap : ∀ s ∈ m :: past, s.NoWrap) : m.Sound := by
  induction run with
  | refl => exact ⟨h, noWrap _ (.head _)⟩
  | step run next ih =>
    exact (ih fun s hs => noWrap s (.tail _ hs)).continues (continues_of_step next)
      (noWrap _ (.head _))

/-- The sizes of the parts whose sizes never change, and the frames in their places. -/
structure Layout (limits : Limits) (m : Machine) : Prop where
  frames_ne_nil : m.calls.frames ≠ []
  numFrames_le : m.calls.frames.length ≤ max 1 limits.maxFrames
  outermost : ∃ f, m.calls.frames.head? = some f ∧ f.base = 0 ∧ f.floor = 0
  adjacent : m.calls.frames.IsChain fun lower upper =>
    1 ≤ upper.base ∧ lower.floor ≤ upper.base - 1 ∧
      m.stack.toList[upper.base - 1]? = some (.closure upper.closure)
  floor_le : m.floor ≤ m.stack.size
  size_le : m.stack.size ≤ m.stack.capacity
  capacity_eq : m.stack.capacity = limits.stackSize
  numGlobals_eq : m.globals.size = limits.globalsSize

variable {p : Program} {setup : Setup}

theorem WellStacked.layout (h : m.WellStacked) (fits : Fits p setup m) :
    m.Layout setup.limits where
  frames_ne_nil := List.append_ne_nil_of_right_ne_nil _ (List.cons_ne_nil _ _)
  numFrames_le := by
    have hdepth := h.depth_le
    rw [fits.environment_eq] at hdepth
    rwa [CallStack.length_frames]
  outermost := fits.framesRooted.rooted.head?
  adjacent := h.stacked.isChain
  floor_le := h.floor_le
  size_le := m.stack.size_le
  capacity_eq := fits.capacity_eq
  numGlobals_eq := fits.numGlobals_eq

theorem wellStacked_load (p : Program) (setup : Setup) : (load p setup).WellStacked :=
  ⟨.main rfl rfl, Nat.zero_le _, Nat.le_max_left _ _⟩

theorem wellStacked_initial (p : Program) (setup : Setup) : (initial p setup).WellStacked :=
  ⟨.main rfl rfl, Nat.zero_le _, Nat.le_max_left _ _⟩

/-- Until a frame wraps, frames and stack fit together, behind a step that fails as well. -/
theorem Reached.sound {past : List Machine} (h : Reached p setup past m)
    (noWrap : ∀ s ∈ m :: past, s.NoWrap) : m.Sound := by
  induction h with
  | loaded => exact ⟨wellStacked_load p setup, noWrap _ (.head _)⟩
  | started => exact ⟨wellStacked_initial p setup, noWrap _ (.head _)⟩
  | stepped h ih =>
    have before := ih fun s hs => noWrap s (.tail _ hs)
    have last := noWrap _ (.head _)
    rcases effect_or_lowers h.reachable.fits.framesRooted.returns with
      ⟨offset, i, event, effect⟩ | ⟨offset, hlowers⟩
    · have hjump := before.jump offset
      exact hjump.frameEffect (effect.frameEffect hjump.noWrap.top last.top hjump.floor_le)
        effect.environment_eq last
    · exact (before.jump offset).lowers hlowers

theorem Reachable.sound (h : Reachable p setup m) (neverWraps : NeverWraps p setup) :
    m.Sound := by
  obtain ⟨past, reached⟩ := h.exists_reached
  exact reached.sound (neverWraps.reached reached)

theorem layout_of_reached (p : Program) (setup : Setup) (past : List Machine) (m : Machine)
    (h : Reached p setup past m) (noWrap : ∀ s ∈ m :: past, s.NoWrap) : m.Layout setup.limits :=
  (h.sound noWrap).layout h.reachable.fits

/-- A program that assigns a global, captures a value and calls the closure with an argument. The
function reads all three and has one more local slot, which it assigns. -/
def callOnce : Program where
  code := #[6, 17, 0, 0, 15, 27, 0, 0, 1, 6, 21, 1, 2]
  constants := Pool.empty.push
    (.function ⟨.given 0, #[16, 0, 0, 25, 1, 28, 0, 24, 0, 22], 2, 1⟩)
    (Value.given_function (Identity.isGiven_given 0))

/-- The machine after some steps of `callOnce`, with room for eight values and two frames. -/
def callOnceAfter (steps : Nat) : Machine := after callOnce { limits := ⟨8, 1, 2⟩ } steps

theorem reachable_callOnceAfter (steps : Nat) :
    Reachable callOnce { limits := ⟨8, 1, 2⟩ } (callOnceAfter steps) := reachable_after _ _ steps

theorem sized_callOnce : callOnce.Sized := by
  refine ⟨by decide, fun v hv f inside => ?_⟩
  obtain rfl : v = .function _ := List.mem_singleton.mp hv.val
  cases inside
  exact ⟨by decide, by decide, by decide⟩

theorem neverWraps_callOnce : NeverWraps callOnce { limits := ⟨8, 1, 2⟩ } :=
  neverWraps_of_sized sized_callOnce Host.standard_conserves (by decide)

theorem layout_of_callOnce :
    ∃ past, Reached callOnce { limits := ⟨8, 1, 2⟩ } past (callOnceAfter 6) ∧
      (∀ s ∈ callOnceAfter 6 :: past, s.NoWrap) ∧
      (callOnceAfter 6).calls.depth = 2 ∧ (callOnceAfter 6).Layout ⟨8, 1, 2⟩ := by
  obtain ⟨past, reached⟩ := (reachable_callOnceAfter 6).exists_reached
  have noWrap := neverWraps_callOnce.reached reached
  exact ⟨past, reached, noWrap, by rfl,
    layout_of_reached callOnce { limits := ⟨8, 1, 2⟩ } past _ reached noWrap⟩

/-- A program that calls a function whose slots end beyond the largest word, so that its first
operation pops its own closure. -/
def popClosure : Program where
  code := #[27, 0, 0, 0, 21, 0]
  constants := Pool.empty.push (.function ⟨.given 0, #[2, 6], 2 ^ 64 - 1, 0⟩)
    (Value.given_function (Identity.isGiven_given 0))

/-- Without its closure below it, the frame is out of its place. -/
theorem not_layout_of_popClosure :
    ∃ m, Reachable popClosure { limits := ⟨2, 1, 2⟩ } m ∧ ¬m.Layout ⟨2, 1, 2⟩ := by
  have start : Reachable popClosure { limits := ⟨2, 1, 2⟩ } _ := .started
  refine ⟨_, start.stepped.stepped.stepped, fun layout => ?_⟩
  obtain ⟨-, -, closure⟩ := (List.isChain_cons_cons.mp layout.adjacent).1
  cases closure

end Machine
end BytecodeMachine

import BytecodeMachine.Proofs.Execution.Inversion

/-!
# What holds of frames of any size

In every reachable state the main frame has no local slots, and each frame above it begins above a
slot of the stack, where the value that it returns finds its place. This does not depend on where
the local slots of the frames end, so it holds even if that position has wrapped.
-/

namespace BytecodeMachine

/-- The main frame has no local slots, and each frame above it begins above a slot of a stack. -/
inductive Rooted (capacity : Nat) : Array Frame → Frame → Prop where
  | main {f : Frame} (base : f.base = 0) (floor : f.floor = 0) : Rooted capacity #[] f
  | call {callers : Array Frame} {lower upper : Frame} (h : Rooted capacity callers lower)
      (pos : 0 < upper.base) (le : upper.base ≤ capacity) :
      Rooted capacity (callers.push lower) upper

namespace Rooted

variable {capacity : Nat} {callers : Array Frame} {top lower upper : Frame}

theorem jump (h : Rooted capacity callers top) (offset : Nat) :
    Rooted capacity callers { top with ip := offset } := by
  cases h with
  | main base floor => exact .main base floor
  | call h pos le => exact .call h pos le

theorem caller (h : Rooted capacity (callers.push lower) upper) :
    Rooted capacity callers lower ∧ 0 < upper.base ∧ upper.base ≤ capacity := by
  generalize hcallers : callers.push lower = all at h
  cases h with
  | main => simp at hcallers
  | call h pos le =>
    obtain ⟨rfl, rfl⟩ := Array.push_eq_push.mp hcallers
    exact ⟨h, pos, le⟩

theorem base_of_callers_ne (h : Rooted capacity callers top) (hne : callers ≠ #[]) :
    0 < top.base ∧ top.base ≤ capacity := by
  cases h with
  | main => exact absurd rfl hne
  | call h pos le => exact ⟨pos, le⟩

theorem base_and_floor_of_callers_eq (h : Rooted capacity callers top) (heq : callers = #[]) :
    top.base = 0 ∧ top.floor = 0 := by
  cases h with
  | main base floor => exact ⟨base, floor⟩
  | call => simp at heq

theorem base_le (h : Rooted capacity callers top) : top.base ≤ capacity := by
  cases h with
  | main base => exact Nat.le_trans (Nat.le_of_eq base) (Nat.zero_le _)
  | call h pos le => exact le

/-- The outermost frame is the main one. -/
theorem head? (h : Rooted capacity callers top) :
    ∃ f, (callers.toList ++ [top]).head? = some f ∧ f.base = 0 ∧ f.floor = 0 := by
  induction h with
  | @main f base floor => exact ⟨f, rfl, base, floor⟩
  | @call callers lower upper h pos le ih =>
    obtain ⟨f, hhead, hbase⟩ := ih
    exact ⟨f, by rw [Array.toList_push, List.head?_append, hhead, Option.some_or], hbase⟩

end Rooted

namespace Machine

variable {m m' : Machine}

/-- The invariant of the frames of any run. -/
structure FramesRooted (m : Machine) : Prop where
  rooted : Rooted m.stack.capacity m.calls.callers m.calls.top
  depth_le : m.calls.depth ≤ max 1 m.environment.maxFrames

namespace FramesRooted

theorem returns (h : m.FramesRooted) : m.Returns := h.rooted.base_of_callers_ne

theorem jump (h : m.FramesRooted) (offset : Nat) : (m.jump offset).FramesRooted :=
  ⟨h.rooted.jump offset, h.depth_le⟩

theorem lowers (h : m.FramesRooted) (hlowers : m.Lowers m') : m'.FramesRooted := by
  obtain ⟨n, -, rfl⟩ := hlowers
  exact ⟨h.rooted, h.depth_le⟩

theorem effect {i : Instruction} {event : Option Event} (h : m.FramesRooted)
    (effect : Effect m i event m') : m'.FramesRooted := by
  have hrooted := h.rooted
  have hdepth := h.depth_le
  rw [← effect.capacity_eq] at hrooted
  rw [← effect.environment_eq] at hdepth
  cases effect with
  | compute | discard | pass | assignGlobal | assignLocal | create | native =>
    exact ⟨hrooted, hdepth⟩
  | jump | branch => exact ⟨hrooted.jump _, hdepth⟩
  | @enter below args c op supplies count arity depth room =>
    refine ⟨.call hrooted (Nat.succ_pos _) ?_, ?_⟩
    · -- The closure lies on the slot below the base.
      have hbase : below.length + 1 ≤ m.stack.size := by
        rw [← supplies.base_eq]
        exact Nat.sub_le _ _
      refine Nat.le_trans (Nat.le_trans hbase m.stack.size_le) (Nat.le_of_eq ?_)
      exact (Stack.capacity_growTo _ _ room).symm
    · rw [CallStack.depth_push]
      exact Nat.le_trans depth (Nat.le_max_right _ _)
  | leave op supplies resumed room =>
    rw [resumed] at hrooted
    refine ⟨hrooted.caller.1, ?_⟩
    simp only [CallStack.depth, resumed, Array.size_push] at hdepth ⊢
    omega

theorem continues {events : List Event} (h : m.FramesRooted) (next : m.Continues events m') :
    m'.FramesRooted := by
  cases next with
  | dispatch found effect => exact (h.jump _).effect effect
  | finish beyond inner effect => exact h.effect effect

theorem load (p : Program) (setup : Setup) : (load p setup).FramesRooted where
  rooted := .main rfl rfl
  depth_le := Nat.le_max_left _ _

end FramesRooted

/-- The invariant of all states: frames of any size are in their places, in a machine whose parts
keep their sizes. -/
structure Fits (p : Program) (setup : Setup) (m : Machine) : Prop where
  framesRooted : m.FramesRooted
  environment_eq : m.environment = (Machine.load p setup).environment
  capacity_eq : m.stack.capacity = setup.limits.stackSize
  numGlobals_eq : m.globals.size = setup.limits.globalsSize

namespace Fits

variable {p : Program} {setup : Setup}

theorem load (p : Program) (setup : Setup) : Fits p setup (Machine.load p setup) where
  framesRooted := .load p setup
  environment_eq := rfl
  capacity_eq := Array.size_replicate
  numGlobals_eq := Array.size_replicate

theorem step (h : Fits p setup m) : Fits p setup m.step.machine := by
  rcases effect_or_lowers h.framesRooted.returns with
    ⟨offset, i, event, effect⟩ | ⟨offset, hlowers⟩
  · exact ⟨(h.framesRooted.jump offset).effect effect,
      effect.environment_eq.trans h.environment_eq, effect.capacity_eq.trans h.capacity_eq,
      effect.numGlobals_eq.trans h.numGlobals_eq⟩
  · have hjump := (h.framesRooted.jump offset).lowers hlowers
    obtain ⟨n, -, heq⟩ := hlowers
    rw [heq] at hjump ⊢
    exact ⟨hjump, h.environment_eq, h.capacity_eq, h.numGlobals_eq⟩

end Fits

theorem Reachable.fits {p : Program} {setup : Setup} (h : Reachable p setup m) :
    Fits p setup m := by
  induction h with
  | loaded => exact .load p setup
  | started =>
    obtain ⟨framesRooted, environment, capacity, globals⟩ := Fits.load p setup
    exact ⟨⟨framesRooted.rooted, framesRooted.depth_le⟩, environment, capacity, globals⟩
  | stepped h ih => exact ih.step

end Machine
end BytecodeMachine

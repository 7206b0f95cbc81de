import BytecodeMachine.Proofs.Objects.Origin
import Mathlib.Algebra.Group.Nat.Defs

/-!
# Ends of frames that wrap

The local slots of a frame may end beyond the largest word, and then the position above them wraps.
No frame wraps if all functions have numbers of 32 bits, as those read from an image have, and the
stack fits into memory. Where sums are checked, a run is given up just before a frame wraps.
-/

namespace BytecodeMachine

/-- The numbers of a function have 32 bits, and its code fits into a memory with addresses of 64. -/
structure Function.Sized (f : Function) : Prop where
  numLocals_lt : f.numLocals < 2 ^ 32
  numParameters_lt : f.numParameters < 2 ^ 32
  size_lt : f.code.size < 2 ^ 64

/-- All functions of a program, those inside its constants included, have sizes in range. -/
structure Program.Sized (p : Program) : Prop where
  size_lt : p.code.size < 2 ^ 64
  functions : ∀ v ∈ p.constants.values, ∀ f, (Value.function f).Occurs v → f.Sized

/-- The stack fits into memory, where an allocation has less than `2 ^ 63` bytes and each slot takes
more than one of them. -/
def Limits.Allocatable (limits : Limits) : Prop := limits.stackSize < 2 ^ 63

instance (limits : Limits) : Decidable limits.Allocatable := inferInstanceAs (Decidable (_ < _))

theorem Function.Sized.numSlots_lt {f : Function} (h : f.Sized) : f.numSlots < 2 ^ 32 :=
  Nat.max_lt.mpr ⟨h.numLocals_lt, h.numParameters_lt⟩

theorem Rooted.base_le_of_mem {capacity : Nat} {callers : Array Frame} {top f : Frame}
    (h : Rooted capacity callers top) (hf : f ∈ callers.toList ++ [top]) : f.base ≤ capacity := by
  induction h with
  | @main top base =>
    rw [List.mem_singleton.mp hf, base]
    exact Nat.zero_le _
  | @call callers lower upper h pos le ih =>
    rcases List.mem_append.mp hf with hf | hf
    · exact ih (Array.toList_push ▸ hf)
    · rw [List.mem_singleton.mp hf]
      exact le

namespace Machine

variable {p : Program} {setup : Setup} {m : Machine}

/-- The local slots of every frame end at a word. -/
def NoWrap (m : Machine) : Prop := ∀ f ∈ m.calls.frames, f.NoWrap

theorem NoWrap.top (h : m.NoWrap) : m.calls.top.NoWrap := h _ m.calls.top_mem_frames

theorem NoWrap.jump (h : m.NoWrap) (offset : Nat) : (m.jump offset).NoWrap := by
  intro f hf
  rcases List.mem_append.mp hf with hf | hf
  · exact h f (List.mem_append_left _ hf)
  · rw [List.mem_singleton.mp hf]
    exact h.top

/-- A step makes no frame but the running one. -/
theorem NoWrap.effect {m' : Machine} {i : Instruction} {event : Option Event} (h : m.NoWrap)
    (effect : Effect m i event m') (top : m'.calls.top.NoWrap) : m'.NoWrap := by
  intro f hf
  rcases List.mem_append.mp hf with hf | hf
  · cases effect with
    | enter =>
      rw [CallStack.push, Array.toList_push] at hf
      exact h f hf
    | leave op supplies resumed =>
      refine h f (List.mem_append_left _ ?_)
      rw [resumed, Array.toList_push]
      exact List.mem_append_left _ hf
    | _ => exact h f (List.mem_append_left _ hf)
  · rw [List.mem_singleton.mp hf]
    exact top

theorem NoWrap.continues {m' : Machine} {events : List Event} (h : m.NoWrap)
    (next : m.Continues events m') (top : m'.calls.top.NoWrap) : m'.NoWrap := by
  cases next with
  | dispatch found effect => exact (h.jump _).effect effect top
  | finish beyond inner effect => exact h.effect effect top

theorem isNone_floor? {f : Frame} : f.floor?.isNone = false ↔ f.NoWrap := by
  by_cases h : f.NoWrap
  · exact iff_of_true (congrArg Option.isNone (if_pos h)) h
  · exact iff_of_false (ne_false_of_eq_true (congrArg Option.isNone (if_neg h))) h

variable {start : Machine} {past : List Machine} {fuel : Nat}

theorem givesUp_succ {m' : Machine} {events : List Event} (next : m.step = .continued m' events)
    (fuel : Nat) : m.givesUp (fuel + 1) = (m'.calls.top.floor?.isNone || m'.givesUp fuel) := by
  rw [givesUp, next]

theorem Run.givesUp_add (run : Run start past m) (fuel : Nat) :
    start.givesUp (past.length + fuel) = (start.givesUp past.length || m.givesUp fuel) := by
  induction run generalizing fuel with
  | refl => rw [List.length_nil, Nat.zero_add, givesUp, Bool.false_or]
  | @step past m m' events run next ih =>
    have first : m.givesUp 1 = m'.calls.top.floor?.isNone := by
      rw [givesUp_succ next, givesUp, Bool.or_false]
    rw [List.length_cons, Nat.add_assoc, Nat.add_comm 1, ih, ih 1, givesUp_succ next, first,
      Bool.or_assoc]

/-- With checked sums a run comes to a state exactly if no frame wraps on the way. -/
theorem Run.givesUp_eq_false_iff (run : Run start past m) (noWrap : start.NoWrap) :
    start.givesUp past.length = false ↔ ∀ s ∈ m :: past, s.NoWrap := by
  induction run with
  | refl => exact iff_of_true rfl (List.forall_mem_singleton.mpr noWrap)
  | @step past m m' events run next ih =>
    rw [List.length_cons, run.givesUp_add, givesUp_succ next, givesUp, Bool.or_false,
      Bool.or_eq_false_iff, ih, isNone_floor?]
    constructor
    · rintro ⟨earlier, top⟩
      have noWrap := (earlier m (.head _)).continues (continues_of_step next) top
      exact List.forall_mem_cons.mpr ⟨noWrap, earlier⟩
    · intro always
      exact ⟨fun s hs => always s (.tail _ hs), (always m' (.head _)).top⟩

theorem Run.noWrap_of_givesUp (run : Run start past m) (noWrap : start.NoWrap)
    (enough : past.length ≤ fuel) (never : start.givesUp fuel = false) :
    ∀ s ∈ m :: past, s.NoWrap := by
  obtain ⟨rest, rfl⟩ := Nat.exists_eq_add_of_le enough
  rw [run.givesUp_add, Bool.or_eq_false_iff] at never
  exact (run.givesUp_eq_false_iff noWrap).mp never.1

theorem givesUp_eq_false (always : ∀ past m, Run start past m → m.NoWrap) (fuel : Nat) :
    start.givesUp fuel = false := by
  induction fuel generalizing start with
  | zero => rfl
  | succ fuel ih =>
    rw [givesUp]
    cases next : start.step with
    | ended | failed => rfl
    | continued m events =>
      have run : Run start [start] m := .step .refl next
      refine Bool.or_eq_false_iff.mpr ⟨isNone_floor?.mpr (always _ m run).top, ?_⟩
      exact ih fun past s rest => always _ s (run.trans rest)

/-- In no state of the program does the end of a frame wrap. -/
def NeverWraps (p : Program) (setup : Setup) : Prop := ∀ m, Reachable p setup m → m.NoWrap

theorem NeverWraps.reached (h : NeverWraps p setup) (reached : Reached p setup past m) :
    ∀ s ∈ m :: past, s.NoWrap :=
  fun s hs => h s (reached.reachable_of_mem hs)

theorem NeverWraps.givesUp_eq_false (h : NeverWraps p setup) (fuel : Nat) :
    (initial p setup).givesUp fuel = false :=
  Machine.givesUp_eq_false (fun _ m run => h m (.of_run run)) fuel

/-- The main frame does not wrap. -/
theorem noWrap_initial (p : Program) (setup : Setup) : (initial p setup).NoWrap :=
  List.forall_mem_singleton.mpr (show 0 + 0 < UInt64.size by decide)

/-- Every function that a state of the program holds has numbers of 32 bits. -/
def HoldsSized (p : Program) (setup : Setup) : Prop :=
  ∀ m, Reachable p setup m → ∀ f, m.Holds (.function f) → f.numSlots < 2 ^ 32

theorem Reachable.sized (h : Reachable p setup m) (conserves : setup.host.Conserves)
    (sized : p.Sized) {f : Function} (holds : m.Holds (.function f)) : f.Sized := by
  have hword : 0 < 2 ^ 32 := by decide
  rcases h.function_origin conserves holds with rfl | ⟨v, member, inside⟩
  · exact ⟨hword, hword, sized.size_lt⟩
  · exact sized.functions v member f inside

/-- If native functions make no functions, it is enough to look at the program. -/
theorem holdsSized_of_sized (sized : p.Sized) (conserves : setup.host.Conserves) :
    HoldsSized p setup :=
  fun _ h _ holds => (h.sized conserves sized holds).numSlots_lt

theorem noWrap_enter {c : Closure Value} {base : Nat} (small : base < 2 ^ 63)
    (sized : c.function.numSlots < 2 ^ 32) : (Frame.enter c base).NoWrap :=
  show base + c.function.numSlots < 2 ^ 64 by omega

/-- The frames that may be entered next do not wrap either. -/
theorem Reachable.noWrap_enter (h : Reachable p setup m) (sized : HoldsSized p setup)
    (allocatable : setup.limits.Allocatable) {c : Closure Value} {base : Nat}
    (hc : .closure c ∈ m.stack.toList) (hbase : base ≤ m.stack.size) :
    (Frame.enter c base).NoWrap := by
  have holds : m.Holds (.function c.function) := .slot (mem_slots_of_mem_toList hc) (.code .here)
  refine Machine.noWrap_enter ?_ (sized m h _ holds)
  rw [Limits.Allocatable, ← h.fits.capacity_eq] at allocatable
  exact Nat.lt_of_le_of_lt (Nat.le_trans hbase m.stack.size_le) allocatable

theorem neverWraps_of_holdsSized (sized : HoldsSized p setup)
    (allocatable : setup.limits.Allocatable) : NeverWraps p setup := by
  intro m reachable f hf
  have hbase : f.base ≤ m.stack.capacity := reachable.fits.framesRooted.rooted.base_le_of_mem hf
  rw [reachable.fits.capacity_eq] at hbase
  exact noWrap_enter (c := f.closure) (Nat.lt_of_le_of_lt hbase allocatable)
    (sized m reachable _ (.frame hf (.code .here)))

/-- Functions read from an image are sized, so a program from an image never wraps. -/
theorem neverWraps_of_sized (sized : p.Sized) (conserves : setup.host.Conserves)
    (allocatable : setup.limits.Allocatable) : NeverWraps p setup :=
  neverWraps_of_holdsSized (holdsSized_of_sized sized conserves) allocatable

end Machine
end BytecodeMachine

import BytecodeMachine.Proofs.Objects.Sources
import BytecodeMachine.Proofs.Values.Equality

/-!
# Freshness of closures

A closure instruction that succeeds pushes a closure unlike all that the machine held before. From
then on the closure stands for that one step of the run: two closures that the run meets, wherever
they were copied to, are equal exactly if one and the same step created them, or if they are one
object of the pool.
-/

namespace BytecodeMachine

theorem Value.closure_beq_iff {c d : Closure Value} :
    (Value.closure c == .closure d) = true ↔ c.identity = d.identity := by
  rw [beq_eq_same, same, beq_iff_eq]

/-- Only closures equal a closure. -/
theorem Value.exists_closure_of_beq {c : Closure Value} {u : Value}
    (h : (Value.closure c == u) = true) : ∃ d, u = .closure d ∧ c.identity = d.identity := by
  cases u with
  | closure d => exact ⟨d, rfl, closure_beq_iff.mp h⟩
  | _ =>
    rw [beq_eq_same] at h
    cases h

/-- A closure instruction counts one more closure, and the others count none. -/
theorem Effect.numCreated_eq {m m' : Machine} {i : Instruction} {event : Option Event}
    (h : Effect m i event m') :
    m'.numCreated = m.numCreated + if i.opcode = .closure then 1 else 0 := by
  cases h with
  | create op => rw [if_pos op]
  | compute supplies value room =>
    rw [if_neg]
    · rfl
    · intro op
      have hyields := value.yields
      rw [op] at hyields
      cases hyields
  | leave op => rcases op with ⟨op, -⟩ | ⟨op, -⟩ <;> rw [if_neg (by rw [op]; decide)] <;> rfl
  | discard op | jump op | pass op | branch op | assignGlobal op | assignLocal op | native op
  | enter op =>
    rw [if_neg (by rw [op]; decide)]
    rfl

namespace Machine

/-- The next step is a closure instruction that succeeds and pushes the closure. -/
structure Pushes (s : Machine) (c : Closure Value) : Prop where
  instruction_eq : ∃ k n, s.instruction? = some ⟨.closure, [k, n]⟩
  next : ∃ m' events, s.step = .continued m' events ∧ m'.stack.top? = some (.closure c)

/-- The closure was created by a step of the past, of which `n` is the number. -/
def CreatedAt (past : List Machine) (n : Nat) (c : Closure Value) : Prop :=
  ∃ s, past.reverse[n]? = some s ∧ s.Pushes c

/-- A run meets the closures of its pool and those that one of its states keeps. -/
def Meets (p : Program) (past : List Machine) (m : Machine) (c : Closure Value) : Prop :=
  p.constants.Contains (.closure c) ∨ ∃ s ∈ m :: past, s.Keeps (.closure c)

/-- One step created both closures, or they are one object of the pool. -/
inductive SameOrigin (p : Program) (past : List Machine) (c d : Closure Value) : Prop where
  | step {n : Nat} (left : CreatedAt past n c) (right : CreatedAt past n d) : SameOrigin p past c d
  | object (left : p.constants.Contains (.closure c)) (right : p.constants.Contains (.closure d))
    (same : c.identity = d.identity) : SameOrigin p past c d

/-- Closures are told apart by the steps that created them. -/
structure TellsClosuresApart (p : Program) (past : List Machine) (m : Machine) : Prop where
  /-- What a closure instruction pushes equals itself and nothing that the machine holds. -/
  fresh : ∀ k n m' events, m.instruction? = some ⟨.closure, [k, n]⟩ →
    m.step = .continued m' events → ∃ c, m.Pushes c ∧
      (Value.closure c == .closure c) = true ∧
      ∀ u, m.Holds u → (Value.closure c == u) = false ∧ (u == Value.closure c) = false
  equal : ∀ c d, Meets p past m c → Meets p past m d →
    ((Value.closure c == .closure d) = true ↔ SameOrigin p past c d)
  /-- An equality instruction on two closures tells whether they have the same origin. -/
  compare : ∀ below c d, m.instruction? = some ⟨.equal, []⟩ →
    m.Supplies below [.closure c, .closure d] → ∃ m' events answer,
      m.step = .continued m' events ∧ m'.stack.toList = below ++ [.boolean answer] ∧
      (answer = true ↔ SameOrigin p past c d)

variable {p : Program} {setup : Setup} {builtins : Array Builtin} {limits : Limits}
  {past : List Machine} {m s t : Machine} {c d : Closure Value} {k n : Nat}

/-- The closure of a closure instruction is named by how many were created before. -/
theorem exists_pushes {m' : Machine} {events : List Event}
    (found : m.instruction? = some ⟨.closure, [k, n]⟩) (next : m.step = .continued m' events) :
    ∃ c, m.Pushes c ∧ c.identity = .created m.numCreated ∧
      m'.stack.top? = some (.closure c) ∧ m'.numCreated = m.numCreated + 1 := by
  cases continues_of_step next with
  | @dispatch i event m' decoded effect =>
    obtain rfl := Option.some.inj (found.symm.trans decoded)
    obtain ⟨below, operands, f, -, -, -, live⟩ := effect.of_closure rfl
    have htop : m'.stack.top? =
        some (.closure ⟨.created m.numCreated, f, operands.toArray⟩) := by
      rw [Stack.top?_eq_getLast?, live, List.getLast?_concat]
      rfl
    exact ⟨_, ⟨⟨k, n, found⟩, m', _, next, htop⟩, rfl, htop, effect.numCreated_eq⟩
  | finish beyond =>
    rw [instruction?_eq_none beyond] at found
    cases found

theorem Pushes.identity_eq (h : s.Pushes c) :
    c.identity = .created s.numCreated ∧ s.step.machine.numCreated = s.numCreated + 1 := by
  obtain ⟨⟨k, n, found⟩, m', events, next, htop⟩ := h
  obtain ⟨d, -, identity, htop', count⟩ := exists_pushes found next
  obtain rfl : c = d := by
    have heq := htop.symm.trans htop'
    cases heq
    rfl
  rw [next]
  exact ⟨identity, count⟩

theorem Pushes.unique (h : s.Pushes c) (h' : s.Pushes d) : c = d := by
  obtain ⟨-, m', events, next, htop⟩ := h
  obtain ⟨-, m'', events', next', htop'⟩ := h'
  cases next.symm.trans next'
  have heq := htop.symm.trans htop'
  cases heq
  rfl

theorem CreatesNext.pushes (h : m.CreatesNext c) : m.Pushes c := by
  obtain ⟨found, effect, next, creates⟩ := h
  obtain ⟨⟨k, n, instruction_eq, -⟩, pushed⟩ := Makes.of_creates found effect next creates
  rw [next] at pushed
  exact ⟨⟨k, n, instruction_eq⟩, _, _, next, pushed⟩

theorem Reachable.numCreated_le_step (h : Reachable p setup m) :
    m.numCreated ≤ m.step.machine.numCreated := by
  rcases effect_or_lowers h.fits.framesRooted.returns with
    ⟨offset, i, event, effect⟩ | ⟨offset, n, -, heq⟩
  · rw [effect.numCreated_eq]
    exact Nat.le_add_right _ _
  · rw [heq]
    exact Nat.le_refl _

/-- No state counts fewer closures than a step before it left behind. -/
theorem Reached.pairwise_numCreated (h : Reached p setup past m) :
    (m :: past).Pairwise fun later s => s.step.machine.numCreated ≤ later.numCreated := by
  induction h with
  | loaded | started => exact List.pairwise_singleton _ _
  | @stepped past m h ih =>
    refine List.pairwise_cons.mpr ⟨fun s hs => ?_, ih⟩
    rcases List.mem_cons.mp hs with rfl | hs
    · exact Nat.le_refl _
    · exact Nat.le_trans ((List.pairwise_cons.mp ih).1 s hs) h.reachable.numCreated_le_step

theorem CreatedAt.later (h : CreatedAt past n c) (m : Machine) : CreatedAt (m :: past) n c := by
  obtain ⟨s, hs, pushes⟩ := h
  refine ⟨s, ?_, pushes⟩
  rw [List.reverse_cons, List.getElem?_append_left (List.getElem?_eq_some_iff.mp hs).1, hs]

theorem Pushes.createdAt (h : m.Pushes c) (past : List Machine) :
    CreatedAt (m :: past) past.length c := by
  refine ⟨m, ?_, h⟩
  rw [List.reverse_cons, ← List.length_reverse, List.getElem?_concat_length]

/-- A closure of the past bears a number below the count of closures. -/
theorem CreatedAt.identity_lt (h : CreatedAt past n c) (reached : Reached p setup past m) :
    ∃ k < m.numCreated, c.identity = .created k := by
  obtain ⟨s, hs, pushes⟩ := h
  obtain ⟨identity, count⟩ := pushes.identity_eq
  have member : s ∈ past := List.mem_reverse.mp (List.mem_of_getElem? hs)
  have hle := (List.pairwise_cons.mp reached.pairwise_numCreated).1 s member
  exact ⟨s.numCreated, by omega, identity⟩

/-- Different steps never create closures of one identity. -/
theorem CreatedAt.eq_of_identity_eq (left : CreatedAt past k c) (right : CreatedAt past n d)
    (reached : Reached p setup past m) (same : c.identity = d.identity) : k = n := by
  obtain ⟨s, hs, pushes⟩ := left
  obtain ⟨t, ht, pushes'⟩ := right
  obtain ⟨identity, count⟩ := pushes.identity_eq
  obtain ⟨identity', count'⟩ := pushes'.identity_eq
  have hnumber := Identity.created.inj (identity.symm.trans (same.trans identity'))
  have ordered := List.pairwise_iff_getElem.mp
    (List.pairwise_reverse.mpr (List.pairwise_cons.mp reached.pairwise_numCreated).2)
  obtain ⟨hk, hs⟩ := List.getElem?_eq_some_iff.mp hs
  obtain ⟨hn, ht⟩ := List.getElem?_eq_some_iff.mp ht
  -- Of two steps the later one starts with a count that the earlier one has raised already.
  rcases Nat.lt_trichotomy k n with hlt | heq | hlt
  · have hle := ordered k n hk hn hlt
    rw [hs, ht] at hle
    omega
  · exact heq
  · have hle := ordered n k hn hk hlt
    rw [hs, ht] at hle
    omega

/-- A closure that a run keeps lay in the pool or was created by a step of the run. -/
theorem Reached.closure_source (h : Reached p ⟨limits, builtins, Host.standard⟩ past m)
    (keeps : m.Keeps (.closure c)) :
    p.constants.Contains (.closure c) ∨ ∃ n, CreatedAt past n c := by
  induction h with
  | loaded => cases keeps.eq_null_of_load
  | started => cases Keeps.eq_null_of_load (keeps.mono rfl rfl rfl : (load p _).Keeps _)
  | @stepped past m h ih =>
    rcases keeps.step_cases h.reachable (Host.standard_answers trivial) trivial [] with
      (keeps | source) | ⟨d, hd, creates⟩
    · exact (ih keeps).imp_right fun ⟨n, created⟩ => ⟨n, created.later m⟩
    · cases source with
      | pool contains => exact .inl contains
      | created member => cases member
    · cases hd
      exact .inr ⟨_, creates.pushes.createdAt past⟩

theorem Reached.source_of_meets (h : Reached p ⟨limits, builtins, Host.standard⟩ past m)
    (meets : Meets p past m c) :
    p.constants.Contains (.closure c) ∨ ∃ n, CreatedAt past n c := by
  rcases meets with contains | ⟨s, member, keeps⟩
  · exact .inl contains
  · induction h with
    | loaded => exact Reached.loaded.closure_source (List.mem_singleton.mp member ▸ keeps)
    | started => exact Reached.started.closure_source (List.mem_singleton.mp member ▸ keeps)
    | @stepped past m h ih =>
      rcases List.mem_cons.mp member with rfl | member
      · exact h.stepped.closure_source keeps
      · exact (ih member).imp_right fun ⟨n, created⟩ => ⟨n, created.later m⟩

theorem isGiven_of_contains {pool : Pool} (h : pool.Contains (.closure c)) :
    c.identity.IsGiven := by
  obtain ⟨v, member, inside⟩ := h
  exact pool.given v member _ inside _ rfl

/-- A machine holds the main closure in its outermost frame, and it keeps the other closures unless
they are in the pool. -/
theorem Holds.closure_cases (h : m.Holds (.closure c)) (reachable : Reachable p setup m) :
    c = mainClosure p ∨ p.constants.Contains (.closure c) ∨ m.Keeps (.closure c) := by
  cases h with
  | constant member inside =>
    rw [reachable.fits.environment_eq] at member
    exact .inr (.inl ⟨_, member, inside⟩)
  | global member inside => exact .inr (.inr (.global member inside))
  | slot member inside => exact .inr (.inr (.slot member inside))
  | @frame f member inside =>
    have head := reachable.head?_closures
    rw [CallStack.closures] at head
    cases hframes : m.calls.frames with
    | nil =>
      rw [hframes] at member
      cases member
    | cons outermost inner =>
      rw [hframes] at head member
      rcases List.mem_cons.mp member with rfl | member
      · rw [Option.some.inj head] at inside
        cases inside with
        | here => exact .inl rfl
        | code inside => cases inside
        | captured member => exact absurd member (Array.not_mem_empty _)
      · refine .inr (.inr (.frame (f := f) ?_ inside))
        rw [CallStack.inner, hframes]
        exact member

/-- A machine holds no closure with the name that the next closure gets. -/
theorem Reached.identity_ne_of_holds (h : Reached p ⟨limits, builtins, Host.standard⟩ past m)
    (holds : m.Holds (.closure c)) : c.identity ≠ .created m.numCreated := by
  intro same
  rcases holds.closure_cases h.reachable with rfl | contains | keeps
  · cases same
  · exact Identity.not_isGiven_created _ (same ▸ isGiven_of_contains contains)
  · rcases h.closure_source keeps with contains | ⟨n, created⟩
    · exact Identity.not_isGiven_created _ (same ▸ isGiven_of_contains contains)
    · obtain ⟨k, hk, identity⟩ := created.identity_lt h
      cases same.symm.trans identity
      exact Nat.lt_irrefl _ hk

theorem Reached.beq_iff_sameOrigin (h : Reached p ⟨limits, builtins, Host.standard⟩ past m)
    (hc : Meets p past m c) (hd : Meets p past m d) :
    (Value.closure c == .closure d) = true ↔ SameOrigin p past c d := by
  rw [Value.closure_beq_iff]
  constructor
  · intro same
    rcases h.source_of_meets hc with left | ⟨k, left⟩
    · rcases h.source_of_meets hd with right | ⟨n, right⟩
      · exact .object left right same
      · obtain ⟨j, -, identity⟩ := right.identity_lt h
        exact absurd (same.trans identity ▸ isGiven_of_contains left)
          (Identity.not_isGiven_created _)
    · rcases h.source_of_meets hd with right | ⟨n, right⟩
      · obtain ⟨j, -, identity⟩ := left.identity_lt h
        exact absurd (same.symm.trans identity ▸ isGiven_of_contains right)
          (Identity.not_isGiven_created _)
      · obtain rfl := left.eq_of_identity_eq right h same
        exact .step left right
  · rintro (⟨⟨s, hs, pushes⟩, t, ht, pushes'⟩ | ⟨-, -, same⟩)
    · obtain rfl := Option.some.inj (hs.symm.trans ht)
      rw [pushes.unique pushes']
    · exact same

theorem tellsClosuresApart_of_reached
    (h : Reached p ⟨limits, builtins, Host.standard⟩ past m) : TellsClosuresApart p past m where
  fresh k n m' events found next := by
    obtain ⟨c, pushes, identity, -⟩ := exists_pushes found next
    refine ⟨c, pushes, by rw [Value.beq_eq_same, Value.same_refl], fun u holds => ?_⟩
    have unequal : (Value.closure c == u) = false := by
      refine Bool.eq_false_iff.mpr fun equal => ?_
      obtain ⟨d, rfl, same⟩ := Value.exists_closure_of_beq equal
      exact h.identity_ne_of_holds holds (same.symm.trans identity)
    exact ⟨unequal, by rwa [Value.beq_eq_same, Value.same_comm, ← Value.beq_eq_same]⟩
  equal c d hc hd := h.beq_iff_sameOrigin hc hd
  compare below c d found supplies := by
    have meets {v : Closure Value} (operand : .closure v ∈ [Value.closure c, .closure d]) :
        Meets p past m v := by
      refine .inr ⟨m, List.mem_cons_self, .slot (mem_slots_of_mem_toList ?_) .here⟩
      rw [supplies.split]
      exact List.mem_append_right _ operand
    obtain ⟨room, equal, -⟩ := Value.execute_equality
      (⟨supplies.split, supplies.enough⟩ : (m.pass ⟨.equal, []⟩).Supplies below _)
    have next := step_of_continues (.dispatch found (Exec.effect_of_execute equal))
    refine ⟨_, _, _, next, ?_, h.beq_iff_sameOrigin (meets (by simp)) (meets (by simp))⟩
    rw [Stack.toList_push]
    exact congrArg (· ++ _) supplies.toList_drop

/-- A program that makes two closures of one function and compares the second one with the first,
which it has read from a global. -/
def twins : Program where
  code := #[27, 0, 0, 0, 17, 0, 0, 27, 0, 0, 0, 16, 0, 0, 8, 2]
  constants := Pool.empty.push (.function ⟨.given 0, #[6, 22], 0, 0⟩)
    (Value.given_function (Identity.isGiven_given 0))

/-- The machine after some steps of `twins`, with room for two values. -/
def twinsAfter (steps : Nat) : Machine := after twins { limits := ⟨2, 1, 1⟩ } steps

theorem reached_twinsAfter (steps : Nat) :
    ∃ past, Reached twins { limits := ⟨2, 1, 1⟩ } past (twinsAfter steps) :=
  (reachable_after twins { limits := ⟨2, 1, 1⟩ } steps).exists_reached

theorem tellsClosuresApart_twins :
    (∃ past, Reached twins { limits := ⟨2, 1, 1⟩ } past (twinsAfter 2) ∧
      (twinsAfter 2).instruction? = some ⟨.closure, [0, 0]⟩ ∧
      TellsClosuresApart twins past (twinsAfter 2)) ∧
    ∃ past, Reached twins { limits := ⟨2, 1, 1⟩ } past (twinsAfter 4) ∧
      (twinsAfter 4).instruction? = some ⟨.equal, []⟩ ∧
      TellsClosuresApart twins past (twinsAfter 4) := by
  obtain ⟨past, create⟩ := reached_twinsAfter 2
  obtain ⟨past', compare⟩ := reached_twinsAfter 4
  exact ⟨⟨past, create, by rfl, tellsClosuresApart_of_reached create⟩,
    past', compare, by rfl, tellsClosuresApart_of_reached compare⟩

end Machine
end BytecodeMachine

import BytecodeMachine.Proofs.Frames.Rooted
import Mathlib.Data.DFinsupp.WellFounded

/-!
# Progress of runs

A step that does not jump back goes on behind the instruction that it carries out, or it leaves the
running frame. So it has less left to do, if frames are compared by the bytes that they have not
passed yet, the outermost frame first. There is room for a limited number of frames only, and hence
a run without jumps back ends, however deep its calls are nested.
-/

namespace BytecodeMachine

/-- How far the frame is from the end of its code. Even behind the end this is not zero. -/
def Frame.rank (f : Frame) : Nat := f.code.size - f.ip + 1

theorem Frame.rank_lt {f : Frame} {ip : Nat} (inside : f.ip < f.code.size) (later : f.ip < ip) :
    ({ f with ip } : Frame).rank < f.rank := by
  change f.code.size - ip + 1 < f.code.size - f.ip + 1
  omega

namespace CallStack

variable {calls calls' : CallStack} {bound : Nat}

/-- The callers stay, and what lies on them has less left than the running frame had. -/
def Advances (calls calls' : CallStack) : Prop :=
  ∃ rest, calls'.frames = calls.callers.toList ++ rest ∧
    ∀ f, rest.head? = some f → f.rank < calls.top.rank

/-- The rank of a frame, the outermost one first. Where there is no frame it is zero. -/
def rankAt (calls : CallStack) (k : Nat) : Nat := (calls.frames[k]?.map Frame.rank).getD 0

/-- Ranks are compared at the outermost frame at which they differ. -/
abbrev Below (bound : Nat) : (Fin bound → Nat) → (Fin bound → Nat) → Prop :=
  Pi.Lex (· < ·) (· < ·)

theorem wellFounded_below (bound : Nat) : WellFounded (Below bound) :=
  Pi.Lex.wellFounded (· < ·) fun _ => wellFounded_lt

/-- The ranks differ first at the frame that was running. -/
theorem Advances.rankAt (h : calls.Advances calls') :
    (∀ k < calls.callers.size, calls'.rankAt k = calls.rankAt k) ∧
      calls'.rankAt calls.callers.size < calls.rankAt calls.callers.size := by
  obtain ⟨rest, hframes, hrest⟩ := h
  constructor
  · intro k hk
    rw [← Array.length_toList] at hk
    rw [CallStack.rankAt, CallStack.rankAt, hframes, frames, List.getElem?_append_left hk,
      List.getElem?_append_left hk]
  · rw [CallStack.rankAt, CallStack.rankAt, hframes, frames, ← Array.length_toList,
      List.getElem?_concat_length, List.getElem?_append_right (Nat.le_refl _), Nat.sub_self,
      ← List.head?_eq_getElem?]
    cases hhead : rest.head? with
    | none => exact Nat.succ_pos _
    | some f => exact hrest f hhead

theorem Advances.below (h : calls.Advances calls') (depth_le : calls.depth ≤ bound) :
    Below bound (fun k => calls'.rankAt k) fun k => calls.rankAt k := by
  obtain ⟨same, lower⟩ := h.rankAt
  exact ⟨⟨calls.callers.size, depth_le⟩, fun k hk => same k hk, lower⟩

end CallStack

namespace Machine

variable {m m' : Machine} {i : Instruction} {events : List Event} {bound : Nat}

/-- The next step jumps to an offset of the running code. A conditional jump is taken if its operand
is falsy. -/
inductive JumpsTo (m : Machine) (target : Nat) : Prop where
  | always (found : m.instruction? = some ⟨.jump, [target]⟩)
  | falsy {below : List Value} {v : Value}
      (found : m.instruction? = some ⟨.jumpNotTruthy, [target]⟩)
      (supplies : m.Supplies below [v]) (falsy : v.isTruthy = false)

/-- If the next step jumps, it jumps behind its instruction's offset. -/
def Forward (m : Machine) : Prop := ∀ target, m.JumpsTo target → m.calls.top.ip < target

theorem advances_of_leave {callers : Array Frame} {caller : Frame}
    (resumed : m.calls.callers = callers.push caller) :
    m.calls.Advances ⟨callers, caller⟩ :=
  ⟨[], by simp [CallStack.frames, resumed], nofun⟩

theorem advances_of_found {event : Option Event} (found : m.instruction? = some i)
    (effect : Effect (m.pass i) i event m') (forward : m.Forward) :
    m.calls.Advances m'.calls := by
  obtain ⟨inside, -⟩ := exists_of_instruction? found
  have goesOn {ip : Nat} (rest : List Frame) (later : m.calls.top.ip < ip)
      (hframes : m'.calls.frames = m.calls.callers.toList ++ { m.calls.top with ip } :: rest) :
      m.calls.Advances m'.calls := by
    refine ⟨_, hframes, ?_⟩
    rintro f ⟨⟩
    exact Frame.rank_lt inside later
  have passed : m.calls.top.ip < m.calls.top.ip + i.length :=
    Nat.lt_add_of_pos_right (Nat.lt_of_lt_of_le Nat.one_pos (Nat.le_add_right 1 _))
  cases effect with
  | compute | discard | pass | assignGlobal | assignLocal | create | native =>
    exact goesOn [] passed rfl
  | jump op =>
    have always := found.trans (congrArg some (eq_of_opcode_operand found op rfl))
    exact goesOn [] (forward _ (.always always)) rfl
  | branch op supplies falsy =>
    have taken := found.trans (congrArg some (eq_of_opcode_operand found op rfl))
    exact goesOn [] (forward _ (.falsy taken ⟨supplies.split, supplies.enough⟩ falsy)) rfl
  | @enter below args c op supplies count arity depth room =>
    refine goesOn [.enter c (below.length + 1)] passed ?_
    simp [CallStack.frames, CallStack.push, pass, jump]
  | leave op supplies resumed room => exact advances_of_leave resumed

theorem Continues.advances (h : m.Continues events m') (forward : m.Forward) :
    m.calls.Advances m'.calls := by
  cases h with
  | dispatch found effect => exact advances_of_found found effect forward
  | finish beyond inner effect =>
    cases effect with
    | leave op supplies resumed room => exact advances_of_leave resumed
    | compute supplies value room => cases value.yields
    | discard op | jump op | pass op | branch op | assignGlobal op | assignLocal op | create op
    | native op | enter op => cases op

/-- One machine has less left to do than another. -/
def Behind (bound : Nat) : Machine → Machine → Prop :=
  InvImage (CallStack.Below bound) fun m k => m.calls.rankAt k

theorem wellFounded_behind (bound : Nat) : WellFounded (Behind bound) :=
  InvImage.wf _ (CallStack.wellFounded_below bound)

theorem FramesRooted.behind (h : m.FramesRooted) (forward : m.Forward)
    (next : m.step = .continued m' events) : Behind (max 1 m.environment.maxFrames) m' m :=
  ((continues_of_step next).advances forward).below h.depth_le

/-- A run ends if none of its steps jumps back. -/
theorem FramesRooted.exists_loop (h : m.FramesRooted)
    (forward : ∀ past m', Run m past m' → m'.Forward) :
    ∃ fuel outcome m', loop fuel m = some (outcome, m') := by
  generalize hbound : max 1 m.environment.maxFrames = bound
  induction m using (wellFounded_behind bound).induction with
  | h m ih =>
    cases hstep : m.step with
    | continued after events =>
      have behind := h.behind (forward [] m .refl) hstep
      have framesRooted := h.continues (continues_of_step hstep)
      have henvironment := (continues_of_step hstep).environment_eq
      have later : ∀ past m', Run after past m' → m'.Forward := fun past m' run =>
        forward _ m' ((Run.step .refl hstep).trans run)
      obtain ⟨fuel, outcome, last, hloop⟩ :=
        ih after (hbound ▸ behind) framesRooted later (by rw [henvironment, hbound])
      exact ⟨fuel + 1, outcome, last, by rw [loop, hstep]; exact hloop⟩
    | ended after => exact ⟨1, _, _, by rw [loop, hstep]⟩
    | failed after error events => exact ⟨1, _, _, by rw [loop, hstep]⟩

/-- A run that goes on forever jumps back. -/
theorem FramesRooted.exists_jump_back {states : Nat → Machine} (h : (states 0).FramesRooted)
    (runs : ∀ n, ∃ events, (states n).step = .continued (states (n + 1)) events) :
    ∃ n target, (states n).JumpsTo target ∧ target ≤ (states n).calls.top.ip := by
  by_contra never
  have forward (n : Nat) : (states n).Forward := by
    intro target jumps
    by_contra back
    exact never ⟨n, target, jumps, Nat.le_of_not_lt back⟩
  have invariant (n : Nat) : (states n).FramesRooted ∧
      (states n).environment = (states 0).environment := by
    induction n with
    | zero => exact ⟨h, rfl⟩
    | succ n ih =>
      obtain ⟨events, next⟩ := runs n
      have continues := continues_of_step next
      exact ⟨ih.1.continues continues, continues.environment_eq.trans ih.2⟩
  have : IsWellFounded Machine (Behind (max 1 (states 0).environment.maxFrames)) :=
    ⟨wellFounded_behind _⟩
  obtain ⟨n, hn⟩ := WellFounded.not_rel_apply_succ
    (r := Behind (max 1 (states 0).environment.maxFrames)) states
  obtain ⟨framesRooted, henvironment⟩ := invariant n
  obtain ⟨events, next⟩ := runs n
  exact hn (henvironment ▸ framesRooted.behind (forward n) next)

/-- Only jumps back make a run go on forever. -/
structure EndsWithoutJumpsBack (p : Program) (setup : Setup) : Prop where
  jumps_back : ∀ states : Nat → Machine, states 0 = initial p setup →
    (∀ n, ∃ events, (states n).step = .continued (states (n + 1)) events) →
    ∃ n target, (states n).JumpsTo target ∧ target ≤ (states n).calls.top.ip
  ends : (∀ past m, Run (initial p setup) past m → m.Forward) →
    ∃ fuel outcome m, (load p setup).run fuel = some (outcome, m)

theorem endsWithoutJumpsBack_of_load (p : Program) (setup : Setup) :
    EndsWithoutJumpsBack p setup where
  jumps_back states start runs := by
    refine FramesRooted.exists_jump_back ?_ runs
    rw [start]
    exact Reachable.started.fits.framesRooted
  ends forward := Reachable.started.fits.framesRooted.exists_loop forward

end Machine
end BytecodeMachine

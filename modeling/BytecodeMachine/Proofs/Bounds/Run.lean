import BytecodeMachine.Proofs.Bounds.Agreement
import BytecodeMachine.Proofs.Decoding.Listed
import BytecodeMachine.Proofs.Frames.Layout
import BytecodeMachine.Proofs.Image.Exactness

/-!
# No run goes out of range

However malformed the code of a program is, the operations of its run stay in range: a checked run
has a result wherever it stands, and that is the result of the run. It is enough that the functions
of the program have numbers of 32 bits, as those read from an image have, and that the stack has
fewer than `2 ^ 63` slots.
-/

namespace BytecodeMachine

open Word

theorem Opcode.width_cases (op : Opcode) : ∀ width ∈ op.widths, width = 1 ∨ width = 2 := by
  cases op <;> decide

namespace Code

theorem slice_to_end {code : Code} {offset : Nat} (h : offset ≤ code.size) :
    slice code offset code.size = some (code.toList.drop offset).toArray := by
  have hlist : (code.extract offset code.size).toList = code.toList.drop offset := by
    rw [Array.toList_extract, List.extract_eq_take_drop]
    exact List.take_of_length_le (by simp)
  rw [slice_eq h (Nat.le_refl _), ← hlist, Array.toArray_toList]

theorem checkedNumber_eq {width : Nat} (hwidth : width = 1 ∨ width = 2) {bytes : List UInt8}
    (enough : width ≤ bytes.length) :
    checkedNumber width bytes.toArray = some (BigEndian.decode (bytes.take width)) := by
  rcases hwidth with rfl | rfl
  · obtain ⟨byte, rest, rfl⟩ := List.exists_cons_of_length_pos enough
    simp [checkedNumber, BigEndian.decode, BigEndian.count]
  · obtain ⟨high, rest, rfl⟩ := List.exists_cons_of_length_pos (Nat.lt_of_succ_lt enough)
    obtain ⟨low, rest, rfl⟩ := List.exists_cons_of_length_pos (Nat.lt_of_succ_lt_succ enough)
    simp [checkedNumber, BigEndian.decode, BigEndian.count, Nat.mul_comm]

theorem checkedOperands_eq {bytes : List UInt8} (small : bytes.length < 2 ^ 64)
    {widths : List Nat} (hwidths : ∀ width ∈ widths, width = 1 ∨ width = 2) {offset : Nat}
    (enough : offset + totalWidth widths ≤ bytes.length) :
    checkedOperands bytes.toArray offset widths =
      some (splitOperands widths (bytes.drop offset)) := by
  induction widths generalizing offset with
  | nil => rfl
  | cons width widths ih =>
    rw [totalWidth_cons] at enough
    have hsuffix : slice bytes.toArray offset bytes.toArray.size =
        some (bytes.drop offset).toArray :=
      slice_to_end (by rw [List.size_toArray]; omega)
    have hnumber := checkedNumber_eq (hwidths width List.mem_cons_self)
      (show width ≤ (bytes.drop offset).length by rw [List.length_drop]; omega)
    have hnext : add offset width = some (offset + width) := add_eq (by omega)
    have hrest : checkedOperands bytes.toArray (offset + width) widths = _ :=
      ih (fun w hw => hwidths w (List.mem_cons_of_mem _ hw)) (by omega)
    simp only [checkedOperands, hsuffix, hnumber, hnext, hrest, bind, Option.bind, pure,
      splitOperands, List.drop_drop]

theorem checkedInstruction_eq {code : Code} (small : code.size < 2 ^ 64) {offset : Nat}
    (h : offset < code.size) :
    code.checkedInstruction offset = some (code.instructionAt offset h) := by
  have hbehind : add offset 1 = some (offset + 1) := add_eq (by omega)
  rw [instructionAt_eq, checkedInstruction, Array.getElem?_eq_getElem h]
  simp only [bind, Option.bind, hbehind, slice_to_end (Nat.succ_le_of_lt h), List.size_toArray]
  cases Opcode.ofByte code[offset] with
  | error e => rfl
  | ok op =>
    simp only [Except.bind, Opcode.readOperands]
    have hlength : (code.toList.drop (offset + 1)).length < 2 ^ 64 := by
      rw [List.length_drop, Array.length_toList]
      omega
    by_cases short : (code.toList.drop (offset + 1)).length < op.operandLength
    · rw [if_pos short, if_pos short]
      rfl
    · have enough : 0 + totalWidth op.widths ≤ (code.toList.drop (offset + 1)).length := by
        rw [Nat.zero_add]
        exact Nat.le_of_not_lt short
      rw [if_neg short, if_neg short, checkedOperands_eq hlength op.width_cases enough,
        List.drop_zero]
      rfl

theorem operand_lt_of_mem_splitOperands {widths : List Nat}
    (hwidths : ∀ width ∈ widths, width = 1 ∨ width = 2) {bytes : List UInt8} {operand : Nat}
    (h : operand ∈ splitOperands widths bytes) : operand < 2 ^ 16 := by
  induction widths generalizing bytes with
  | nil => cases h
  | cons width widths ih =>
    rcases List.mem_cons.mp h with rfl | h
    · have hcount : ∀ n ≤ 2, BigEndian.count n ≤ 2 ^ 16 := by decide
      have hwidth := hwidths width List.mem_cons_self
      have hlength : (bytes.take width).length ≤ 2 :=
        Nat.le_trans (List.length_take_le _ _) (by omega)
      exact Nat.lt_of_lt_of_le (BigEndian.decode_lt _) (hcount _ hlength)
    · exact ih (fun w hw => hwidths w (List.mem_cons_of_mem _ hw)) h

theorem operand_lt {code : Code} {offset : Nat} {h : offset < code.size} {i : Instruction}
    (hi : code.instructionAt offset h = .ok i) (k : Nat) : i.operand k < 2 ^ 16 := by
  rw [Instruction.operand, List.getD_eq_getElem?_getD]
  cases found : i.operands[k]? with
  | none => exact Nat.two_pow_pos 16
  | some n =>
    have member := List.mem_of_getElem? found
    rw [(bounds_of_instructionAt hi).2.1] at member
    exact operand_lt_of_mem_splitOperands i.opcode.width_cases member

end Code

theorem Sized.Written.length_le {w field : List UInt8} (h : Sized.Written w field) :
    field.length ≤ w.length := by
  obtain ⟨counted⟩ := h
  rw [List.length_append]
  exact Nat.le_add_left _ _

/-- The code of a written function is part of what is written. -/
theorem Sequence.size_le {w : List UInt8} {constants : List Constant}
    (h : Sequence Constant.Written w constants) {code : Code} {numLocals numParameters : UInt32}
    (member : .function code numLocals numParameters ∈ constants) : code.size ≤ w.length := by
  induction h with
  | nil => cases member
  | cons head tail ih =>
    rw [List.length_append]
    rcases List.mem_cons.mp member with rfl | member
    · cases head with
      | function kind body localCount parameterCount =>
        have hbody := body.length_le
        rw [Array.length_toList] at hbody
        simp only [List.length_append]
        omega
    · exact Nat.le_trans (ih member) (Nat.le_add_left _ _)

theorem Constant.exists_of_occurs_toValue {n : Nat} {c : Constant} {f : Function}
    (h : (Value.function f).Occurs (c.toValue n)) :
    ∃ code numLocals numParameters, c = .function code numLocals numParameters ∧
      f = ⟨.given n, code, numLocals.toNat, numParameters.toNat⟩ := by
  cases c with
  | integer n => cases h
  | string s => cases h
  | function code numLocals numParameters =>
    cases h
    exact ⟨code, numLocals, numParameters, rfl, rfl⟩

/-- Reading a program from bytes that fit into memory yields sizes in range. -/
theorem Program.sized_of_decode {start : Nat} {bytes : List UInt8} {p : Program}
    (h : decode start bytes = .ok p) (small : bytes.length < 2 ^ 64) : p.Sized := by
  obtain ⟨image, ⟨written, rest, hwritten, rfl⟩, rfl⟩ := decode_eq_ok_iff.mp h
  obtain ⟨main, counted, listed⟩ := hwritten
  have hmain := main.length_le
  rw [Array.length_toList] at hmain
  simp only [List.length_append, List.length_cons] at small
  refine ⟨?_, fun v hv f inside => ?_⟩
  · exact Nat.lt_of_le_of_lt hmain (by omega)
  · obtain ⟨i, hi, rfl⟩ := List.mem_mapIdx.mp (List.mem_toArray.mp hv)
    obtain ⟨code, numLocals, numParameters, hconstant, rfl⟩ :=
      Constant.exists_of_occurs_toValue inside
    have hsize := listed.size_le (hconstant ▸ List.getElem_mem hi)
    exact ⟨numLocals.toNat_lt, numParameters.toNat_lt,
      Nat.lt_of_le_of_lt hsize (by omega)⟩

/-- Each frame above the main one lies higher on the stack. -/
theorem Stacked.numCallers_le_base {live : List Value} {callers : Array Frame} {top : Frame}
    (h : Stacked live callers top) (noWrap : ∀ f ∈ callers, f.NoWrap) :
    callers.size ≤ top.base := by
  induction h with
  | main => exact Nat.zero_le _
  | @call callers lower upper h above closure ih =>
    have hlower := ih fun f hf => noWrap f (Array.mem_push_of_mem _ hf)
    have hbase := (noWrap lower Array.mem_push_self).base_le_floor
    rw [Array.size_push]
    omega

namespace Machine

variable {p : Program} {limits : Limits} {builtins : Array Builtin} {m : Machine}

theorem Reachable.bounded (h : Reachable p ⟨limits, builtins, Host.standard⟩ m) (sized : p.Sized)
    (small : limits.stackSize < 2 ^ 63) : m.Bounded := by
  have fits := h.fits
  have sound := h.sound (neverWraps_of_sized sized Host.standard_conserves small)
  have hfloor := sound.floor_le
  have hsize : m.stack.size ≤ m.stack.capacity := m.stack.size_le
  have hbase := sound.base_le_floor
  -- The frames are no more than the slots, whatever the limit on frames is.
  have hcallers := sound.stacked.numCallers_le_base sound.noWrap.callers
  refine ⟨?_, sound.noWrap.top, by omega, ?_, fits.framesRooted.returns, fun c hc => ?_, ?_⟩
  · rw [fits.capacity_eq]
    exact small
  · change m.calls.callers.size + 1 ≤ _
    omega
  · exact (h.sized Host.standard_conserves sized (.slot hc (.code .here))).numSlots_lt
  · rw [fits.environment_eq]
    rfl

theorem Reachable.size_code_lt (h : Reachable p ⟨limits, builtins, Host.standard⟩ m)
    (sized : p.Sized) : m.calls.top.code.size < 2 ^ 64 :=
  (h.sized Host.standard_conserves sized (.frame m.calls.top_mem_frames (.code .here))).size_lt

theorem checkedTop_eq (m : Machine) : m.checkedTop = some m.stack.top? := by
  rw [checkedTop, Stack.top?]
  by_cases hpos : 0 < m.stack.size
  · have hsub : sub m.stack.size 1 = some (m.stack.size - 1) := sub_eq hpos
    have hslot : m.stack.slots[m.stack.size - 1]? = some (m.stack.top hpos) :=
      Array.getElem?_eq_getElem _
    rw [if_neg (Nat.ne_of_gt hpos), dif_pos hpos, hsub]
    simp only [bind, Option.bind, hslot, pure]
  · rw [if_pos (Nat.eq_zero_of_not_pos hpos), dif_neg hpos]

private theorem transition_eq {x : Checked (Option Event)} {y : Exec (Option Event)}
    (h : x.Agrees y m) {offset depth : Nat} {events : List Event} :
    (do return transition offset depth events (← x m)) =
      some (transition offset depth events (y m)) := by
  have hx : x m = some (y m) := h
  rw [hx]
  rfl

open Checked in
theorem checkedStep_eq (h : m.Bounded) (small : m.calls.top.code.size < 2 ^ 64) :
    m.checkedStep = some m.step := by
  simp only [checkedStep, step, m.calls.sub_length_frames, m.calls.getElem?_frames,
    Option.bind_eq_bind, Option.bind_some]
  rw [m.calls.length_frames]
  by_cases inside : m.calls.top.ip < m.calls.top.code.size
  · simp only [if_pos inside, dif_pos inside, Code.checkedInstruction_eq small inside,
      Option.bind_some]
    cases hdecode : m.calls.top.code.instructionAt m.calls.top.ip inside with
    | error e => rfl
    | ok i =>
      -- A jump may lead anywhere, but what is decoded there ends in the code.
      have hend := (Code.bounds_of_instructionAt hdecode).1
      have hoperand := Code.operand_lt hdecode 0
      have hnext : add m.calls.top.ip i.length = some (m.calls.top.ip + i.length) :=
        add_eq (by omega)
      refine transition_eq (.of_ok (lookup_eq hnext) ((agrees_jump _).bind ?_))
      rintro _ _ ⟨⟩
      exact agrees_execute (h.jump _) (Code.length_operands hdecode) (by omega)
  · simp only [if_neg inside, dif_neg inside]
    by_cases outermost : m.calls.depth = 1
    · rw [if_pos outermost, if_pos outermost]
      rfl
    · rw [if_neg outermost, if_neg outermost]
      exact transition_eq ((agrees_leave h .null).map some)

theorem checkedLoop_eq (h : Reachable p ⟨limits, builtins, Host.standard⟩ m) (sized : p.Sized)
    (small : limits.stackSize < 2 ^ 63) (fuel : Nat) :
    checkedLoop fuel m = some (loop fuel m) := by
  induction fuel generalizing m with
  | zero => rfl
  | succ fuel ih =>
    have hnext := h.stepped
    have hstep := checkedStep_eq (h.bounded sized small) (h.size_code_lt sized)
    rw [checkedLoop, loop, hstep]
    cases next : m.step with
    | continued after events =>
      rw [next] at hnext
      exact ih hnext
    | ended after => rfl
    | failed after error events => rfl

/-- No operation of a run is out of range: neither at a step from a reachable state, nor at a look
at the top of its stack. So a run that ends has ended well or with an error. -/
theorem inRange_of_sized (p : Program) (limits : Limits) (builtins : Array Builtin)
    (sized : p.Sized) (small : limits.stackSize < 2 ^ 63) :
    (∀ m, Reachable p ⟨limits, builtins, Host.standard⟩ m →
      m.checkedStep = some m.step ∧ m.checkedTop = some m.stack.top?) ∧
    ∀ fuel, (load p ⟨limits, builtins, Host.standard⟩).checkedRun fuel =
      some ((load p ⟨limits, builtins, Host.standard⟩).run fuel) := by
  refine ⟨fun m h => ⟨?_, m.checkedTop_eq⟩, fun fuel => ?_⟩
  · exact checkedStep_eq (h.bounded sized small) (h.size_code_lt sized)
  · exact checkedLoop_eq .started sized small fuel

/-- A program that calls a function with as many local slots as one can have. -/
def callOversized : Program where
  code := #[27, 0, 0, 0, 21, 0]
  constants := Pool.empty.push (.function ⟨.given 0, #[], 2 ^ 32 - 1, 0⟩)
    (Value.given_function (Identity.isGiven_given 0))

theorem decode_callOversized :
    Program.decode 0
      [77, 78, 75, 89, 1, 6, 27, 0, 0, 0, 21, 0, 1, 2, 0, 255, 255, 255, 255, 15, 0] =
        .ok callOversized := by
  rfl

theorem inRange_callOversized :
    callOversized.Sized ∧ 8 < 2 ^ 63 ∧
      ∃ m, (load callOversized { limits := ⟨8, 0, 2⟩ }).checkedRun 2 =
        some (some (.error ⟨.stackOverflow 8, 4, 1⟩, m)) :=
  have sized := Program.sized_of_decode decode_callOversized (by decide)
  ⟨sized, by decide, _,
    (inRange_of_sized callOversized ⟨8, 0, 2⟩ Builtin.standard sized (by decide)).2 2⟩

end Machine
end BytecodeMachine

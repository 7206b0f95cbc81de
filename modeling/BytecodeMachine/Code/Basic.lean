import BytecodeMachine.Code.Instruction

/-!
# Code

Code is a buffer of encoded instructions, addressed by byte offsets. `instructionAt` decodes at one
offset; `items` decodes from front to back, going on behind bytes that are no opcode.
-/

namespace BytecodeMachine

abbrev Code := Array UInt8

/-- An instruction together with the offset of its opcode byte. -/
structure Placed where
  offset : Nat
  instruction : Instruction
deriving DecidableEq

/-- What decoding finds at a place of the code. -/
abbrev Item := Except CodeError Placed

namespace Code

/-- The number whose last `width` bytes stand at an offset and whose other bytes make up `high`. -/
def numberFrom (code : Code) (high offset : Nat) : (width : Nat) → Nat
  | 0 => high
  | width + 1 => numberFrom code (256 * high + (code.getD offset 0).toNat) (offset + 1) width

/-- The operands of the given widths that stand one after another from an offset on. -/
def operandsAt (code : Code) (offset : Nat) : (widths : List Nat) → List Nat
  | [] => []
  | width :: widths => numberFrom code 0 offset width :: operandsAt code (offset + width) widths

/-- Decodes the instruction whose opcode byte stands at the offset. -/
def instructionAt (code : Code) (offset : Nat) (h : offset < code.size) :
    Except CodeError Instruction := do
  let op ← Opcode.ofByte code[offset]
  let available := code.size - (offset + 1)
  if available < op.operandLength then throw (.truncated op op.operandLength available)
  else return ⟨op, code.operandsAt (offset + 1) op.widths⟩

theorem numberFrom_eq (code : Code) (high : Nat) {offset width : Nat}
    (h : offset + width ≤ code.size) :
    code.numberFrom high offset width =
      high * BigEndian.count width + BigEndian.decode ((code.toList.drop offset).take width) := by
  induction width generalizing high offset with
  | zero => simp [numberFrom, BigEndian.count, BigEndian.decode]
  | succ width ih =>
    have hlt : offset < code.toList.length := by
      rw [Array.length_toList]
      omega
    have hlen : ((code.toList.drop (offset + 1)).take width).length = width := by
      rw [List.length_take, List.length_drop, Array.length_toList]
      omega
    have hget : code.getD offset 0 = code.toList[offset] := by
      rw [Array.getD_eq_getD_getElem?, ← Array.getElem?_toList, List.getElem?_eq_getElem hlt]
      rfl
    rw [numberFrom, ih _ (by omega), List.drop_eq_getElem_cons hlt, List.take_succ_cons,
      BigEndian.decode, hlen, hget, BigEndian.count, Nat.add_mul, Nat.mul_comm 256 high,
      Nat.mul_assoc, Nat.add_assoc]

theorem operandsAt_eq (code : Code) {offset : Nat} {widths : List Nat}
    (h : offset + totalWidth widths ≤ code.size) :
    code.operandsAt offset widths = splitOperands widths (code.toList.drop offset) := by
  induction widths generalizing offset with
  | nil => rfl
  | cons width widths ih =>
    rw [totalWidth_cons] at h
    rw [operandsAt, splitOperands, numberFrom_eq code 0 (by omega), ih (by omega), List.drop_drop,
      Nat.zero_mul, Nat.zero_add]

/-- Decoding sees the opcode byte and, of the bytes after it, those that the operands take. -/
theorem instructionAt_eq (code : Code) (offset : Nat) (h : offset < code.size) :
    code.instructionAt offset h = (do
      let op ← Opcode.ofByte code[offset]
      let (operands, _) ← op.readOperands (code.toList.drop (offset + 1))
      return ⟨op, operands⟩) := by
  unfold instructionAt
  refine bind_congr fun op => ?_
  have hlen : (code.toList.drop (offset + 1)).length = code.size - (offset + 1) := by simp
  simp only [Opcode.readOperands, hlen]
  by_cases hshort : code.size - (offset + 1) < op.operandLength
  · rw [if_pos hshort, if_pos hshort]
    rfl
  · rw [if_neg hshort, if_neg hshort]
    unfold Opcode.operandLength at hshort
    rw [operandsAt_eq code (by omega)]
    rfl

/-- The item at an offset and the offset of the item after it. A byte that is no opcode is an item
of its own, and an instruction that is cut off takes all the bytes that are left. -/
def next? (code : Code) (offset : Nat) : Option (Item × Nat) :=
  if h : offset < code.size then
    match code.instructionAt offset h with
    | .ok i => some (.ok ⟨offset, i⟩, offset + i.length)
    | .error (.undefinedOpcode byte) => some (.error (.undefinedOpcode byte), offset + 1)
    | .error e => some (.error e, code.size)
  else none

theorem lt_of_next? {code : Code} {offset after : Nat} {item : Item}
    (h : code.next? offset = some (item, after)) : offset < code.size ∧ offset < after := by
  unfold next? at h
  split at h
  · next hlt =>
    refine ⟨hlt, ?_⟩
    split at h
    · next i _ =>
      obtain ⟨-, rfl⟩ := Prod.mk.inj (Option.some.inj h)
      have : i.length = 1 + i.opcode.operandLength := rfl
      omega
    · obtain ⟨-, rfl⟩ := Prod.mk.inj (Option.some.inj h)
      omega
    · obtain ⟨-, rfl⟩ := Prod.mk.inj (Option.some.inj h)
      exact hlt
  · cases h

/-- Appends the items from an offset on to the items before it. -/
def itemsFrom (code : Code) (offset : Nat) (items : Array Item) : Array Item :=
  match _h : code.next? offset with
  | none => items
  | some (item, after) => itemsFrom code after (items.push item)
termination_by code.size - offset
decreasing_by
  have := lt_of_next? _h
  omega

theorem itemsFrom_of_next?_none {code : Code} {offset : Nat} (h : code.next? offset = none)
    (items : Array Item) : code.itemsFrom offset items = items := by
  rw [itemsFrom]
  split
  · rfl
  · next hsome => rw [h] at hsome; cases hsome

theorem itemsFrom_of_next?_some {code : Code} {offset after : Nat} {item : Item}
    (h : code.next? offset = some (item, after)) (items : Array Item) :
    code.itemsFrom offset items = code.itemsFrom after (items.push item) := by
  rw [itemsFrom]
  split
  · next hnone => rw [h] at hnone; cases hnone
  · next hsome =>
    obtain ⟨rfl, rfl⟩ := Prod.mk.inj (Option.some.inj (h.symm.trans hsome))
    rfl

/-- The items from an offset on do not depend on those before it. -/
theorem itemsFrom_eq_append (code : Code) (offset : Nat) (items : Array Item) :
    code.itemsFrom offset items = items ++ code.itemsFrom offset #[] := by
  induction hk : code.size - offset using Nat.strongRecOn generalizing offset items with
  | ind k ih =>
    cases h : code.next? offset with
    | none => simp [itemsFrom_of_next?_none h]
    | some found =>
      obtain ⟨item, after⟩ := found
      have hlt : code.size - after < k := by
        have := lt_of_next? h
        omega
      rw [itemsFrom_of_next?_some h, itemsFrom_of_next?_some h,
        ih _ hlt after (items.push item) rfl, ih _ hlt after (#[].push item) rfl,
        ← Array.append_assoc]
      simp

/-- All items, from front to back. -/
def items (code : Code) : Array Item := code.itemsFrom 0 #[]

end Code
end BytecodeMachine

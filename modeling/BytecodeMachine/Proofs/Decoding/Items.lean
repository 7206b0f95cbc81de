import BytecodeMachine.Code.Basic

/-!
# Boundaries of instructions

Decoding from front to back visits the offsets at which instructions begin. In well-formed code each
of them holds an instruction, and jumps lead to such offsets or behind the code.
-/

namespace BytecodeMachine

namespace Code

variable {code : Code} {offset after : Nat} {item : Item}

/-- Decoding from front to back comes to the offset. -/
inductive Visits (code : Code) : Nat → Prop where
  | start : Visits code 0
  | next {offset after : Nat} {item : Item} (visits : Visits code offset)
      (found : code.next? offset = some (item, after)) : Visits code after

/-- The items up to an offset that is visited stand before the items from there on. -/
theorem Visits.exists_items_eq (h : code.Visits offset) :
    ∃ before, code.items = code.itemsFrom offset before := by
  induction h with
  | start => exact ⟨#[], rfl⟩
  | next visits found ih =>
    obtain ⟨before, hitems⟩ := ih
    exact ⟨before.push _, hitems.trans (itemsFrom_of_next?_some found before)⟩

theorem Visits.mem_items (h : code.Visits offset) (found : code.next? offset = some (item, after)) :
    item ∈ code.items := by
  obtain ⟨before, hitems⟩ := h.exists_items_eq
  rw [hitems, itemsFrom_of_next?_some found, itemsFrom_eq_append]
  exact Array.mem_append_left _ (Array.mem_push_self ..)

/-- Every item was found at an offset that is visited. -/
theorem exists_visits_of_mem_itemsFrom {items : Array Item} (visits : code.Visits offset)
    (member : item ∈ code.itemsFrom offset items) :
    item ∈ items ∨ ∃ offset after, code.Visits offset ∧ code.next? offset = some (item, after) := by
  -- Every item takes at least one of the bytes that are left.
  induction hk : code.size - offset using Nat.strongRecOn generalizing offset items with
  | ind k ih =>
    cases found : code.next? offset with
    | none =>
      rw [itemsFrom_of_next?_none found] at member
      exact .inl member
    | some next =>
      obtain ⟨first, after⟩ := next
      have hlt : code.size - after < k := by
        have := lt_of_next? found
        omega
      rw [itemsFrom_of_next?_some found] at member
      rcases ih _ hlt (.next visits found) member rfl with member | later
      · rcases Array.mem_push.mp member with member | rfl
        · exact .inl member
        · exact .inr ⟨offset, after, visits, found⟩
      · exact .inr later

theorem mem_items_iff :
    item ∈ code.items ↔
      ∃ offset after, code.Visits offset ∧ code.next? offset = some (item, after) := by
  constructor
  · intro member
    rcases exists_visits_of_mem_itemsFrom .start member with member | found
    · exact absurd member (Array.not_mem_empty _)
    · exact found
  · rintro ⟨offset, after, visits, found⟩
    exact visits.mem_items found

theorem next?_of_ok {inside : offset < code.size} {i : Instruction}
    (h : code.instructionAt offset inside = .ok i) :
    code.next? offset = some (.ok ⟨offset, i⟩, offset + i.length) := by
  rw [next?, dif_pos inside, h]

theorem exists_error_of_next? {inside : offset < code.size} {e : CodeError}
    (h : code.instructionAt offset inside = .error e) :
    ∃ after, code.next? offset = some (.error e, after) := by
  rw [next?, dif_pos inside, h]
  cases e <;> exact ⟨_, rfl⟩

theorem offset_eq_of_next? {placed : Placed} (h : code.next? offset = some (.ok placed, after)) :
    placed.offset = offset := by
  obtain ⟨inside, -⟩ := lt_of_next? h
  cases hi : code.instructionAt offset inside with
  | ok i =>
    rw [next?_of_ok hi] at h
    cases h
    rfl
  | error e =>
    obtain ⟨_, herror⟩ := exists_error_of_next? hi
    rw [herror] at h
    cases h

/-- An instruction of the listing begins there, or the code has ended before. -/
def IsBoundary (code : Code) (offset : Nat) : Prop :=
  (∃ i, .ok ⟨offset, i⟩ ∈ code.items) ∨ code.size ≤ offset

/-- All of the code can be listed, and its jumps lead to boundaries. -/
structure WellFormed (code : Code) : Prop where
  legal : ∀ e, .error e ∉ code.items
  jumps : ∀ offset i, .ok ⟨offset, i⟩ ∈ code.items → i.opcode.isJump = true →
    code.IsBoundary (i.operand 0)

theorem IsBoundary.visits (h : code.IsBoundary offset) (inside : offset < code.size) :
    code.Visits offset := by
  rcases h with ⟨i, member⟩ | beyond
  · obtain ⟨start, after, visits, found⟩ := mem_items_iff.mp member
    rwa [← offset_eq_of_next? found] at visits
  · omega

namespace WellFormed

theorem instructionAt (h : code.WellFormed) (visits : code.Visits offset)
    (inside : offset < code.size) :
    ∃ i, code.instructionAt offset inside = .ok i ∧ .ok ⟨offset, i⟩ ∈ code.items := by
  cases hi : code.instructionAt offset inside with
  | ok i => exact ⟨i, rfl, visits.mem_items (next?_of_ok hi)⟩
  | error e =>
    obtain ⟨_, herror⟩ := exists_error_of_next? hi
    exact absurd (visits.mem_items herror) (h.legal e)

theorem isBoundary_of_visits (h : code.WellFormed) (visits : code.Visits offset) :
    code.IsBoundary offset := by
  rcases Nat.lt_or_ge offset code.size with inside | beyond
  · obtain ⟨i, -, member⟩ := h.instructionAt visits inside
    exact .inl ⟨i, member⟩
  · exact .inr beyond

theorem isBoundary_zero (h : code.WellFormed) : code.IsBoundary 0 := h.isBoundary_of_visits .start

/-- What is decoded at a boundary is listed there, and the next boundary lies behind it. -/
theorem of_boundary (h : code.WellFormed) (boundary : code.IsBoundary offset)
    {inside : offset < code.size} {i : Instruction}
    (hi : code.instructionAt offset inside = .ok i) :
    .ok ⟨offset, i⟩ ∈ code.items ∧ code.IsBoundary (offset + i.length) := by
  have visits := boundary.visits inside
  exact ⟨visits.mem_items (next?_of_ok hi), h.isBoundary_of_visits (visits.next (next?_of_ok hi))⟩

end WellFormed
end Code
end BytecodeMachine

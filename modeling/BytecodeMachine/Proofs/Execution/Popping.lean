import BytecodeMachine.Proofs.Execution.Parts

/-!
# Operands taken at once

Taking some operands at once comes to the same as popping them one after another: the same values,
in the order in which they were pushed, and the same machine, or the same fault. Only where there
are too few operands do the machines differ, because the pops before the one that fails are done.
-/

namespace BytecodeMachine

namespace Stack

variable {α : Type} {s : Stack α} {a : α}

@[simp] theorem topmost_zero (s : Stack α) : s.topmost 0 = #[] := by
  rw [topmost, Nat.sub_zero, Array.extract_empty_of_stop_le_start (Nat.le_refl _)]

/-- The top lies above the elements that are topmost once it is gone. -/
theorem toList_topmost_succ (htop : s.top? = some a) (n : Nat) :
    (s.topmost (n + 1)).toList = ((s.drop 1).topmost n).toList ++ [a] := by
  have hsplit := eq_append_of_top? htop
  have hsize : s.size = (s.drop 1).size + 1 := by
    rw [← length_toList, hsplit, List.length_append, length_toList, List.length_singleton]
  rw [topmost_eq_drop, topmost_eq_drop, hsplit, hsize, Nat.add_sub_add_right]
  apply List.drop_append_of_le_length
  rw [length_toList]
  exact Nat.sub_le _ _

end Stack

namespace Exec

variable {m : Machine} {n : Nat}

/-- Pops `n` operands one after another, the topmost first. -/
def popEach : (n : Nat) → Exec (List Value)
  | 0 => return []
  | n + 1 => do
    let v ← pop
    return v :: (← popEach n)

theorem popEach_succ_of_ok {m' : Machine} {v : Value} (h : pop m = .ok v m') :
    popEach (n + 1) m = (List.cons v <$> popEach n) m' := by
  rw [popEach, bind_of_ok h]
  rfl

theorem exists_pop_eq_ok (hfloor : m.floor < m.stack.size) :
    ∃ v, m.stack.top? = some v ∧ pop m = .ok v { m with stack := m.stack.drop 1 } := by
  have htop : m.stack.top? = some (m.stack.top (Nat.zero_lt_of_lt hfloor)) :=
    dif_pos (Nat.zero_lt_of_lt hfloor)
  exact ⟨_, htop, pop_eq_ok.mpr ⟨hfloor, htop, rfl⟩⟩

theorem popEach_of_le (enough : n ≤ m.stack.size - m.floor) :
    popEach n m = .ok (m.stack.topmost n).toList.reverse { m with stack := m.stack.drop n } := by
  induction n generalizing m with
  | zero =>
    rw [Stack.topmost_zero, Stack.drop_zero]
    rfl
  | succ n ih =>
    obtain ⟨v, htop, hpop⟩ := exists_pop_eq_ok (m := m) (by omega)
    have henough : n ≤ (m.stack.drop 1).size - m.floor := by
      rw [Stack.size_drop]
      omega
    have hrest := ih (m := { m with stack := m.stack.drop 1 }) henough
    have hstack : (m.stack.drop 1).drop n = m.stack.drop (n + 1) := by
      rw [Stack.drop_drop, Nat.add_comm]
    rw [popEach_succ_of_ok hpop, Stack.toList_topmost_succ htop, List.reverse_concat, ← hstack]
    exact map_eq_ok.mpr ⟨_, hrest, rfl⟩

/-- If there are too few operands, all of them are popped. -/
theorem popEach_of_lt (lacking : m.stack.size - m.floor < n) :
    popEach n m = .error .stackUnderflow
      { m with stack := m.stack.drop (m.stack.size - m.floor) } := by
  induction n generalizing m with
  | zero => exact absurd lacking (Nat.not_lt_zero _)
  | succ n ih =>
    -- A pop that succeeds leaves one operand less, so the others lack as many as before.
    by_cases hfloor : m.floor < m.stack.size
    · obtain ⟨v, htop, hpop⟩ := exists_pop_eq_ok hfloor
      have hleft : (m.stack.drop 1).size - m.floor + 1 = m.stack.size - m.floor := by
        rw [Stack.size_drop]
        omega
      have hless : (m.stack.drop 1).size - m.floor < n := by omega
      have hrest := ih (m := { m with stack := m.stack.drop 1 }) hless
      rw [popEach_succ_of_ok hpop, ← hleft, Nat.add_comm _ 1, ← Stack.drop_drop]
      exact map_eq_error.mpr hrest
    · rw [Nat.sub_eq_zero_of_le (Nat.le_of_not_lt hfloor), Stack.drop_zero, popEach]
      exact bind_of_error (pop_eq_error.mpr ⟨hfloor, rfl, rfl⟩)

theorem popMany_of_le (enough : n ≤ m.stack.size - m.floor) :
    popMany n m = .ok (m.stack.topmost n) { m with stack := m.stack.drop n } :=
  popMany_eq_ok.mpr ⟨enough, rfl, rfl⟩

theorem popMany_of_lt (lacking : m.stack.size - m.floor < n) :
    popMany n m = .error .stackUnderflow m :=
  popMany_eq_error.mpr ⟨Nat.not_le.mpr lacking, rfl, rfl⟩

/-- Whether and how `n` operands are taken at once, and what comes of it, told by how they are popped
one after another. -/
structure TakesAsPopped (m : Machine) (n : Nat) : Prop where
  succeeds_iff : (∃ vs m', popMany n m = .ok vs m') ↔ ∃ vs m', popEach n m = .ok vs m'
  /-- The values come in the other order, and the machines are the same in all their slots. -/
  ok_iff (vs : Array Value) (m' : Machine) :
    popMany n m = .ok vs m' ↔ popEach n m = .ok vs.toList.reverse m'
  /-- As many values are live as are taken. -/
  topmost?_eq (vs : Array Value) (m' : Machine) :
    popMany n m = .ok vs m' → m.stack.topmost? n = some vs
  /-- At once, none or all of the operands are taken. -/
  error_iff (fault : Fault) (m' : Machine) :
    popMany n m = .error fault m' ↔
      fault = .stackUnderflow ∧ m' = m ∧ ∃ left, popEach n m = .error .stackUnderflow left
  /-- One after another, all operands that are there are popped before one is missing. -/
  exhausted (fault : Fault) (m' : Machine) : popEach n m = .error fault m' →
    fault = .stackUnderflow ∧ m' = { m with stack := m.stack.drop (m.stack.size - m.floor) }

theorem TakesAsPopped.of_lt (lacking : m.stack.size - m.floor < n) : TakesAsPopped m n where
  succeeds_iff := by simp [popEach_of_lt lacking, popMany_of_lt lacking]
  ok_iff vs m' := by simp [popEach_of_lt lacking, popMany_of_lt lacking]
  topmost?_eq vs m' h := by simp [popMany_of_lt lacking] at h
  error_iff fault m' := by simp [popEach_of_lt lacking, popMany_of_lt lacking, eq_comm]
  exhausted fault m' h := by
    rw [popEach_of_lt lacking] at h
    cases h
    exact ⟨rfl, rfl⟩

theorem TakesAsPopped.of_le (enough : n ≤ m.stack.size - m.floor) : TakesAsPopped m n where
  succeeds_iff := by simp [popEach_of_le enough, popMany_of_le enough]
  ok_iff vs m' := by simp [popEach_of_le enough, popMany_of_le enough, Array.toList_inj]
  topmost?_eq vs m' h := by
    rw [popMany_of_le enough] at h
    cases h
    exact if_pos (Nat.le_trans enough (Nat.sub_le _ _))
  error_iff fault m' := by simp [popEach_of_le enough, popMany_of_le enough]
  exhausted fault m' h := by simp [popEach_of_le enough] at h

theorem takesAsPopped (m : Machine) (n : Nat) : TakesAsPopped m n := by
  rcases Nat.lt_or_ge (m.stack.size - m.floor) n with lacking | enough
  · exact .of_lt lacking
  · exact .of_le enough

end Exec
end BytecodeMachine

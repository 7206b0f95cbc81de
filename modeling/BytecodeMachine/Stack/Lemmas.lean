import BytecodeMachine.Stack.Basic

/-!
# The live elements of a stack

What each operation does to the list of live elements, and what each observation reads off it.
-/

namespace BytecodeMachine.Stack

variable {α : Type}

theorem toList_eq_take (s : Stack α) : s.toList = s.slots.toList.take s.size := by
  simp [toList]

@[simp] theorem length_toList (s : Stack α) : s.toList.length = s.size := by
  have := s.size_le
  simp [toList_eq_take]
  omega

@[simp] theorem toList_empty [Inhabited α] (n : Nat) : (empty n : Stack α).toList = [] := by
  simp [empty, toList_eq_take]

@[simp] theorem toList_push (s : Stack α) (a : α) (h : s.size < s.capacity) :
    (s.push a h).toList = s.toList ++ [a] := by
  have hlen : s.size < s.slots.toList.length := by simpa using h
  simp only [push, toList_eq_take, Array.toList_set]
  rw [List.take_add_one, List.getElem?_set_self hlen, List.take_set_of_le (Nat.le_refl _)]
  rfl

@[simp] theorem toList_truncate (s : Stack α) (n : Nat) :
    (s.truncate n).toList = s.toList.take n := by
  simp [truncate, toList_eq_take, List.take_take, Nat.min_comm]

@[simp] theorem toList_pop (s : Stack α) : s.pop.toList = s.toList.dropLast := by
  rw [List.dropLast_eq_take, length_toList]
  simp [pop, toList_eq_take, List.take_take]

@[simp] theorem toList_set (s : Stack α) (i : Nat) (a : α) (h : i < s.size) :
    (s.set i a h).toList = s.toList.set i a := by
  simp [set, toList_eq_take, List.take_set]

theorem getElem?_reset [Inhabited α] (slots : Array α) (i n j : Nat) :
    (reset slots i n)[j]? =
      if i ≤ j ∧ j < i + n ∧ j < slots.size then some default else slots[j]? := by
  induction n generalizing slots i with
  | zero => simp [reset]; omega
  | succ n ih =>
    rw [reset, ih, Array.size_setIfInBounds, Array.getElem?_setIfInBounds]
    by_cases hij : i = j
    · subst hij
      by_cases hi : i < slots.size <;> simp [hi]
    · simp only [hij, ite_false]
      congr 1
      simp only [eq_iff_iff]
      omega

@[simp] theorem toList_growTo [Inhabited α] (s : Stack α) (n : Nat) (h : n ≤ s.capacity) :
    (s.growTo n h).toList = s.toList ++ List.replicate (n - s.size) default := by
  have hsize := s.size_le
  have hn : n ≤ s.slots.size := h
  apply List.ext_getElem?
  intro j
  simp only [growTo, toList_eq_take, List.getElem?_take, Array.getElem?_toList, getElem?_reset,
    List.getElem?_append, List.getElem?_replicate, List.length_take, Array.length_toList]
  rcases Nat.lt_or_ge j s.size with hj | hj
  · rw [if_pos (by omega), if_neg (by omega), if_pos (by omega), if_pos hj]
  · rw [if_neg (show ¬j < min s.size s.slots.size by omega)]
    rcases Nat.lt_or_ge j n with hjn | hjn
    · rw [if_pos (by omega), if_pos (by omega), if_pos (by omega)]
    · rw [if_neg (by omega), if_neg (by omega)]

theorem get?_eq_getElem? (s : Stack α) (i : Nat) : s.get? i = s.toList[i]? := by
  simp [get?, toList_eq_take, List.getElem?_take]

theorem top?_eq_getLast? (s : Stack α) : s.top? = s.toList.getLast? := by
  have hsize := s.size_le
  rw [List.getLast?_eq_getElem?, length_toList]
  unfold top?
  split
  · next h =>
    simp [top, toList_eq_take, show s.size - 1 < s.size by omega,
      show s.size - 1 < s.slots.size by omega]
  · next h =>
    have : s.toList = [] := by simp [toList_eq_take, show s.size = 0 by omega]
    simp [this]

theorem topmost_eq_drop (s : Stack α) (n : Nat) :
    (s.topmost n).toList = s.toList.drop (s.size - n) := by
  simp only [topmost, toList_eq_take, Array.toList_extract, List.extract_eq_take_drop,
    List.drop_take]

end BytecodeMachine.Stack

import BytecodeMachine.Proofs.Expressions.Delivery
import Mathlib.Algebra.Group.Nat.Defs

/-!
# Arrays

The native functions on arrays and the index operator agree on what an array holds. Its rests lead
through it from front to back, down to the empty array and then to null, and the first value of
each of them is the one that the index operator finds there. Pushing these values one by one makes
the array again.
-/

namespace BytecodeMachine

variable {xs : List Value} {elements : Array Value} {i : Int64} {n : Nat}

namespace Native

/-- The rest of the rest and so on, `n` times. -/
def rests : (n : Nat) → Value → Value
  | 0, a => a
  | n + 1, a => rests n (rest [a])

/-- Pushes the first `n` values of what is left, one by one, to what is built. -/
def move : (n : Nat) → (built left : Value) → Value
  | 0, built, _ => built
  | n + 1, built, left => move n (push [built, first [left]]) (rest [left])

/-- The native functions on arrays, by name. -/
def onArrays : List (String × (List Value → Value)) :=
  [("len", len), ("first", first), ("last", last), ("rest", rest), ("push", push)]

@[simp] theorem first_toArray (xs : List Value) :
    first [.array xs.toArray] = xs.head?.getD .null := by
  simp [first, onArray, List.head?_eq_getElem?]

@[simp] theorem rest_nil : rest [.array #[]] = .null := rfl

@[simp] theorem rest_cons (x : Value) (xs : List Value) :
    rest [.array (x :: xs).toArray] = .array xs.toArray := by
  simp [rest, onArray]

@[simp] theorem push_array (elements : Array Value) (v : Value) :
    push [.array elements, v] = .array (elements.push v) := rfl

theorem rests_toArray (h : n ≤ xs.length) :
    rests n (.array xs.toArray) = .array (xs.drop n).toArray := by
  induction n generalizing xs with
  | zero => rfl
  | succ n ih =>
    cases xs with
    | nil => exact absurd h (Nat.not_succ_le_zero n)
    | cons x xs => rw [rests, rest_cons, ih (Nat.le_of_succ_le_succ h), List.drop_succ_cons]

theorem rests_beyond (xs : List Value) : rests (xs.length + 1) (.array xs.toArray) = .null := by
  induction xs with
  | nil => exact rest_nil
  | cons x xs ih => rw [rests, rest_cons, List.length_cons, ih]

theorem first_rests (h : n ≤ xs.length) :
    first [rests n (.array xs.toArray)] = xs[n]?.getD .null := by
  rw [rests_toArray h, first_toArray, List.head?_drop]

theorem move_toArray (xs : List Value) (built : Array Value) :
    move xs.length (.array built) (.array xs.toArray) = .array (built ++ xs.toArray) := by
  induction xs generalizing built with
  | nil => simp [move]
  | cons x xs ih =>
    rw [List.length_cons, move, first_toArray, List.head?_cons, Option.getD_some, push_array,
      rest_cons, ih]
    simp

/-- An empty array has no rest to which a value could be pushed. -/
theorem rest_push_iff (xs : List Value) (v : Value) :
    rest [push [.array xs.toArray, v]] = push [rest [.array xs.toArray], v] ↔ xs ≠ [] := by
  cases xs with
  | nil =>
    have hleft : rest [push [.array #[], v]] = .array #[] := rest_cons v []
    have hright : push [rest [.array #[]], v] = notAnArray "push" .null := rfl
    rw [hleft, hright]
    exact ⟨nofun, fun h => absurd rfl h⟩
  | cons x xs => simp

end Native

namespace Value

theorem index_of_toInt_eq (h : i.toInt = n) :
    index (.array elements) (.integer i) = .ok (elements[n]?.getD .null) := by
  have hpos : ¬i < 0 := by
    rw [Int64.lt_iff_toInt_lt, h]
    exact Int.not_lt.mpr (Int.natCast_nonneg n)
  rw [index, if_neg hpos, h, Int.toNat_natCast, Array.getD_eq_getD_getElem?]

theorem index_of_toInt_neg (h : i.toInt < 0) :
    index (.array elements) (.integer i) = .ok .null := by
  have hneg : i < 0 := Int64.lt_iff_toInt_lt.mpr h
  rw [index, if_pos hneg]

theorem index_outside (h : ¬(0 ≤ i.toInt ∧ i.toInt < elements.size)) :
    index (.array elements) (.integer i) = .ok .null := by
  rcases Int.lt_or_le i.toInt 0 with hneg | hpos
  · exact index_of_toInt_neg hneg
  · obtain ⟨n, hn⟩ := Int.eq_ofNat_of_zero_le hpos
    rw [index_of_toInt_eq hn, Array.getElem?_eq_none (by omega), Option.getD_none]

theorem index_push (lower : 0 ≤ i.toInt) (upper : i.toInt < elements.size) (v : Value) :
    index (.array (elements.push v)) (.integer i) = index (.array elements) (.integer i) := by
  obtain ⟨n, hn⟩ := Int.eq_ofNat_of_zero_le lower
  have hlt : n < elements.size := by omega
  rw [index_of_toInt_eq hn, index_of_toInt_eq hn, Array.getElem?_push_lt hlt,
    Array.getElem?_eq_getElem hlt]

end Value

namespace Native

theorem exists_len (small : elements.size < 2 ^ 63) :
    ∃ n : Int64, len [.array elements] = .integer n ∧ n.toInt = elements.size :=
  ⟨_, rfl, Int64.toInt_ofNat_of_lt small⟩

private theorem toInt_sub_one (h : 0 ≤ i.toInt) : (i - 1).toInt = i.toInt - 1 := by
  have hlt := i.toInt_lt
  have hone : (1 : Int64).toInt = 1 := rfl
  rw [Int64.toInt_sub, hone]
  exact Int.bmod_eq_of_le (by omega) (by omega)

/-- The last value lies one before the length. -/
theorem exists_last (small : elements.size < 2 ^ 63) : ∃ i : Int64,
    Arithmetic.sub.values (len [.array elements]) (.integer 1) = .ok (.integer i) ∧
      i.toInt = elements.size - 1 ∧
      Value.index (.array elements) (.integer i) = .ok (last [.array elements]) := by
  obtain ⟨n, hlen, hn⟩ := exists_len small
  have hsub : (n - 1).toInt = elements.size - 1 := by
    rw [toInt_sub_one (by omega), hn]
  refine ⟨n - 1, by rw [hlen]; rfl, hsub, ?_⟩
  rcases Nat.eq_zero_or_pos elements.size with hzero | hpos
  · -- The index is -1, where there is nothing, and an empty array has no last value either.
    obtain rfl := Array.eq_empty_of_size_eq_zero hzero
    exact Value.index_of_toInt_neg (by omega)
  · exact Value.index_of_toInt_eq (hsub.trans (by omega))

theorem standard_eq {native : String} {f : List Value → Value} (h : (native, f) ∈ onArrays)
    (args : List Value) : Host.standard native args = ⟨f args, []⟩ := by
  simp only [onArrays, List.mem_cons, Prod.mk.injEq, List.not_mem_nil, or_false] at h
  rcases h with ⟨rfl, rfl⟩ | ⟨rfl, rfl⟩ | ⟨rfl, rfl⟩ | ⟨rfl, rfl⟩ | ⟨rfl, rfl⟩ <;> rfl

/-- A call of a function on arrays puts its answer in the place of the builtin and the arguments. -/
theorem execute_call {m : Machine} {below args : List Value} {b : Builtin}
    {f : List Value → Value} (function : (b.native, f) ∈ onArrays)
    (host : m.environment.host = Host.standard) (supplies : m.Supplies below (.builtin b :: args)) :
    ∃ room, Exec.execute ⟨.call, [args.length]⟩ m = .ok (some (.calledBuiltin b.name args.length))
      { m with stack := (m.stack.drop (args.length + 1)).push (f args) room } := by
  have room : (m.stack.drop (args.length + 1)).HasRoom := supplies.hasRoom_of_cons
  have answer : m.environment.host b.native args = ⟨f args, []⟩ := by
    rw [host, standard_eq function]
  have printed : m.printed ++ ([] : List Value) = m.printed := by simp
  have effect := Exec.execute_of_effect
    (.native (i := ⟨.call, [args.length]⟩) rfl supplies rfl answer room)
  simp only [printed] at effect
  exact ⟨room, effect⟩

/-- The laws of an array to which a value is pushed. -/
structure PushLaws (elements : Array Value) (v : Value) : Prop where
  length : elements.size + 1 < 2 ^ 63 →
    ∃ n : Int64, len [push [.array elements, v]] = .integer n ∧ n.toInt = elements.size + 1
  last : last [push [.array elements, v]] = v
  index (i : Int64) : 0 ≤ i.toInt → i.toInt < elements.size →
    Value.index (push [.array elements, v]) (.integer i) =
      Value.index (.array elements) (.integer i)
  rest_iff : rest [push [.array elements, v]] = push [rest [.array elements], v] ↔ elements ≠ #[]

theorem pushLaws (elements : Array Value) (v : Value) : PushLaws elements v where
  length small := by
    rw [← Array.size_push v] at small
    obtain ⟨n, hlen, hn⟩ := exists_len small
    exact ⟨n, hlen, by rw [hn, Array.size_push, Int.natCast_add, Int.natCast_one]⟩
  last := by simp [last, onArray]
  index i lower upper := Value.index_push lower upper v
  rest_iff := by
    obtain ⟨xs⟩ := elements
    simpa using rest_push_iff xs v

/-- The laws of an array, whatever its values are. Its length is an integer if it is below `2 ^ 63`,
as it is for every array that a memory can hold. -/
structure ArrayLaws (elements : Array Value) : Prop where
  /-- The rests hold the values from a position on. -/
  rests_eq (n : Nat) : n ≤ elements.size →
    rests n (.array elements) = .array (elements.drop n)
  rests_size : rests elements.size (.array elements) = .array #[]
  rests_beyond : rests (elements.size + 1) (.array elements) = .null
  first_rests (n : Nat) : n ≤ elements.size →
    first [rests n (.array elements)] = elements[n]?.getD .null
  /-- The index operator finds the first value of a rest. -/
  index_eq (n : Nat) (i : Int64) : n ≤ elements.size → i.toInt = n →
    Value.index (.array elements) (.integer i) = .ok (first [rests n (.array elements)])
  index_outside (i : Int64) : ¬(0 ≤ i.toInt ∧ i.toInt < elements.size) →
    Value.index (.array elements) (.integer i) = .ok .null
  length : elements.size < 2 ^ 63 →
    ∃ n : Int64, len [.array elements] = .integer n ∧ n.toInt = elements.size
  last_eq : elements.size < 2 ^ 63 → ∃ i : Int64,
    Arithmetic.sub.values (len [.array elements]) (.integer 1) = .ok (.integer i) ∧
      i.toInt = elements.size - 1 ∧
      Value.index (.array elements) (.integer i) = .ok (last [.array elements])
  last_empty : elements = #[] → last [.array elements] = .null
  /-- Its values, pushed one by one, make the array again. -/
  moved : move elements.size (.array #[]) (.array elements) = .array elements
  pushed (v : Value) : PushLaws elements v
  indexed (m : Machine) (below : List Value) (key : Value) :
    m.Supplies below [.array elements, key] → ∃ room,
      Exec.execute ⟨.index, []⟩ m =
        Exec.replaced m 2 room none (Value.index (.array elements) key)
  called (m : Machine) (below args : List Value) (b : Builtin) (f : List Value → Value) :
    (b.native, f) ∈ onArrays → m.environment.host = Host.standard →
    m.Supplies below (.builtin b :: args) → ∃ room,
      Exec.execute ⟨.call, [args.length]⟩ m = .ok (some (.calledBuiltin b.name args.length))
        { m with stack := (m.stack.drop (args.length + 1)).push (f args) room }

theorem arrayLaws (elements : Array Value) : ArrayLaws elements where
  rests_eq n h := by
    obtain ⟨xs⟩ := elements
    rw [rests_toArray h]
    simp [List.take_of_length_le]
  rests_size := by
    obtain ⟨xs⟩ := elements
    have h := rests_toArray (Nat.le_refl xs.length)
    rwa [List.drop_length] at h
  rests_beyond := rests_beyond elements.toList
  first_rests n h := by
    obtain ⟨xs⟩ := elements
    rw [first_rests h, List.getElem?_toArray]
  index_eq n i h hi := by
    obtain ⟨xs⟩ := elements
    rw [first_rests h, Value.index_of_toInt_eq hi, List.getElem?_toArray]
  index_outside i h := Value.index_outside h
  length := exists_len
  last_eq small := exists_last small
  last_empty h := by
    subst h
    rfl
  moved := by
    obtain ⟨xs⟩ := elements
    have h := move_toArray xs #[]
    rwa [Array.empty_append] at h
  pushed v := pushLaws elements v
  indexed m below key supplies :=
    ⟨supplies.hasRoom_of_cons,
      Exec.execute_of_answers (.binary rfl) supplies supplies.hasRoom_of_cons⟩
  called m below args b f function host supplies := execute_call function host supplies

example : rests 2 (.array #[.null, .error "gone"]) = .array #[] := rfl

end Native
end BytecodeMachine

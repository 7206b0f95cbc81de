import BytecodeMachine.Proofs.Relabelling.Value

/-!
# Operators under relabelling

Operators on relabelled operands fail as on the operands themselves, or answer with the relabelled
value. Equality gives the same answer, because identities are told apart as before.
-/

namespace BytecodeMachine

namespace Table

variable {α β : Type}

theorem search_map (f : α → β) (table : Table α) (key : Key) {lo hi : Nat} (h : hi ≤ table.size)
    (h' : hi ≤ (table.map fun pair => (pair.1, f pair.2)).size) :
    search (table.map fun pair => (pair.1, f pair.2)) key lo hi h' =
      (search table key lo hi h).map f := by
  fun_induction search table key lo hi h with
  | case1 lo hi h hlt mid hmid hcompare ih =>
    rw [search, dif_pos hlt]
    simp only [Array.getElem_map, mid, hcompare]
    exact ih _
  | case2 lo hi h hlt mid hmid hcompare =>
    rw [search, dif_pos hlt]
    simp only [Array.getElem_map, mid, hcompare]
    rfl
  | case3 lo hi h hlt mid hmid hcompare ih =>
    rw [search, dif_pos hlt]
    simp only [Array.getElem_map, mid, hcompare]
    exact ih _
  | case4 lo hi h hlt =>
    rw [search, dif_neg hlt]
    rfl

theorem get?_map (f : α → β) (table : Table α) (key : Key) :
    get? key (table.map fun pair => (pair.1, f pair.2)) = (get? key table).map f := by
  rw [get?]
  simp only [Array.size_map]
  exact search_map f table key _ _

theorem Sorted.map {table : Table α} (h : table.Sorted) (f : α → β) :
    Sorted (table.map fun pair => (pair.1, f pair.2)) := by
  rw [Sorted, Array.toList_map, List.pairwise_map]
  exact h

/-- Sorting looks at the keys only. -/
theorem ofEntries_map (f : α → β) (entries : List (Key × α)) :
    ofEntries (entries.map fun pair => (pair.1, f pair.2)) =
      (ofEntries entries).map fun pair => (pair.1, f pair.2) := by
  -- Both tables are sorted, so it is enough that they answer alike for every key.
  apply eq_of_get?_eq (sorted_ofEntries _) ((sorted_ofEntries _).map f)
  intro key
  rw [get?_map, get?_ofEntries, get?_ofEntries, ← List.map_reverse, lookup_map]

end Table

namespace Value

@[simp] theorem kind_array (elements : Array Value) : (array elements).kind = .array := rfl

@[simp] theorem kind_hash (entries : Array (Key × Value)) : (hash entries).kind = .hash := rfl

@[simp] theorem kind_function (f : Function) : (function f).kind = .function := rfl

@[simp] theorem kind_closure (c : Closure Value) : (closure c).kind = .closure := rfl

end Value

namespace Relabelling

variable (ρ : Relabelling)

@[simp] theorem kind_value (v : Value) : (ρ.value v).kind = v.kind := by
  cases v <;> simp

@[simp] theorem isTruthy_value (v : Value) : (ρ.value v).isTruthy = v.isTruthy := by
  cases v with
  | boolean b => rw [value_boolean]
  | _ => simp [Value.isTruthy]

@[simp] theorem key?_value (v : Value) : (ρ.value v).key? = v.key? := by
  cases v <;> simp [Value.key?]

private theorem same_array (xs ys : Array Value) :
    (Value.array xs).same (.array ys) = Value.sameElements xs.toList ys.toList := by
  cases xs
  cases ys
  rw [Value.same]

private theorem same_hash (xs ys : Array (Key × Value)) :
    (Value.hash xs).same (.hash ys) = Value.sameEntries xs.toList ys.toList := by
  cases xs
  cases ys
  rw [Value.same]

mutual

theorem same_value (v w : Value) : (ρ.value v).same (ρ.value w) = v.same w := by
  cases v with
  | array xs =>
    cases w with
    | array ys =>
      rw [value_array, value_array, same_array, same_array, Array.toList_map, Array.toList_map]
      exact sameElements_map xs.toList ys.toList
    | _ => simp [Value.same]
  | hash xs =>
    cases w with
    | hash ys =>
      rw [value_hash, value_hash, same_hash, same_hash, Array.toList_map, Array.toList_map]
      exact sameEntries_map xs.toList ys.toList
    | _ => simp [Value.same]
  | function f => cases w <;> simp [Value.same, function]
  | closure c => cases w <;> simp [Value.same, closure]
  | _ => cases w <;> simp [Value.same]

theorem sameElements_map : (xs ys : List Value) →
    Value.sameElements (xs.map ρ.value) (ys.map ρ.value) = Value.sameElements xs ys
  | [], [] => rfl
  | [], _ :: _ => rfl
  | _ :: _, [] => rfl
  | x :: xs, y :: ys => by
    rw [List.map_cons, List.map_cons, Value.sameElements, Value.sameElements, same_value x y,
      sameElements_map xs ys]

theorem sameEntries_map : (xs ys : List (Key × Value)) →
    Value.sameEntries (xs.map ρ.entry) (ys.map ρ.entry) = Value.sameEntries xs ys
  | [], [] => rfl
  | [], _ :: _ => rfl
  | _ :: _, [] => rfl
  | (k, x) :: xs, (l, y) :: ys => by
    rw [List.map_cons, List.map_cons, entry, entry, Value.sameEntries, Value.sameEntries,
      same_value x y, sameEntries_map xs ys]

end

@[simp] theorem beq_value (v w : Value) : (ρ.value v == ρ.value w) = (v == w) := by
  rw [Value.beq_eq_same, Value.beq_eq_same, same_value]

@[simp] theorem integer?_value (v : Value) : (ρ.value v).integer? = v.integer? := by
  cases v <;> simp [Value.integer?]

@[simp] theorem string?_value (v : Value) : (ρ.value v).string? = v.string? := by
  cases v <;> simp [Value.string?]

theorem negate_value (v : Value) : (ρ.value v).negate = ρ.value <$> v.negate := by
  cases v <;> simp [Value.negate, Functor.map, Except.map]

/-- Arithmetic looks at integers and strings only. -/
private theorem arithmetic_eq (op : Arithmetic) (l r : Value) :
    op.values l r =
      match l.integer?, r.integer? with
      | some m, some n => .integer <$> op.integers m n
      | _, _ =>
        match op, l.string?, r.string? with
        | .add, some s, some t => .ok (.string (s ++ t))
        | op, _, _ => .error (.operandKinds op.opcode l.kind r.kind) := by
  cases l <;> cases r <;> first | rfl | (cases op <;> rfl)

theorem arithmetic_value (op : Arithmetic) (l r : Value) :
    op.values (ρ.value l) (ρ.value r) = ρ.value <$> op.values l r := by
  simp only [arithmetic_eq, integer?_value, string?_value, kind_value]
  split
  · next m n _ _ => cases op.integers m n <;> simp [Functor.map, Except.map]
  · split
    · simp [Functor.map, Except.map]
    · rfl

private theorem greaterThan_eq (l r : Value) :
    Comparison.greaterThan.values l r =
      match l.integer?, r.integer? with
      | some m, some n => .ok (n < m : Bool)
      | _, _ => .error (.operandKinds .greaterThan l.kind r.kind) := by
  cases l <;> cases r <;> rfl

theorem comparison_value (op : Comparison) (l r : Value) :
    op.values (ρ.value l) (ρ.value r) = op.values l r := by
  cases op with
  | equal => simp [Comparison.values]
  | notEqual => simp [Comparison.values]
  | greaterThan => simp only [greaterThan_eq, integer?_value, kind_value]

theorem index_value (container key : Value) :
    (ρ.value container).index (ρ.value key) = ρ.value <$> container.index key := by
  cases container with
  | array elements =>
    cases key with
    | integer n =>
      rw [value_array, value_integer]
      by_cases h : n < 0
      · simp [Value.index, h, Functor.map, Except.map]
      · simp only [Value.index, h, if_false, Functor.map, Except.map, Array.getD_eq_getD_getElem?,
          Array.getElem?_map]
        cases elements[n.toInt.toNat]? <;> simp
    | _ => simp [Value.index, Functor.map, Except.map]
  | hash entries =>
    rw [value_hash]
    simp only [Value.index, key?_value, kind_value]
    cases key.key? with
    | none => rfl
    | some k =>
      have hget : Table.get? k (entries.map ρ.entry) = (Table.get? k entries).map ρ.value :=
        Table.get?_map ρ.value entries k
      simp only [hget, Functor.map, Except.map]
      cases Table.get? k entries <;> simp
  | _ => simp [Value.index, Functor.map, Except.map]

theorem entry_value (pair : Value × Value) :
    Value.entry (ρ.value pair.1, ρ.value pair.2) = ρ.entry <$> Value.entry pair := by
  simp only [Value.entry, key?_value, kind_value]
  cases pair.1.key? <;> rfl

theorem pairUp_map (vs : List Value) :
    Value.pairUp (vs.map ρ.value) =
      (Value.pairUp vs).map fun pair => (ρ.value pair.1, ρ.value pair.2) := by
  fun_induction Value.pairUp vs with
  | case1 key value rest ih => simp [Value.pairUp, ih]
  | case2 vs hshort =>
    match vs, hshort with
    | [], _ => rfl
    | [v], _ => rfl
    | key :: value :: rest, hshort => exact absurd rfl (hshort key value rest)

theorem mapM_entry (pairs : List (Value × Value)) :
    (pairs.map fun pair => (ρ.value pair.1, ρ.value pair.2)).mapM Value.entry =
      (List.map ρ.entry) <$> pairs.mapM Value.entry := by
  induction pairs with
  | nil => rfl
  | cons pair pairs ih =>
    rw [List.map_cons, List.mapM_cons, List.mapM_cons, ih, entry_value]
    cases Value.entry pair with
    | error kind => rfl
    | ok first => cases pairs.mapM Value.entry <;> rfl

theorem ofPairs_map (pairs : List (Value × Value)) :
    Table.ofPairs (pairs.map fun pair => (ρ.value pair.1, ρ.value pair.2)) =
      (Array.map ρ.entry) <$> Table.ofPairs pairs := by
  simp only [Table.ofPairs]
  rw [mapM_entry]
  cases pairs.mapM Value.entry with
  | error kind => rfl
  | ok entries => exact congrArg Except.ok (Table.ofEntries_map ρ.value entries)

theorem hashOf_map (vs : Array Value) :
    Value.hashOf (vs.map ρ.value) = ρ.value <$> Value.hashOf vs := by
  simp only [Value.hashOf]
  rw [Array.size_map, Array.toList_map, pairUp_map, ofPairs_map]
  by_cases h : vs.size % 2 = 0
  · rw [if_pos h, if_pos h]
    cases Table.ofPairs (Value.pairUp vs.toList) with
    | error kind => rfl
    | ok entries => simp [Functor.map, Except.map]
  · rw [if_neg h, if_neg h]
    rfl

end Relabelling
end BytecodeMachine

import BytecodeMachine.Proofs.Execution.Effect
import BytecodeMachine.Value.Literal

/-!
# Plain and inert values

A plain value holds no functions or closures, and an inert one holds no builtins either. All
operators answer with inert values, but for an index, which finds what lies in the container.
-/

namespace BytecodeMachine

namespace Value

/-- The value holds no function and no closure. -/
def Plain (v : Value) : Prop := ∀ u : Value, u.Occurs v → u.identity? = none

/-- The value is something that runs: a function, a closure or a builtin. -/
def IsCode : Value → Prop
  | function _ | closure _ | builtin _ => True
  | _ => False

/-- The value holds nothing that runs. -/
def Inert (v : Value) : Prop := ∀ u : Value, u.Occurs v → ¬u.IsCode

variable {u v : Value}

theorem hasSettledText_of_occurs (inside : u.Occurs v) (settled : v.hasSettledText = true) :
    u.hasSettledText = true := by
  induction inside with
  | here => exact settled
  | element member inside ih =>
    rw [hasSettledText, elementsSettled_eq, List.all_eq_true] at settled
    exact ih (settled _ member.val)
  | entry member inside ih =>
    rw [hasSettledText, Bool.and_eq_true, entriesSettled_eq, List.all_eq_true] at settled
    exact ih (settled.2 _ member.val)
  | code | captured => cases settled

theorem plain_of_hasSettledText (settled : v.hasSettledText = true) : v.Plain := by
  intro u hu
  have hsettled := hasSettledText_of_occurs hu settled
  cases u with
  | function | closure => cases hsettled
  | _ => rfl

theorem isCode_of_identity? (object : u.identity? ≠ none) : u.IsCode := by
  cases u with
  | function | closure | builtin => trivial
  | _ => exact absurd rfl object

theorem Inert.not_occurs {v : Value} (h : v.Inert) (code : u.IsCode) : ¬u.Occurs v :=
  fun hu => h u hu code

theorem inert_null : null.Inert := by
  rintro _ ⟨⟩
  exact id

theorem inert_integer (n : Int64) : (integer n).Inert := by
  rintro _ ⟨⟩
  exact id

theorem inert_boolean (b : Bool) : (boolean b).Inert := by
  rintro _ ⟨⟩
  exact id

theorem inert_string (s : String) : (string s).Inert := by
  rintro _ ⟨⟩
  exact id

theorem inert_error (message : String) : (error message).Inert := by
  rintro _ ⟨⟩
  exact id

theorem inert_of_unary {op : Opcode} {f : Value → Except Fault Value} {v w : Value}
    (hop : op.unary? = some f) (h : f v = .ok w) : w.Inert := by
  cases op with
  | minus =>
    cases hop
    cases v with
    | integer n =>
      cases h
      exact inert_integer _
    | _ => cases h
  | bang =>
    cases hop
    cases h
    exact inert_boolean _
  | _ => cases hop

private theorem exists_of_map_eq_ok {α β : Type} {x : Except Fault α} {f : α → β} {b : β}
    (h : f <$> x = .ok b) : ∃ a, b = f a := by
  cases x with
  | error e => cases h
  | ok a =>
    cases h
    exact ⟨a, rfl⟩

theorem inert_of_arithmetic {op : Arithmetic} {l r w : Value} (h : op.values l r = .ok w) :
    w.Inert := by
  simp only [Arithmetic.values] at h
  split at h
  · obtain ⟨n, rfl⟩ := exists_of_map_eq_ok h
    exact inert_integer n
  · cases h
    exact inert_string _
  · cases h

theorem inert_of_comparison {x : Except Fault Bool} {w : Value} (h : .boolean <$> x = .ok w) :
    w.Inert := by
  obtain ⟨b, rfl⟩ := exists_of_map_eq_ok h
  exact inert_boolean b

/-- What an index finds is null or lies in the container. -/
theorem inert_or_occurs_of_index {container key w : Value} (h : container.index key = .ok w) :
    w.Inert ∨ ∀ u : Value, u.Occurs w → u.Occurs container := by
  simp only [index] at h
  split at h
  · next elements n =>
    cases h
    by_cases hneg : n < 0
    · rw [if_pos hneg]
      exact .inl inert_null
    · rw [if_neg hneg, Array.getD_eq_getD_getElem?]
      cases found : elements[n.toInt.toNat]? with
      | none => exact .inl inert_null
      | some v => exact .inr fun u hu => .element (Array.mem_of_getElem? found) hu
  · next entries =>
    split at h
    · next key hkey =>
      cases h
      cases found : Table.get? key entries with
      | none => exact .inl inert_null
      | some v => exact .inr fun u hu => .entry (Table.mem_of_search found) hu
    · cases h
  · cases h

theorem inert_or_occurs_of_binary {op : Opcode} {f : Value → Value → Except Fault Value}
    {l r w : Value} (hop : op.binary? = some f) (h : f l r = .ok w) :
    w.Inert ∨ ∀ u : Value, u.Occurs w → u.Occurs l := by
  cases op with
  | add | sub | mul | div =>
    cases hop
    exact .inl (inert_of_arithmetic h)
  | equal | notEqual | greaterThan =>
    cases hop
    exact .inl (inert_of_comparison h)
  | index =>
    cases hop
    exact inert_or_occurs_of_index h
  | _ => cases hop

/-- What runs and occurs in a hash occurs in one of the operands. -/
theorem occurs_of_hashOf {operands : Array Value} {w : Value} (h : hashOf operands = .ok w)
    (code : u.IsCode) (hu : u.Occurs w) : ∃ v ∈ operands, u.Occurs v := by
  rw [hashOf] at h
  split at h
  · split at h
    · next entries hentries =>
      cases h
      cases hu with
      | here => exact code.elim
      | entry member inside =>
        obtain ⟨k, hk⟩ := Table.exists_mem_of_ofPairs hentries member
        exact ⟨_, Array.mem_toList_iff.mp (mem_of_mem_pairUp hk), inside⟩
    · cases h
  · cases h

end Value

end BytecodeMachine

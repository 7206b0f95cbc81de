import BytecodeMachine.Host
import BytecodeMachine.Value.Literal

/-!
# Relabelling of values

A relabelling gives the objects of a run other identities, and its functions other code perhaps, in
such a way that the same objects stay the same and different ones stay different. Operators do not
notice: they answer with the relabelled value.
-/

namespace BytecodeMachine

/-- New identities for objects and new code for functions. Identities that belong to the run itself
stay what they are. -/
structure Relabelling where
  identity : Identity → Identity
  code : Function → Code
  injective : ∀ i j, identity i = identity j → i = j
  identity_main : identity .main = .main
  identity_created : ∀ n, identity (.created n) = .created n
  isGiven : ∀ i, i.IsGiven → (identity i).IsGiven

namespace Relabelling

variable (ρ : Relabelling)

def function (f : Function) : Function :=
  { f with identity := ρ.identity f.identity, code := ρ.code f }

@[simp] theorem numSlots_function (f : Function) : (ρ.function f).numSlots = f.numSlots := rfl

@[simp] theorem identity_beq (i j : Identity) : (ρ.identity i == ρ.identity j) = (i == j) := by
  by_cases h : i = j
  · rw [h, beq_self_eq_true, beq_self_eq_true]
  · rw [beq_false_of_ne h, beq_false_of_ne fun heq => h (ρ.injective i j heq)]

mutual

def value : Value → Value
  | .null => .null
  | .integer n => .integer n
  | .boolean b => .boolean b
  | .string s => .string s
  | .array ⟨elements⟩ => .array ⟨elementList elements⟩
  | .hash ⟨entries⟩ => .hash ⟨entryList entries⟩
  | .function f => .function (ρ.function f)
  | .closure ⟨identity, f, ⟨captured⟩⟩ =>
    .closure ⟨ρ.identity identity, ρ.function f, ⟨elementList captured⟩⟩
  | .builtin b => .builtin b
  | .error message => .error message

def elementList : List Value → List Value
  | [] => []
  | v :: vs => value v :: elementList vs

def entryList : List (Key × Value) → List (Key × Value)
  | [] => []
  | (k, v) :: entries => (k, value v) :: entryList entries

end

def entry (pair : Key × Value) : Key × Value := (pair.1, ρ.value pair.2)

theorem elementList_eq (vs : List Value) : ρ.elementList vs = vs.map ρ.value := by
  induction vs with
  | nil => rfl
  | cons v vs ih => rw [elementList, ih, List.map_cons]

theorem entryList_eq (entries : List (Key × Value)) :
    ρ.entryList entries = entries.map ρ.entry := by
  induction entries with
  | nil => rfl
  | cons pair entries ih => rw [entryList, ih, List.map_cons, entry]

def closure (c : Closure Value) : Closure Value :=
  ⟨ρ.identity c.identity, ρ.function c.function, c.captured.map ρ.value⟩

@[simp] theorem value_null : ρ.value .null = .null := rfl

@[simp] theorem value_integer (n : Int64) : ρ.value (.integer n) = .integer n := rfl

@[simp] theorem value_boolean (b : Bool) : ρ.value (.boolean b) = .boolean b := rfl

@[simp] theorem value_string (s : String) : ρ.value (.string s) = .string s := rfl

@[simp] theorem value_array (elements : Array Value) :
    ρ.value (.array elements) = .array (elements.map ρ.value) := by
  obtain ⟨elements⟩ := elements
  change Value.array ⟨ρ.elementList elements⟩ = _
  rw [elementList_eq, List.map_toArray]

@[simp] theorem value_hash (entries : Array (Key × Value)) :
    ρ.value (.hash entries) = .hash (entries.map ρ.entry) := by
  obtain ⟨entries⟩ := entries
  change Value.hash ⟨ρ.entryList entries⟩ = _
  rw [entryList_eq, List.map_toArray]

@[simp] theorem value_function (f : Function) :
    ρ.value (.function f) = .function (ρ.function f) := rfl

@[simp] theorem value_closure (c : Closure Value) :
    ρ.value (.closure c) = .closure (ρ.closure c) := by
  obtain ⟨identity, f, ⟨captured⟩⟩ := c
  change Value.closure ⟨ρ.identity identity, ρ.function f, ⟨ρ.elementList captured⟩⟩ = _
  rw [elementList_eq, closure, List.map_toArray]

@[simp] theorem value_builtin (b : Builtin) : ρ.value (.builtin b) = .builtin b := rfl

@[simp] theorem value_error (message : String) : ρ.value (.error message) = .error message := rfl

end Relabelling
end BytecodeMachine

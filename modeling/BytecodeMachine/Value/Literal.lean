import BytecodeMachine.Value.Operator
import BytecodeMachine.Value.Pool

/-!
# Literals

A literal is a value in writing. Literals are written in lists, where each may refer to the values
of those before it; what it refers to is the same object, and every function or closure written out
is a new one. A literal that makes no sense is refused with the fault of the instruction that would
make the same value.
-/

namespace BytecodeMachine

namespace Value

theorem mem_of_mem_pairUp {operands : List Value} {k v : Value} (h : (k, v) ∈ pairUp operands) :
    v ∈ operands := by
  fun_induction pairUp operands with
  | case1 key value rest ih =>
    rcases List.mem_cons.mp h with heq | hlater
    · cases heq
      simp
    · simp [ih hlater]
  | case2 => cases h

theorem given_of_hashOf {operands : Array Value} (hgiven : ∀ v ∈ operands, v.Given) {made : Value}
    (h : hashOf operands = .ok made) : made.Given := by
  unfold hashOf at h
  split at h
  · split at h
    · next entries hentries =>
      cases h
      refine given_hash fun key v hmem => ?_
      obtain ⟨k, hk⟩ := Table.exists_mem_of_ofPairs hentries hmem
      exact hgiven v (Array.mem_toList_iff.mp (mem_of_mem_pairUp hk))
    · cases h
  · cases h

end Value

inductive Literal where
  | null
  | integer (n : Int64)
  | boolean (b : Bool)
  | string (s : String)
  | array (elements : List Literal)
  /-- A hash of alternating keys and values. -/
  | hash (operands : List Literal)
  | function (code : Code) (numLocals numParameters : Nat)
  | closure (body : Literal) (captured : List Literal)
  | builtin (b : Builtin)
  | error (message : String)
  /-- The earlier value at an index. -/
  | reference (index : Nat)

/-- Making values out of literals counts the objects. -/
abbrev Making := StateT Nat (Except Fault)

namespace Literal

/-- A value that may enter a pool. -/
abbrev Made := { v : Value // v.Given }

def newObject : Making { i : Identity // i.IsGiven } :=
  modifyGet fun n => (⟨.given n, n, rfl⟩, n + 1)

mutual

/-- The value of a literal behind earlier ones. -/
def make (earlier : Pool) : Literal → Making Made
  | null => return ⟨.null, Value.given_null⟩
  | integer n => return ⟨.integer n, Value.given_integer n⟩
  | boolean b => return ⟨.boolean b, Value.given_boolean b⟩
  | string s => return ⟨.string s, Value.given_string s⟩
  | builtin b => return ⟨.builtin b, Value.given_builtin b⟩
  | error message => return ⟨.error message, Value.given_error message⟩
  | array elements => do
    let elements ← makeAll earlier .empty elements
    return ⟨.array elements.values, Value.given_array elements.given⟩
  | hash operands => do
    let operands ← makeAll earlier .empty operands
    match h : Value.hashOf operands.values with
    | .ok v => return ⟨v, Value.given_of_hashOf operands.given h⟩
    | .error fault => throw fault
  | function code numLocals numParameters => do
    let ⟨identity, h⟩ ← newObject
    return ⟨.function ⟨identity, code, numLocals, numParameters⟩, Value.given_function h⟩
  | closure body captured => do
    match ← make earlier body with
    | ⟨.function f, hf⟩ =>
      let captured ← makeAll earlier .empty captured
      let ⟨identity, h⟩ ← newObject
      return ⟨.closure ⟨identity, f, captured.values⟩, Value.given_closure h hf captured.given⟩
    | ⟨other, _⟩ => throw (.notAFunction other.kind)
  | reference index =>
    match h : earlier.get? index with
    | some v => return ⟨v, Pool.given_of_get? h⟩
    | none => throw (.constantOutOfRange index earlier.size)

/-- The values of literals that stand inside another one, behind those made already. -/
def makeAll (earlier made : Pool) : List Literal → Making Pool
  | [] => return made
  | literal :: literals => do
    let ⟨v, h⟩ ← make earlier literal
    makeAll earlier (made.push v h) literals

end

end Literal

/-- The pool behind a given one to which the values of further literals are added one by one. -/
def Pool.extend (pool : Pool) : List Literal → Making Pool
  | [] => return pool
  | literal :: literals => do
    let ⟨v, h⟩ ← literal.make pool
    extend (pool.push v h) literals

end BytecodeMachine

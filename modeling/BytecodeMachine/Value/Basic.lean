import BytecodeMachine.Code.Basic
import BytecodeMachine.Value.Identity
import BytecodeMachine.Value.Table

/-!
# Values

The values that programs compute with. Arrays and hashes hold other values; functions and closures
carry the identity by which they are told apart.
-/

namespace BytecodeMachine

/-- A compiled function. Its local slots include the parameters. -/
structure Function where
  identity : Identity
  code : Code
  numLocals : Nat
  numParameters : Nat
deriving DecidableEq

/-- The slots that a call reserves, even where fewer locals than parameters are declared. -/
def Function.numSlots (f : Function) : Nat := max f.numLocals f.numParameters

/-- A function bound to the values it captured when it was created. -/
structure Closure (α : Type) where
  identity : Identity
  function : Function
  captured : Array α

/-- A native function under the name by which programs know it. Builtins are compared by name. -/
structure Builtin where
  name : String
  native : String
deriving DecidableEq

inductive Value where
  | null
  | integer (n : Int64)
  | boolean (b : Bool)
  | string (s : String)
  | array (elements : Array Value)
  | hash (entries : Array (Key × Value))
  | function (f : Function)
  | closure (c : Closure Value)
  | builtin (b : Builtin)
  /-- A failure that the program can inspect, as native functions report it. -/
  | error (message : String)
deriving Inhabited

/-- The kinds of values, as error texts name them. -/
inductive Kind where
  | null | integer | boolean | string | array | hash | function | closure | builtin | error
deriving DecidableEq

def Kind.name : Kind → String
  | null => "NULL"
  | integer => "INTEGER"
  | boolean => "BOOLEAN"
  | string => "STRING"
  | array => "ARRAY"
  | hash => "HASH"
  | function => "COMPILED_FUNCTION"
  | closure => "CLOSURE"
  | builtin => "BUILTIN"
  | error => "ERROR"

instance : ToString Kind := ⟨Kind.name⟩

namespace Value

def kind : Value → Kind
  | null => .null
  | integer _ => .integer
  | boolean _ => .boolean
  | string _ => .string
  | array _ => .array
  | hash _ => .hash
  | function _ => .function
  | closure _ => .closure
  | builtin _ => .builtin
  | error _ => .error

/-- Only null and false are falsy. -/
def isTruthy : Value → Bool
  | null | boolean false => false
  | _ => true

def isNull (v : Value) : Bool := v.kind == .null

def isError (v : Value) : Bool := v.kind == .error

/-- The key under which a hash files the value, if it can be one. -/
def key? : Value → Option Key
  | integer n => some (.integer n)
  | boolean b => some (.boolean b)
  | string s => some (.string s)
  | _ => none

def ofKey : Key → Value
  | .integer n => integer n
  | .boolean b => boolean b
  | .string s => string s

@[simp] theorem key?_ofKey (key : Key) : (ofKey key).key? = some key := by
  cases key <;> rfl

def integer? : Value → Option Int64
  | integer n => some n
  | _ => none

def boolean? : Value → Option Bool
  | boolean b => some b
  | _ => none

def string? : Value → Option String
  | string s => some s
  | _ => none

def elements? : Value → Option (Array Value)
  | array elements => some elements
  | _ => none

/-- The identity of an object. Data has none. -/
def identity? : Value → Option Identity
  | function f => some f.identity
  | closure c => some c.identity
  | _ => none

/-- A pair of values as an entry of a table, or the kind of a key that can be none. -/
def entry (pair : Value × Value) : Except Kind (Key × Value) :=
  match pair.1.key? with
  | some key => .ok (key, pair.2)
  | none => .error pair.1.kind

end Value

/-- The table of key and value pairs, of which the last one with a key counts, or the kind of the
first key that can be none. -/
def Table.ofPairs (pairs : List (Value × Value)) : Except Kind (Table Value) :=
  Table.ofEntries <$> pairs.mapM Value.entry

end BytecodeMachine

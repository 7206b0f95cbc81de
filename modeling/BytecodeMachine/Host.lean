import BytecodeMachine.Value.Text

/-!
# Native functions

A host supplies the native functions that builtins run. A native function answers with a value and
the values it printed. It reports misuse as an error value and never aborts the run. The standard
host has six functions, which the standard registry offers under their own names.
-/

namespace BytecodeMachine

structure Reply where
  value : Value
  /-- The printed values, each of which stands on a line of its own. -/
  printed : List Value

/-- The native functions by name. -/
abbrev Host := String → List Value → Reply

namespace Native

def wrongCount (got want : Nat) : Value :=
  .error s!"wrong number of arguments. got={got}, want={want}"

def notAnArray (native : String) (v : Value) : Value :=
  .error s!"argument to `{native}` must be ARRAY, got {v.kind}"

/-- The number of elements of an array or of bytes of a string. -/
def len : List Value → Value
  | [.string s] => .integer (Int64.ofNat s.utf8ByteSize)
  | [.array elements] => .integer (Int64.ofNat elements.size)
  | [v] => .error s!"argument to `len` not supported, got {v.kind}"
  | args => wrongCount args.length 1

/-- Applies a function to the elements of the only argument. -/
def onArray (native : String) (f : Array Value → Value) : List Value → Value
  | [.array elements] => f elements
  | [v] => notAnArray native v
  | args => wrongCount args.length 1

def first : List Value → Value :=
  onArray "first" fun elements => elements[0]?.getD .null

def last : List Value → Value :=
  onArray "last" fun elements => elements.back?.getD .null

/-- All elements but the first, or null if there is none. -/
def rest : List Value → Value :=
  onArray "rest" fun elements =>
    if elements.isEmpty then .null else .array (elements.extract 1 elements.size)

/-- The array with one element more at its end. -/
def push : List Value → Value
  | [.array elements, v] => .array (elements.push v)
  | [v, _] => notAnArray "push" v
  | args => wrongCount args.length 2

/-- The standard native functions in the order of the registry. -/
def standard : List (String × (List Value → Reply)) :=
  [("len", fun args => ⟨len args, []⟩),
    ("puts", fun args => ⟨.null, args⟩),
    ("first", fun args => ⟨first args, []⟩),
    ("last", fun args => ⟨last args, []⟩),
    ("rest", fun args => ⟨rest args, []⟩),
    ("push", fun args => ⟨push args, []⟩)]

end Native

/-- The host of the standard functions. A name that it does not know answers with an error. -/
def Host.standard : Host := fun native args =>
  match Native.standard.lookup native with
  | some f => f args
  | none => ⟨.error s!"no native function `{native}`", []⟩

/-- The standard registry of builtins. -/
def Builtin.standard : Array Builtin :=
  (Native.standard.map fun (name, _) => ⟨name, name⟩).toArray

/-- The lines that printed values make up. -/
def printedText (printed : Array Value) : String :=
  printed.foldl (fun text v => v.write text ++ "\n") ""

/-- Each line is the text of a value. -/
theorem printedText_eq_foldl (printed : Array Value) :
    printedText printed =
      (printed.map Value.text).foldl (fun out line => out ++ line ++ "\n") "" := by
  simp only [printedText, Array.foldl_map, Value.write_eq]

end BytecodeMachine

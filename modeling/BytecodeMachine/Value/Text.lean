import BytecodeMachine.Value.Basic

/-!
# Texts of values

The text under which a value is printed. Strings stand without quotes, and functions and closures
are told apart by their identity. Texts are written from front to back behind what is written
already.

A value does not settle all of its text. The entries of a hash have no order of their own, and a
function or closure shows where it lies in memory, so even two runs of one program may print
different texts for the same values.
-/

namespace BytecodeMachine

def Key.text : Key → String
  | integer n => toString n.toInt
  | boolean b => if b then "true" else "false"
  | string s => s

namespace Value

mutual

def write (out : String) : Value → String
  | null => out ++ "null"
  | integer n => out ++ toString n.toInt
  | boolean b => out ++ if b then "true" else "false"
  | string s => out ++ s
  | array ⟨elements⟩ => writeElements (out ++ "[") "" elements ++ "]"
  | hash ⟨entries⟩ => writeEntries (out ++ "\x7b") "" entries ++ "\x7d"
  | function f => out ++ s!"CompiledFunction[{f.identity}]"
  | closure c => out ++ s!"Closure[{c.identity}]"
  | builtin b => out ++ s!"builtin function {b.name}"
  | error message => out ++ s!"ERROR: {message}"

/-- The elements with commas between them, the first one behind a separator of its own. -/
def writeElements (out separator : String) : List Value → String
  | [] => out
  | v :: vs => writeElements (write (out ++ separator) v) ", " vs

def writeEntries (out separator : String) : List (Key × Value) → String
  | [] => out
  | (k, v) :: entries =>
    writeEntries (write (out ++ separator ++ k.text ++ ": ") v) ", " entries

end

def text (v : Value) : String := v.write ""

mutual

theorem write_eq (out : String) (v : Value) : v.write out = out ++ v.text := by
  cases v with
  | array elements =>
    rw [text, write, write, writeElements_eq, writeElements_eq ("" ++ "[")]
    simp only [String.append_assoc, String.empty_append]
  | hash entries =>
    rw [text, write, write, writeEntries_eq, writeEntries_eq ("" ++ "\x7b")]
    simp only [String.append_assoc, String.empty_append]
  | _ => simp [text, write]

theorem writeElements_eq (out separator : String) : (elements : List Value) →
    writeElements out separator elements = out ++ writeElements "" separator elements
  | [] => by simp [writeElements]
  | v :: vs => by
    rw [writeElements, writeElements, writeElements_eq _ _ vs,
      writeElements_eq (write ("" ++ separator) v) _ vs, write_eq _ v, write_eq ("" ++ separator) v]
    simp only [String.append_assoc, String.empty_append]

theorem writeEntries_eq (out separator : String) : (entries : List (Key × Value)) →
    writeEntries out separator entries = out ++ writeEntries "" separator entries
  | [] => by simp [writeEntries]
  | (k, v) :: entries => by
    rw [writeEntries, writeEntries, writeEntries_eq _ _ entries,
      writeEntries_eq (write ("" ++ separator ++ k.text ++ ": ") v) _ entries, write_eq _ v,
      write_eq ("" ++ separator ++ k.text ++ ": ") v]
    simp only [String.append_assoc, String.empty_append]

end

mutual

/-- Whether the text is settled by the value's content: it shows no identity and lists no two
entries of a hash, which have no order of their own. -/
def hasSettledText : Value → Bool
  | function _ | closure _ => false
  | array ⟨elements⟩ => elementsSettled elements
  | hash ⟨entries⟩ => entries.length < 2 && entriesSettled entries
  | _ => true

def elementsSettled : List Value → Bool
  | [] => true
  | v :: vs => v.hasSettledText && elementsSettled vs

def entriesSettled : List (Key × Value) → Bool
  | [] => true
  | (_, v) :: entries => v.hasSettledText && entriesSettled entries

end

theorem elementsSettled_eq (elements : List Value) :
    elementsSettled elements = elements.all hasSettledText := by
  induction elements with
  | nil => rfl
  | cons v vs ih => rw [elementsSettled, ih, List.all_cons]

theorem entriesSettled_eq (entries : List (Key × Value)) :
    entriesSettled entries = entries.all fun entry => entry.2.hasSettledText := by
  induction entries with
  | nil => rfl
  | cons entry entries ih => rw [entriesSettled, ih, List.all_cons]

/-- The text that also shows the kind, for the values that have no parts to list. -/
def tagged? : Value → Option String
  | null => some "Null"
  | integer n => some s!"Integer({n.toInt})"
  | boolean b => some s!"Boolean({b})"
  | builtin b => some s!"Builtin(Builtin({b.name}))"
  | _ => none

end Value
end BytecodeMachine

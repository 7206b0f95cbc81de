import BytecodeMachine.Code.Basic

/-!
# Listings

The listing of code has one line for each item: offset, name and operands, or the error.
-/

namespace BytecodeMachine

/-- A number in decimal with at least four digits. -/
def padded (n : Nat) : String :=
  let digits := toString n
  "".pushn '0' (4 - digits.length) ++ digits

def Item.line : Item → String
  | .ok ⟨offset, i⟩ => padded offset ++ " " ++ i.text
  | .error e => s!"ERROR: {e}"

namespace Code

def lines (code : Code) : List String := code.items.toList.map Item.line

/-- The lines of the listing, each with its line end. -/
def listing (code : Code) : String :=
  code.lines.foldl (fun text line => text ++ line ++ "\n") ""

/-- The listing indented between braces. -/
def block (code : Code) : String :=
  code.lines.foldl (fun text line => text ++ "    " ++ line ++ "\n") "Instructions \x7b\n" ++ "\x7d"

end Code
end BytecodeMachine

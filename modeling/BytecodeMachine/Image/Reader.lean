/-!
# Reading fields

A reader takes one field off the front of a list of bytes or tells why it cannot.
-/

namespace BytecodeMachine

inductive FieldError where
  | unexpectedEnd
  | badVarint
  | badUtf8
  | unknownTag
deriving DecidableEq

def FieldError.message : FieldError → String
  | unexpectedEnd => "Hit the end of buffer, expected more data"
  | badVarint => "Found a varint that didn't terminate. Is the usize too big for this platform?"
  | badUtf8 => "Tried to parse invalid utf-8"
  | unknownTag => "Serde Deserialization Error"

abbrev Reader := StateT (List UInt8) (Except FieldError)

namespace Reader

variable {α : Type}

def byte : Reader UInt8 := fun
  | [] => .error .unexpectedEnd
  | b :: rest => .ok (b, rest)

def bytes (n : Nat) : Reader (List UInt8) := fun input =>
  let field := input.take n
  if field.length = n then .ok (field, input.drop n) else .error .unexpectedEnd

/-- Reads `n` fields of one form and adds them to those read before. -/
def timesFrom (item : Reader α) (before : Array α) : (n : Nat) → Reader (Array α)
  | 0 => return before
  | n + 1 => do
    let a ← item
    timesFrom item (before.push a) n

/-- Reads `n` fields of one form. -/
def times (item : Reader α) (n : Nat) : Reader (List α) := do
  return (← timesFrom item #[] n).toList

theorem timesFrom_eq (item : Reader α) (before : Array α) (n : Nat) :
    timesFrom item before n = (before ++ ·) <$> timesFrom item #[] n := by
  induction n generalizing before with
  | zero => simp [timesFrom]
  | succ n ih =>
    simp only [timesFrom, map_bind]
    refine bind_congr fun a => ?_
    rw [ih (before.push a), ih (#[].push a), Functor.map_map]
    simp

theorem times_zero (item : Reader α) : times item 0 = pure [] := rfl

theorem times_succ (item : Reader α) (n : Nat) :
    times item (n + 1) = (do
      let a ← item
      let as ← times item n
      return a :: as) := by
  simp only [times, timesFrom, bind_assoc, pure_bind]
  refine bind_congr fun a => ?_
  rw [timesFrom_eq, bind_map_left]
  simp

end Reader
end BytecodeMachine

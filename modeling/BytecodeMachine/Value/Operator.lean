import BytecodeMachine.Fault
import BytecodeMachine.Value.Equality

/-!
# Operators on values

Arithmetic on integers wraps around and division truncates toward zero. Strings can only be joined,
only integers are ordered, and any two values can be compared for equality.
-/

namespace BytecodeMachine

inductive Arithmetic where
  | add | sub | mul | div
deriving DecidableEq

inductive Comparison where
  | equal | notEqual | greaterThan
deriving DecidableEq

namespace Arithmetic

def opcode : Arithmetic → Opcode
  | add => .add
  | sub => .sub
  | mul => .mul
  | div => .div

/-- The smallest integer divided by minus one is itself again. -/
def integers : Arithmetic → Int64 → Int64 → Except Fault Int64
  | add, l, r => .ok (l + r)
  | sub, l, r => .ok (l - r)
  | mul, l, r => .ok (l * r)
  | div, l, r => if r = 0 then .error .divisionByZero else .ok (l / r)

def values (op : Arithmetic) (left right : Value) : Except Fault Value :=
  match op, left, right with
  | op, .integer l, .integer r => .integer <$> op.integers l r
  | add, .string s, .string t => .ok (.string (s ++ t))
  | op, l, r => .error (.operandKinds op.opcode l.kind r.kind)

end Arithmetic

namespace Comparison

def opcode : Comparison → Opcode
  | equal => .equal
  | notEqual => .notEqual
  | greaterThan => .greaterThan

def values (op : Comparison) (left right : Value) : Except Fault Bool :=
  match op, left, right with
  | equal, l, r => .ok (l == r)
  | notEqual, l, r => .ok (!(l == r))
  | greaterThan, .integer l, .integer r => .ok (r < l)
  | greaterThan, l, r => .error (.operandKinds .greaterThan l.kind r.kind)

end Comparison

namespace Value

def negate : Value → Except Fault Value
  | integer n => .ok (integer (-n))
  | v => .error (.operandKind .minus v.kind)

/-- What a container holds at an index: null outside an array and for a key that a hash lacks. -/
def index (container key : Value) : Except Fault Value :=
  match container, key with
  | array elements, integer n =>
    .ok (if n < 0 then null else elements.getD n.toInt.toNat null)
  | hash entries, k =>
    match k.key? with
    | some key => .ok ((Table.get? key entries).getD null)
    | none => .error (.unusableKey k.kind)
  | c, k => .error (.operandKinds .index c.kind k.kind)

/-- Pairs every value with the one after it. A value that is left over is dropped. -/
def pairUp : List Value → List (Value × Value)
  | key :: value :: rest => (key, value) :: pairUp rest
  | _ => []

/-- The hash of alternating keys and values. -/
def hashOf (operands : Array Value) : Except Fault Value :=
  if operands.size % 2 = 0 then
    match Table.ofPairs (pairUp operands.toList) with
    | .ok entries => .ok (hash entries)
    | .error kind => .error (.unusableKey kind)
  else .error (.oddHashOperands operands.size)

end Value
end BytecodeMachine

import BytecodeMachine.Image.Basic
import BytecodeMachine.Program

/-!
# Images of programs

A program has an image if its pool holds integers, strings and functions of moderate size only. The
program that an image stands for has functions of its own: each is a new object, numbered by its
place in the pool.
-/

namespace BytecodeMachine

/-- The constant that stands for a value, if an image can hold it. -/
def Constant.ofValue? : Value → Option Constant
  | .integer n => some (.integer n)
  | .string s => some (.string s)
  | .function f =>
    if f.numLocals < UInt32.size ∧ f.numParameters < UInt32.size then
      some (.function f.code f.numLocals.toUInt32 f.numParameters.toUInt32)
    else none
  | _ => none

/-- The value of a constant, given the number of the object that a function becomes. -/
def Constant.toValue (n : Nat) : Constant → Value
  | integer n => .integer n
  | string s => .string s
  | function code numLocals numParameters =>
    .function ⟨.given n, code, numLocals.toNat, numParameters.toNat⟩

theorem Constant.given_toValue (n : Nat) (c : Constant) : (c.toValue n).Given := by
  cases c with
  | integer n => exact Value.given_integer n
  | string s => exact Value.given_string s
  | function => exact Value.given_function (Identity.isGiven_given n)

namespace Image

/-- The constant that stands for the value at an index of the pool. -/
def constantAt : Value × Nat → Except ImageError Constant
  | (v, index) =>
    match Constant.ofValue? v with
    | some c => .ok c
    | none => .error (.unserializable index v.kind)

/-- The image of a program. The first constant that has none is reported. -/
def ofProgram (p : Program) : Except ImageError Image := do
  return ⟨p.code, ← p.constants.values.toList.zipIdx.mapM constantAt⟩

/-- The pool of constants whose objects are numbered from `start` on. -/
def toPool (start : Nat) (constants : List Constant) : Pool where
  values := (constants.mapIdx fun i c => c.toValue (start + i)).toArray
  given v hv := by
    obtain ⟨i, hi, rfl⟩ := List.mem_mapIdx.mp (List.mem_toArray.mp hv)
    exact Constant.given_toValue _ _

/-- The program of an image, whose objects are numbered from `start` on. -/
def toProgram (start : Nat) (image : Image) : Program :=
  ⟨image.code, toPool start image.constants⟩

end Image

namespace Program

def encode (p : Program) : Except ImageError (List UInt8) := Image.encode <$> Image.ofProgram p

def decode (start : Nat) (bytes : List UInt8) : Except ImageError Program :=
  Image.toProgram start <$> Image.decode bytes

end Program
end BytecodeMachine

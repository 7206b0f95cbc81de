import BytecodeMachine.Image.Varint
import BytecodeMachine.Value.Basic

/-!
# Images

An image is what can be stored of a program: its code and those constants that a file can hold. Its
bytes are a header of four letters and a version, then the code and the constants, each preceded by
its length or kind. What follows the last constant is ignored.
-/

namespace BytecodeMachine

/-- A constant without identity. -/
inductive Constant where
  | integer (n : Int64)
  | string (s : String)
  | function (code : Code) (numLocals numParameters : UInt32)
deriving DecidableEq

structure Image where
  code : Code
  constants : List Constant
deriving DecidableEq

inductive ImageError where
  | badHeader
  | unsupportedVersion (found : UInt8)
  /-- A constant of the program that an image cannot hold. -/
  | unserializable (index : Nat) (kind : Kind)
  | field (error : FieldError)
deriving DecidableEq

namespace Image

/-- The letters `MNKY`. -/
def magic : List UInt8 := [77, 78, 75, 89]

def formatVersion : UInt8 := 1

end Image

def ImageError.message : ImageError → String
  | badHeader => "not a bytecode image"
  | unsupportedVersion found =>
    s!"unsupported bytecode version {found.toNat} (expected {Image.formatVersion.toNat})"
  | unserializable index kind => s!"constant {index} of type {kind} cannot be serialized"
  | field error => s!"encoding error: {error.message}"

/-- Bytes after their number. -/
def encodeSized (bytes : List UInt8) : List UInt8 := Varint.encode bytes.length ++ bytes

def Constant.encode : Constant → List UInt8
  | integer n => 0 :: Varint.encode (Varint.ofSigned n)
  | string s => 1 :: encodeSized s.toUTF8.data.toList
  | function code numLocals numParameters =>
    2 :: encodeSized code.toList ++ Varint.encode numLocals.toNat ++
      Varint.encode numParameters.toNat

def Image.encode (image : Image) : List UInt8 :=
  magic ++ formatVersion :: encodeSized image.code.toList ++
    Varint.encode image.constants.length ++ image.constants.flatMap Constant.encode

namespace Reader

/-- A field that its length precedes. -/
def sized : Reader (List UInt8) := do bytes (← Varint.read .long)

def code : Reader Code := do return (← sized).toArray

def text : Reader String := do
  match String.fromUTF8? (← sized).toByteArray with
  | some s => return s
  | none => throw .badUtf8

def constant : Reader Constant := do
  match ← Varint.read .short with
  | 0 => return .integer (Varint.toSigned (← Varint.read .long))
  | 1 => return .string (← text)
  | 2 => do
    let code ← code
    let numLocals ← Varint.read .short
    let numParameters ← Varint.read .short
    return .function code numLocals.toUInt32 numParameters.toUInt32
  | _ => throw .unknownTag

def image : Reader Image := do
  let code ← code
  let count ← Varint.read .long
  return ⟨code, ← times constant count⟩

end Reader

def Image.decode (bytes : List UInt8) : Except ImageError Image :=
  if bytes.take 4 = magic then
    match bytes.drop 4 with
    | [] => .error .badHeader
    | version :: payload =>
      if version = formatVersion then
        match Reader.image payload with
        | .ok (image, _) => .ok image
        | .error e => .error (.field e)
      else .error (.unsupportedVersion version)
  else .error .badHeader

end BytecodeMachine

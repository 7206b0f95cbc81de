import BytecodeMachine.Image.Program

/-!
# The grammar of images

Which bytes are a written form of a field, and which inputs begin with no written form of it. A
varint may be longer than needed, so most fields have several written forms. An input is broken at
the first field, in the order of reading, of which it shows no written form.
-/

namespace BytecodeMachine

namespace Varint

/-- The number in the low seven bits of the bytes, the lowest group first. -/
def value : List UInt8 → Nat
  | [] => 0
  | b :: bytes => b.toNat % 128 + 128 * value bytes

/-- Every byte announces another one by its high bit. -/
def Continued (bytes : List UInt8) : Prop := ∀ b ∈ bytes, 128 ≤ b.toNat

inductive Written (range : Range) : List UInt8 → Nat → Prop where
  | mk {leading : List UInt8} {last : UInt8} (continued : Continued leading)
      (final : last.toNat < 128)
      (fits : leading.length < range.leading ∨
        leading.length = range.leading ∧ last.toNat ≤ range.last) :
      Written range (leading ++ [last]) (value (leading ++ [last]))

inductive Broken (range : Range) : List UInt8 → FieldError → Prop where
  | ends {input : List UInt8} (continued : Continued input)
      (short : input.length ≤ range.leading) : Broken range input .unexpectedEnd
  | tooLarge {leading rest : List UInt8} {last : UInt8} (continued : Continued leading)
      (full : leading.length = range.leading) (large : range.last < last.toNat) :
      Broken range (leading ++ last :: rest) .badVarint

end Varint

namespace Sized

inductive Written : List UInt8 → List UInt8 → Prop where
  | mk {length field : List UInt8} (counted : Varint.Written .long length field.length) :
      Written (length ++ field) field

inductive Broken : List UInt8 → FieldError → Prop where
  | length {input : List UInt8} {e : FieldError} (broken : Varint.Broken .long input e) :
      Broken input e
  | ends {length rest : List UInt8} {n : Nat} (counted : Varint.Written .long length n)
      (short : rest.length < n) : Broken (length ++ rest) .unexpectedEnd

end Sized

namespace Constant

/-- A constant is written as its kind and what belongs to it. -/
inductive Written : List UInt8 → Constant → Prop where
  | integer {tag number : List UInt8} {n : Int64} (kind : Varint.Written .short tag 0)
      (signed : Varint.Written .long number (Varint.ofSigned n)) :
      Written (tag ++ number) (.integer n)
  | string {tag field : List UInt8} {s : String} (kind : Varint.Written .short tag 1)
      (text : Sized.Written field s.toUTF8.data.toList) : Written (tag ++ field) (.string s)
  | function {tag field locals parameters : List UInt8} {code : Code}
      {numLocals numParameters : UInt32} (kind : Varint.Written .short tag 2)
      (body : Sized.Written field code.toList)
      (localCount : Varint.Written .short locals numLocals.toNat)
      (parameterCount : Varint.Written .short parameters numParameters.toNat) :
      Written (tag ++ (field ++ (locals ++ parameters))) (.function code numLocals numParameters)

inductive Broken : List UInt8 → FieldError → Prop where
  | kind {input : List UInt8} {e : FieldError} (broken : Varint.Broken .short input e) :
      Broken input e
  | unknown {tag rest : List UInt8} {k : Nat} (kind : Varint.Written .short tag k)
      (unknown : 2 < k) : Broken (tag ++ rest) .unknownTag
  | integer {tag rest : List UInt8} {e : FieldError} (kind : Varint.Written .short tag 0)
      (broken : Varint.Broken .long rest e) : Broken (tag ++ rest) e
  | string {tag rest : List UInt8} {e : FieldError} (kind : Varint.Written .short tag 1)
      (broken : Sized.Broken rest e) : Broken (tag ++ rest) e
  | text {tag field bytes rest : List UInt8} (kind : Varint.Written .short tag 1)
      (sized : Sized.Written field bytes) (invalid : ∀ s : String, s.toUTF8.data.toList ≠ bytes) :
      Broken (tag ++ (field ++ rest)) .badUtf8
  | body {tag rest : List UInt8} {e : FieldError} (kind : Varint.Written .short tag 2)
      (broken : Sized.Broken rest e) : Broken (tag ++ rest) e
  | locals {tag field code rest : List UInt8} {e : FieldError} (kind : Varint.Written .short tag 2)
      (body : Sized.Written field code) (broken : Varint.Broken .short rest e) :
      Broken (tag ++ (field ++ rest)) e
  | parameters {tag field code locals rest : List UInt8} {numLocals : Nat} {e : FieldError}
      (kind : Varint.Written .short tag 2) (body : Sized.Written field code)
      (localCount : Varint.Written .short locals numLocals)
      (broken : Varint.Broken .short rest e) : Broken (tag ++ (field ++ (locals ++ rest))) e

end Constant

/-- The bytes are written forms of the elements, one after another. -/
inductive Sequence {α : Type} (written : List UInt8 → α → Prop) : List UInt8 → List α → Prop where
  | nil : Sequence written [] []
  | cons {first rest : List UInt8} {a : α} {as : List α} (head : written first a)
      (tail : Sequence written rest as) : Sequence written (first ++ rest) (a :: as)

namespace Image

/-- What follows the header of an image. -/
inductive Written : List UInt8 → Image → Prop where
  | mk {field count pool : List UInt8} {code : Code} {constants : List Constant}
      (main : Sized.Written field code.toList)
      (counted : Varint.Written .long count constants.length)
      (listed : Sequence Constant.Written pool constants) :
      Written (field ++ (count ++ pool)) ⟨code, constants⟩

inductive Broken : List UInt8 → FieldError → Prop where
  | main {input : List UInt8} {e : FieldError} (broken : Sized.Broken input e) : Broken input e
  | count {field code rest : List UInt8} {e : FieldError} (main : Sized.Written field code)
      (broken : Varint.Broken .long rest e) : Broken (field ++ rest) e
  | constant {field code count before rest : List UInt8} {n : Nat} {constants : List Constant}
      {e : FieldError} (main : Sized.Written field code) (counted : Varint.Written .long count n)
      (listed : Sequence Constant.Written before constants) (missing : constants.length < n)
      (broken : Constant.Broken rest e) : Broken (field ++ (count ++ (before ++ rest))) e

/-- The bytes begin with an image, whatever follows it. -/
def Begins (image : Image) (bytes : List UInt8) : Prop :=
  ∃ written rest, Written written image ∧ bytes = magic ++ formatVersion :: (written ++ rest)

/-- The bytes begin with no image: the header comes first, then its version, then the fields. -/
inductive Refused : List UInt8 → ImageError → Prop where
  | header {bytes : List UInt8} (bad : bytes.length < 5 ∨ ¬magic <+: bytes) :
      Refused bytes .badHeader
  | version {version : UInt8} {payload : List UInt8} (other : version ≠ formatVersion) :
      Refused (magic ++ version :: payload) (.unsupportedVersion version)
  | field {payload : List UInt8} {e : FieldError} (broken : Broken payload e) :
      Refused (magic ++ formatVersion :: payload) (.field e)

end Image
end BytecodeMachine

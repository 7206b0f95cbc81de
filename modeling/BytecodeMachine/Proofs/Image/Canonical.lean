import BytecodeMachine.Proofs.Image.Contents
import BytecodeMachine.Proofs.Image.Exactness

/-!
# Canonical images

An image may be written in several ways, because a varint may be longer than needed. The writer
takes the shortest form of every varint and puts nothing behind the image. So writing what was read
never takes more bytes than were read, and it gives the same bytes exactly if those were canonical.
-/

namespace BytecodeMachine

namespace Varint

variable {range : Range} {n : Nat} {w leading : List UInt8} {last : UInt8}

/-- A choice of written forms, such as all of them or the shortest ones. -/
abbrev Form := Range → List UInt8 → Nat → Prop

/-- No other written form of the number is shorter. -/
structure Shortest (range : Range) (w : List UInt8) (n : Nat) : Prop where
  written : Written range w n
  length_le : ∀ w', Written range w' n → w.length ≤ w'.length

theorem encode_of_lt (h : n < 128) : encode n = [n.toUInt8] := by rw [encode, if_pos h]

theorem value_singleton (final : last.toNat < 128) : value [last] = last.toNat := by
  simp [value, Nat.mod_eq_of_lt final]

/-- A number in several groups is encoded group by group, unless its high groups are zero. -/
theorem encode_value_cons {b : UInt8} (hb : 128 ≤ b.toNat) (high : 128 ≤ value (b :: w)) :
    encode (value (b :: w)) = b :: encode (value w) := by
  have hlow : value (b :: w) % 128 + 128 = b.toNat := by
    have := b.toNat_lt
    rw [value]
    omega
  have hrest : value (b :: w) / 128 = value w := by
    rw [value]
    omega
  rw [encode, if_neg (Nat.not_lt.mpr high), hlow, hrest]
  simp

theorem length_encode_value_le (continued : Continued leading) (final : last.toNat < 128) :
    (encode (value (leading ++ [last]))).length ≤ (leading ++ [last]).length := by
  induction leading with
  | nil =>
    rw [List.nil_append, value_singleton final, encode_of_lt final]
    rfl
  | cons b leading ih =>
    obtain ⟨hb, continued⟩ := List.forall_mem_cons.mp continued
    rw [List.cons_append]
    by_cases high : 128 ≤ value (b :: (leading ++ [last]))
    · rw [encode_value_cons hb high]
      exact Nat.succ_le_succ (ih continued)
    · rw [encode_of_lt (Nat.lt_of_not_le high)]
      exact Nat.succ_le_succ (Nat.zero_le _)

theorem eq_encode_value (continued : Continued leading) (final : last.toNat < 128)
    (short : (leading ++ [last]).length ≤ (encode (value (leading ++ [last]))).length) :
    leading ++ [last] = encode (value (leading ++ [last])) := by
  induction leading with
  | nil =>
    rw [List.nil_append, value_singleton final, encode_of_lt final]
    simp
  | cons b leading ih =>
    obtain ⟨hb, continued⟩ := List.forall_mem_cons.mp continued
    rw [List.cons_append] at short ⊢
    by_cases high : 128 ≤ value (b :: (leading ++ [last]))
    · rw [encode_value_cons hb high] at short ⊢
      rw [← ih continued (Nat.le_of_succ_le_succ short)]
    · rw [encode_of_lt (Nat.lt_of_not_le high)] at short
      simp at short

theorem Written.length_encode_le (h : Written range w n) : (encode n).length ≤ w.length := by
  obtain ⟨continued, final, -⟩ := h
  exact length_encode_value_le continued final

theorem Written.eq_encode (h : Written range w n) (short : w.length ≤ (encode n).length) :
    w = encode n := by
  obtain ⟨continued, final, -⟩ := h
  exact eq_encode_value continued final short

/-- What the writer writes is a written form. -/
theorem written_encode (hlast : range.last < 128) (hn : n < range.count) :
    Written range (encode n) n := by
  have hread := read_encode hlast hn []
  rcases (read_follows hlast).covers (encode n ++ []) with ⟨w, k, rest, written, heq⟩ | ⟨e, broken⟩
  · rw [heq, (read_follows hlast).reads written rest] at hread
    cases hread
    rw [List.append_nil, List.append_nil] at heq
    rwa [heq]
  · cases ((read_follows hlast).refuses broken).symm.trans hread

theorem Written.shortest_encode (hlast : range.last < 128) (h : Written range w n) :
    Shortest range (encode n) n :=
  ⟨written_encode hlast h.lt_count, fun _ h' => h'.length_encode_le⟩

theorem Shortest.eq_encode (hlast : range.last < 128) (h : Shortest range w n) : w = encode n :=
  h.written.eq_encode (h.length_le _ (written_encode hlast h.written.lt_count))

end Varint

/-- The grammar of sized fields, in which lengths take a form of the choice. -/
inductive Sized.WrittenBy (form : Varint.Form) : List UInt8 → List UInt8 → Prop where
  | mk {length field : List UInt8} (counted : form .long length field.length) :
      WrittenBy form (length ++ field) field

/-- The grammar of constants, in which every varint takes a form of the choice. -/
inductive Constant.WrittenBy (form : Varint.Form) : List UInt8 → Constant → Prop where
  | integer {tag number : List UInt8} {n : Int64} (kind : form .short tag 0)
      (signed : form .long number (Varint.ofSigned n)) :
      WrittenBy form (tag ++ number) (.integer n)
  | string {tag field : List UInt8} {s : String} (kind : form .short tag 1)
      (text : Sized.WrittenBy form field s.toUTF8.data.toList) :
      WrittenBy form (tag ++ field) (.string s)
  | function {tag field locals parameters : List UInt8} {code : Code}
      {numLocals numParameters : UInt32} (kind : form .short tag 2)
      (body : Sized.WrittenBy form field code.toList)
      (localCount : form .short locals numLocals.toNat)
      (parameterCount : form .short parameters numParameters.toNat) :
      WrittenBy form (tag ++ (field ++ (locals ++ parameters)))
        (.function code numLocals numParameters)

/-- The grammar of images, in which every varint takes a form of the choice. -/
inductive Image.WrittenBy (form : Varint.Form) : List UInt8 → Image → Prop where
  | mk {field count pool : List UInt8} {code : Code} {constants : List Constant}
      (main : Sized.WrittenBy form field code.toList)
      (counted : form .long count constants.length)
      (listed : Sequence (Constant.WrittenBy form) pool constants) :
      WrittenBy form (field ++ (count ++ pool)) ⟨code, constants⟩

section WrittenBy

variable {form form' : Varint.Form} {w field : List UInt8} {c : Constant}
  {constants : List Constant} {image : Image}

/-- One choice allows all forms of numbers that another one allows. -/
def Varint.Form.Within (form form' : Varint.Form) : Prop :=
  ∀ {range w n}, form range w n → form' range w n

theorem Sequence.imp {α : Type} {written written' : List UInt8 → α → Prop} {as : List α}
    (h : Sequence written w as) (himp : ∀ {w a}, written w a → written' w a) :
    Sequence written' w as := by
  induction h with
  | nil => exact .nil
  | cons head tail ih => exact .cons (himp head) ih

theorem Sized.WrittenBy.mono (h : WrittenBy form w field) (within : form.Within form') :
    WrittenBy form' w field := by
  obtain ⟨counted⟩ := h
  exact ⟨within counted⟩

theorem Constant.WrittenBy.mono (h : WrittenBy form w c) (within : form.Within form') :
    WrittenBy form' w c := by
  cases h with
  | integer kind signed => exact .integer (within kind) (within signed)
  | string kind text => exact .string (within kind) (text.mono within)
  | function kind body localCount parameterCount =>
    exact .function (within kind) (body.mono within) (within localCount) (within parameterCount)

theorem Image.WrittenBy.mono (h : WrittenBy form w image) (within : form.Within form') :
    WrittenBy form' w image := by
  cases h with
  | mk main counted listed =>
    exact .mk (main.mono within) (within counted) (listed.imp fun h => h.mono within)

theorem Sized.writtenBy_written_iff : WrittenBy Varint.Written w field ↔ Written w field := by
  constructor
  · rintro ⟨counted⟩
    exact ⟨counted⟩
  · rintro ⟨counted⟩
    exact ⟨counted⟩

theorem Constant.writtenBy_written_iff : WrittenBy Varint.Written w c ↔ Written w c := by
  constructor
  · intro h
    cases h with
    | integer kind signed => exact .integer kind signed
    | string kind text => exact .string kind (Sized.writtenBy_written_iff.mp text)
    | function kind body localCount parameterCount =>
      exact .function kind (Sized.writtenBy_written_iff.mp body) localCount parameterCount
  · intro h
    cases h with
    | integer kind signed => exact .integer kind signed
    | string kind text => exact .string kind (Sized.writtenBy_written_iff.mpr text)
    | function kind body localCount parameterCount =>
      exact .function kind (Sized.writtenBy_written_iff.mpr body) localCount parameterCount

/-- With all forms of varints this is the grammar of images. -/
theorem Image.writtenBy_written_iff : WrittenBy Varint.Written w image ↔ Written w image := by
  constructor
  · rintro ⟨main, counted, listed⟩
    exact .mk (Sized.writtenBy_written_iff.mp main) counted
      (listed.imp Constant.writtenBy_written_iff.mp)
  · rintro ⟨main, counted, listed⟩
    exact .mk (Sized.writtenBy_written_iff.mpr main) counted
      (listed.imp Constant.writtenBy_written_iff.mpr)

theorem Sized.WrittenBy.eq_encode (h : WrittenBy Varint.Shortest w field) :
    w = encodeSized field := by
  obtain ⟨counted⟩ := h
  rw [encodeSized, counted.eq_encode (by decide)]

theorem Sized.Written.encode (h : Written w field) :
    WrittenBy Varint.Shortest (encodeSized field) field ∧
      (encodeSized field).length ≤ w.length := by
  obtain ⟨counted⟩ := h
  refine ⟨⟨counted.shortest_encode (by decide)⟩, ?_⟩
  rw [encodeSized, List.length_append, List.length_append]
  exact Nat.add_le_add_right counted.length_encode_le _

theorem Constant.WrittenBy.eq_encode (h : WrittenBy Varint.Shortest w c) : w = c.encode := by
  have tagged {tag : List UInt8} {k : Nat} (kind : Varint.Shortest .short tag k) (hk : k < 128) :
      tag = [k.toUInt8] := (kind.eq_encode (by decide)).trans (Varint.encode_of_lt hk)
  cases h with
  | integer kind signed =>
    rw [tagged kind (by decide), signed.eq_encode (by decide)]
    rfl
  | string kind text =>
    rw [tagged kind (by decide), text.eq_encode]
    rfl
  | function kind body localCount parameterCount =>
    rw [tagged kind (by decide), body.eq_encode, localCount.eq_encode (by decide),
      parameterCount.eq_encode (by decide), encode]
    simp

theorem Constant.encode_function (code : Code) (numLocals numParameters : UInt32) :
    (function code numLocals numParameters).encode =
      [2] ++ (encodeSized code.toList ++
        (Varint.encode numLocals.toNat ++ Varint.encode numParameters.toNat)) := by
  simp [encode]

theorem Constant.Written.encode (h : Written w c) :
    WrittenBy Varint.Shortest c.encode c ∧ c.encode.length ≤ w.length := by
  have tagged {tag : List UInt8} {k : Nat} (kind : Varint.Written .short tag k) (hk : k < 128) :
      Varint.Shortest .short [k.toUInt8] k ∧ [k.toUInt8].length ≤ tag.length := by
    rw [← Varint.encode_of_lt hk]
    exact ⟨kind.shortest_encode (by decide), kind.length_encode_le⟩
  cases h with
  | integer kind signed =>
    obtain ⟨shortest, length_le⟩ := tagged kind (by decide)
    refine ⟨.integer shortest (signed.shortest_encode (by decide)), ?_⟩
    change ([0] ++ Varint.encode _).length ≤ _
    rw [List.length_append, List.length_append]
    exact Nat.add_le_add length_le signed.length_encode_le
  | string kind text =>
    obtain ⟨shortest, length_le⟩ := tagged kind (by decide)
    obtain ⟨shortestText, text_le⟩ := text.encode
    refine ⟨.string shortest shortestText, ?_⟩
    change ([1] ++ encodeSized _).length ≤ _
    rw [List.length_append, List.length_append]
    exact Nat.add_le_add length_le text_le
  | function kind body localCount parameterCount =>
    obtain ⟨shortest, length_le⟩ := tagged kind (by decide)
    obtain ⟨shortestBody, body_le⟩ := body.encode
    have locals_le := localCount.length_encode_le
    have parameters_le := parameterCount.length_encode_le
    rw [encode_function]
    refine ⟨.function shortest shortestBody (localCount.shortest_encode (by decide))
      (parameterCount.shortest_encode (by decide)), ?_⟩
    simp only [List.length_append] at length_le ⊢
    exact Nat.add_le_add length_le
      (Nat.add_le_add body_le (Nat.add_le_add locals_le parameters_le))

theorem Sequence.eq_flatMap_encode (h : Sequence (Constant.WrittenBy Varint.Shortest) w constants) :
    w = constants.flatMap Constant.encode := by
  induction h with
  | nil => rfl
  | cons head tail ih => rw [List.flatMap_cons, ← head.eq_encode, ← ih]

theorem Sequence.flatMap_encode (h : Sequence Constant.Written w constants) :
    Sequence (Constant.WrittenBy Varint.Shortest) (constants.flatMap Constant.encode) constants ∧
      (constants.flatMap Constant.encode).length ≤ w.length := by
  induction h with
  | nil => exact ⟨.nil, Nat.le_refl _⟩
  | cons head tail ih =>
    obtain ⟨shortest, length_le⟩ := head.encode
    obtain ⟨shortestTail, tail_le⟩ := ih
    rw [List.flatMap_cons, List.length_append, List.length_append]
    exact ⟨.cons shortest shortestTail, Nat.add_le_add length_le tail_le⟩

namespace Image

theorem WrittenBy.eq_payload (h : WrittenBy Varint.Shortest w image) : w = image.payload := by
  obtain ⟨main, counted, listed⟩ := h
  rw [payload, main.eq_encode, counted.eq_encode (by decide), listed.eq_flatMap_encode]

theorem Written.payload (h : Written w image) :
    WrittenBy Varint.Shortest image.payload image ∧ image.payload.length ≤ w.length := by
  obtain ⟨main, counted, listed⟩ := h
  obtain ⟨shortestMain, main_le⟩ := main.encode
  obtain ⟨shortestPool, pool_le⟩ := listed.flatMap_encode
  refine ⟨.mk shortestMain (counted.shortest_encode (by decide)) shortestPool, ?_⟩
  rw [Image.payload, List.length_append, List.length_append, List.length_append,
    List.length_append]
  exact Nat.add_le_add main_le (Nat.add_le_add counted.length_encode_le pool_le)

/-- The bytes are an image with nothing behind it, and all its varints are as short as possible. -/
def Canonical (bytes : List UInt8) : Prop :=
  ∃ written image, WrittenBy Varint.Shortest written image ∧
    bytes = magic ++ formatVersion :: written

end Image

end WrittenBy

namespace Image

variable {image : Image} {bytes : List UInt8}

theorem Begins.encode (h : Begins image bytes) :
    Begins image image.encode ∧ image.encode.length ≤ bytes.length ∧
      (image.encode = bytes ↔ Canonical bytes) := by
  obtain ⟨written, rest, hwritten, rfl⟩ := h
  obtain ⟨shortest, length_le⟩ := hwritten.payload
  have again : Begins image image.encode := by
    have hpayload := writtenBy_written_iff.mp (shortest.mono Varint.Shortest.written)
    exact ⟨image.payload, [], hpayload, by rw [encode_eq_payload, List.append_nil]⟩
  refine ⟨again, ?_, ?_, ?_⟩
  · rw [encode_eq_payload]
    simp
    omega
  · intro heq
    exact ⟨image.payload, image, shortest, heq.symm.trans (encode_eq_payload image)⟩
  · rintro ⟨other, image', hother, heq⟩
    -- The bytes are read as one image only.
    have begins' : Begins image' (magic ++ formatVersion :: (written ++ rest)) :=
      ⟨other, [], writtenBy_written_iff.mp (hother.mono Varint.Shortest.written),
        by rw [heq, List.append_nil]⟩
    have begins : Begins image (magic ++ formatVersion :: (written ++ rest)) :=
      ⟨written, rest, hwritten, rfl⟩
    obtain rfl : image = image' :=
      Except.ok.inj ((decode_of_begins begins).symm.trans (decode_of_begins begins'))
    rw [encode_eq_payload, heq, hother.eq_payload]

end Image

theorem Constant.sameContent_toValue (c : Constant) (m n : Nat) :
    (c.toValue m).SameContent (c.toValue n) := by
  cases c with
  | integer k => exact .integer k
  | string s => exact .string s
  | function code numLocals numParameters => exact .function rfl rfl rfl

namespace Program

variable {start : Nat} {bytes : List UInt8} {p : Program}

theorem sameContents_toProgram (image : Image) (m n : Nat) :
    (image.toProgram m).SameContents (image.toProgram n) where
  code := rfl
  size := by simp [Image.toProgram, Image.toPool, Pool.size]
  constants k v w hv hw := by
    simp only [Image.toProgram, Image.toPool, Pool.get?, List.getElem?_toArray,
      List.getElem?_mapIdx, Option.map_eq_some_iff] at hv hw
    obtain ⟨c, hc, rfl⟩ := hv
    obtain ⟨d, hd, rfl⟩ := hw
    obtain rfl := Option.some.inj (hc.symm.trans hd)
    exact c.sameContent_toValue _ _

theorem encode_toProgram (image : Image) (start : Nat) :
    (image.toProgram start).encode = .ok image.encode := by
  rw [encode, Image.ofProgram_toProgram]
  rfl

/-- Bytes that a program is written as, beside other bytes that it was read from. -/
structure Canonizes (p : Program) (written bytes : List UInt8) : Prop where
  encode_eq_ok : p.encode = .ok written
  length_le : written.length ≤ bytes.length
  /-- The same contents are read back, and they are written as the same bytes. -/
  decode_eq_ok : ∀ start, ∃ q, decode start written = .ok q ∧ p.SameContents q ∧
    q.encode = .ok written
  eq_iff : written = bytes ↔ Image.Canonical bytes

theorem exists_canonizes (start : Nat) (bytes : List UInt8) (p : Program)
    (h : decode start bytes = .ok p) : ∃ written, p.Canonizes written bytes := by
  obtain ⟨image, begins, rfl⟩ := decode_eq_ok_iff.mp h
  obtain ⟨again, length_le, eq_iff⟩ := begins.encode
  refine ⟨image.encode, encode_toProgram image start, length_le, fun start' => ?_, eq_iff⟩
  have hdecode : decode start' image.encode = .ok (image.toProgram start') :=
    decode_eq_ok_iff.mpr ⟨image, again, rfl⟩
  exact ⟨_, hdecode, sameContents_toProgram image start start', encode_toProgram image start'⟩

/-- An image with a length and an integer that are longer than needed, and with a byte behind it. -/
def paddedImage : List UInt8 := [77, 78, 75, 89, 1, 129, 0, 2, 1, 0, 133, 128, 0, 255]

theorem decode_paddedImage :
    decode 0 paddedImage = .ok (Image.toProgram 0 ⟨#[2], [.integer (-3)]⟩) := by
  have himage : Image.decode paddedImage = .ok ⟨#[2], [.integer (-3)]⟩ := by decide +kernel
  rw [decode, himage]
  rfl

theorem exists_canonizes_paddedImage :
    ∃ p, decode 0 paddedImage = .ok p ∧
      p.Canonizes [77, 78, 75, 89, 1, 1, 2, 1, 0, 5] paddedImage := by
  have hencode : Image.encode ⟨#[2], [.integer (-3)]⟩ = [77, 78, 75, 89, 1, 1, 2, 1, 0, 5] := by
    decide +kernel
  obtain ⟨written, canonizes⟩ := exists_canonizes 0 paddedImage _ decode_paddedImage
  obtain rfl : written = _ :=
    Except.ok.inj (canonizes.encode_eq_ok.symm.trans ((encode_toProgram _ 0).trans
      (congrArg Except.ok hencode)))
  exact ⟨_, decode_paddedImage, canonizes⟩

end Program
end BytecodeMachine

import BytecodeMachine.Image.Program

/-!
# Round trip of images

Each reader reads back what its writer wrote, whatever follows, as long as lengths and counts are
numbers of 64 bits. So an image is read back from its bytes.
-/

namespace BytecodeMachine

namespace Reader

variable {α β : Type}

/-- The reader takes exactly the bytes off the input, whatever follows them, and reads the value. -/
def Reads (r : Reader α) (written : List UInt8) (a : α) : Prop :=
  ∀ rest, r (written ++ rest) = .ok (a, rest)

theorem Reads.pure (a : α) : Reads (pure a) [] a := fun _ => rfl

theorem Reads.bind {r : Reader α} {f : α → Reader β} {written written' : List UInt8} {a : α}
    {b : β} (h : Reads r written a) (h' : Reads (f a) written' b) :
    Reads (r >>= f) (written ++ written') b := by
  intro rest
  have hrest := h (written' ++ rest)
  rw [List.append_assoc]
  simp only [Bind.bind, StateT.bind, Except.bind, hrest]
  exact h' rest

/-- A value that is read and then only converted. -/
theorem Reads.convert {r : Reader α} {f : α → β} {written : List UInt8} {a : α}
    (h : Reads r written a) : Reads (do return f (← r)) written (f a) := by
  have hbind := h.bind (Reads.pure (f a)) (f := fun a => Pure.pure (f a))
  rwa [List.append_nil] at hbind

theorem reads_bytes (written : List UInt8) : Reads (bytes written.length) written written := by
  intro rest
  simp [bytes]

theorem reads_varint {range : Varint.Range} {n : Nat} (hlast : range.last < 128)
    (hn : n < range.count) : Reads (Varint.read range) (Varint.encode n) n :=
  Varint.read_encode hlast hn

theorem reads_long {n : Nat} (hn : n < UInt64.size) :
    Reads (Varint.read .long) (Varint.encode n) n := reads_varint (by decide) hn

theorem reads_short {n : Nat} (hn : n < UInt32.size) :
    Reads (Varint.read .short) (Varint.encode n) n := reads_varint (by decide) hn

/-- A number below 128 is its own varint, with which constants are told apart. -/
theorem reads_tag {n : Nat} (hn : n < 128) : Reads (Varint.read .short) [n.toUInt8] n := by
  have hreads := reads_short (n := n) (Nat.lt_trans hn (by decide))
  rwa [Varint.encode, if_pos hn] at hreads

theorem reads_sized {written : List UInt8} (h : written.length < UInt64.size) :
    Reads sized (encodeSized written) written :=
  (reads_long h).bind (reads_bytes written)

theorem reads_code {c : Code} (h : c.size < UInt64.size) :
    Reads code (encodeSized c.toList) c := by
  have hsized : Reads sized (encodeSized c.toList) c.toList := reads_sized (by simpa using h)
  have hcode := hsized.convert (f := List.toArray)
  rwa [Array.toArray_toList] at hcode

theorem fromUTF8?_toUTF8 (s : String) :
    String.fromUTF8? s.toUTF8.data.toList.toByteArray = some s := by
  have hbytes : s.toUTF8.data.toList.toByteArray = s.toUTF8 := by
    apply ByteArray.ext
    rw [List.data_toByteArray, Array.toArray_toList]
  have hvalid : s.toUTF8.IsValidUTF8 := s.isValidUTF8
  rw [hbytes, String.fromUTF8?, dif_pos hvalid]
  rfl

theorem reads_text {s : String} (h : s.utf8ByteSize < UInt64.size) :
    Reads text (encodeSized s.toUTF8.data.toList) s := by
  intro rest
  have hwritten : s.toUTF8.data.toList.length < UInt64.size := h
  have hsized := reads_sized hwritten rest
  simp only [text, Bind.bind, StateT.bind, Except.bind, hsized, fromUTF8?_toUTF8]
  rfl

theorem reads_times {item : Reader α} {encode : α → List UInt8} {as : List α}
    (h : ∀ a ∈ as, Reads item (encode a) a) :
    Reads (times item as.length) (as.flatMap encode) as := by
  induction as with
  | nil => exact Reads.pure []
  | cons a as ih =>
    have hrest := ih fun b hb => h b (List.mem_cons_of_mem a hb)
    rw [List.length_cons, times_succ, List.flatMap_cons]
    exact (h a List.mem_cons_self).bind hrest.convert

end Reader

open Reader

/-- The lengths in the constant are numbers of 64 bits. -/
def Constant.Fits : Constant → Prop
  | integer _ => True
  | string s => s.utf8ByteSize < UInt64.size
  | function code _ _ => code.size < UInt64.size

theorem Varint.ofSigned_lt (n : Int64) : ofSigned n < UInt64.size := by
  have hmin := n.le_toInt
  have hmax := n.toInt_lt
  rw [ofSigned]
  split <;> simp [UInt64.size] <;> omega

theorem Constant.reads_encode {c : Constant} (h : c.Fits) : Reads constant c.encode c := by
  cases c with
  | integer n =>
    have hn : Reads (Varint.read .long) (Varint.encode (Varint.ofSigned n)) (Varint.ofSigned n) :=
      reads_long (Varint.ofSigned_lt n)
    have hbody := hn.convert (f := fun k => Constant.integer (Varint.toSigned k))
    rw [Varint.toSigned_ofSigned] at hbody
    exact (reads_tag (n := 0) (by decide)).bind hbody
  | string s => exact (reads_tag (n := 1) (by decide)).bind (reads_text h).convert
  | function code numLocals numParameters =>
    have htoNat : ∀ k : UInt32, k.toNat.toUInt32 = k := fun _ => UInt32.ofNat_toNat
    have hparameters : Reads
        (do return Constant.function code numLocals (← Varint.read .short).toUInt32)
        (Varint.encode numParameters.toNat) (.function code numLocals numParameters) := by
      have hread := (reads_short numParameters.toNat_lt).convert
        (f := fun k => Constant.function code numLocals k.toUInt32)
      rwa [htoNat] at hread
    have hlocals : Reads
        (do
          let k ← Varint.read .short
          return Constant.function code k.toUInt32 (← Varint.read .short).toUInt32)
        (Varint.encode numLocals.toNat ++ Varint.encode numParameters.toNat)
        (.function code numLocals numParameters) := by
      apply (reads_short numLocals.toNat_lt).bind
      rwa [htoNat]
    have hbody : Reads
        (do
          let code ← Reader.code
          let k ← Varint.read .short
          return Constant.function code k.toUInt32 (← Varint.read .short).toUInt32)
        _ (.function code numLocals numParameters) := (reads_code h).bind hlocals
    rw [Constant.encode, List.cons_append, List.cons_append, List.append_assoc]
    exact (reads_tag (n := 2) (by decide)).bind hbody

/-- All lengths and counts in the image are numbers of 64 bits. -/
structure Image.Fits (image : Image) : Prop where
  code : image.code.size < UInt64.size
  count : image.constants.length < UInt64.size
  constants : ∀ c ∈ image.constants, c.Fits

namespace Image

variable {image : Image}

/-- What the writer puts behind the header. -/
def payload (image : Image) : List UInt8 :=
  encodeSized image.code.toList ++
    (Varint.encode image.constants.length ++ image.constants.flatMap Constant.encode)

theorem encode_eq_payload (image : Image) :
    image.encode = magic ++ formatVersion :: image.payload := by
  simp [encode, payload]

theorem reads_payload (h : image.Fits) : Reads Reader.image image.payload image := by
  have hconstants : Reads (times constant image.constants.length)
      (image.constants.flatMap Constant.encode) image.constants :=
    reads_times fun c hc => Constant.reads_encode (h.constants c hc)
  have hcount : Reads (do
        let count ← Varint.read .long
        return Image.mk image.code (← times constant count))
      (Varint.encode image.constants.length ++ image.constants.flatMap Constant.encode) image :=
    (reads_long h.count).bind hconstants.convert
  exact (reads_code h.code).bind hcount

theorem decode_encode (h : image.Fits) (rest : List UInt8) :
    Image.decode (image.encode ++ rest) = .ok image := by
  have hread := reads_payload h rest
  simp only [decode, encode_eq_payload, magic, List.cons_append, List.nil_append,
    List.take_succ_cons, List.take_zero, List.drop_succ_cons, List.drop_zero, if_pos, hread]

end Image
end BytecodeMachine

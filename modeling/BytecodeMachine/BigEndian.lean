/-!
# Big-endian numbers

A number of a fixed width is written as that many bytes, the most significant byte first. Writing
and reading are inverse on the numbers that fit their width.
-/

namespace BytecodeMachine.BigEndian

/-- How many numbers there are of a width in bytes. -/
def count : (width : Nat) → Nat
  | 0 => 1
  | width + 1 => 256 * count width

/-- The lowest `width` bytes of a number, most significant first. -/
def encode : (width value : Nat) → List UInt8
  | 0, _ => []
  | width + 1, value => (value / count width).toUInt8 :: encode width value

/-- The number that a list of bytes denotes. -/
def decode : List UInt8 → Nat
  | [] => 0
  | byte :: bytes => byte.toNat * count bytes.length + decode bytes

/-- The number in the first `width` bytes, if there are that many. -/
def read? (width : Nat) (bytes : List UInt8) : Option Nat :=
  if bytes.length < width then none else some (decode (bytes.take width))

theorem count_pos (width : Nat) : 0 < count width := by
  induction width with
  | zero => exact Nat.one_pos
  | succ width ih => exact Nat.mul_pos (by decide) ih

@[simp] theorem length_encode (width value : Nat) : (encode width value).length = width := by
  induction width with
  | zero => rfl
  | succ width ih => simp [encode, ih]

theorem decode_lt (bytes : List UInt8) : decode bytes < count bytes.length := by
  induction bytes with
  | nil => exact Nat.one_pos
  | cons byte bytes ih =>
    have hbyte : byte.toNat < 256 := byte.toNat_lt
    have hle : (byte.toNat + 1) * count bytes.length ≤ 256 * count bytes.length :=
      Nat.mul_le_mul_right _ hbyte
    rw [Nat.succ_mul] at hle
    simp only [decode, List.length_cons, count]
    omega

theorem decode_encode (width value : Nat) : decode (encode width value) = value % count width := by
  induction width with
  | zero => simp [encode, decode, count, Nat.mod_one]
  | succ width ih =>
    have hbyte : (value / count width).toUInt8.toNat = value / count width % 256 := by simp
    simp only [encode, decode, length_encode, ih, hbyte, count]
    rw [Nat.mul_comm 256, Nat.mod_mul, Nat.mul_comm, Nat.add_comm]

/-- Higher digits of a number do not change its lowest bytes. -/
theorem encode_append (bytes : List UInt8) (high : Nat) :
    encode bytes.length (high * count bytes.length + decode bytes) = bytes := by
  induction bytes generalizing high with
  | nil => rfl
  | cons byte bytes ih =>
    have hsplit : high * count (bytes.length + 1) + (byte.toNat * count bytes.length + decode bytes)
        = (high * 256 + byte.toNat) * count bytes.length + decode bytes := by
      rw [count, Nat.add_mul, Nat.mul_assoc, Nat.add_assoc]
    have hdiv : ((high * 256 + byte.toNat) * count bytes.length + decode bytes)
        / count bytes.length = high * 256 + byte.toNat := by
      rw [Nat.add_comm, Nat.add_mul_div_right _ _ (count_pos _), Nat.div_eq_of_lt (decode_lt bytes),
        Nat.zero_add]
    have hbyte : (high * 256 + byte.toNat).toUInt8 = byte := by
      apply UInt8.toNat_inj.mp
      simp [Nat.toUInt8_eq]
    simp only [List.length_cons, decode, encode]
    rw [hsplit, hdiv, hbyte, ih]

theorem encode_decode (bytes : List UInt8) : encode bytes.length (decode bytes) = bytes := by
  simpa using encode_append bytes 0

end BytecodeMachine.BigEndian

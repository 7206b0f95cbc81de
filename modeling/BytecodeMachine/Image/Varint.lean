import BytecodeMachine.Image.Reader

/-!
# Varints

A varint holds a number in groups of seven bits, the lowest first, and every byte but the last has
its high bit set. Writing takes as few bytes as possible; reading also accepts more, up to a limit
that depends on the range of the number. Signed numbers alternate between the two signs.
-/

namespace BytecodeMachine.Varint

def encode (n : Nat) : List UInt8 :=
  if n < 128 then [n.toUInt8] else (n % 128 + 128).toUInt8 :: encode (n / 128)
termination_by n
decreasing_by omega

/-- How many bytes may stand before the last possible one, and how large that one may be. -/
structure Range where
  leading : Nat
  last : Nat

/-- Varints of at most ten bytes, for numbers of 64 bits. -/
def Range.long : Range := ⟨9, 1⟩

/-- Varints of at most five bytes, for numbers of 32 bits. -/
def Range.short : Range := ⟨4, 15⟩

/-- How many numbers have a varint with that many leading bytes at most. -/
def count (last : Nat) : (leading : Nat) → Nat
  | 0 => last + 1
  | leading + 1 => 128 * count last leading

def Range.count (range : Range) : Nat := Varint.count range.last range.leading

theorem Range.count_long : long.count = UInt64.size := rfl

theorem Range.count_short : short.count = UInt32.size := rfl

def readFrom (last : Nat) : (leading : Nat) → Reader Nat
  | 0 => do
    let b ← Reader.byte
    if b.toNat ≤ last then return b.toNat else throw .badVarint
  | leading + 1 => do
    let b ← Reader.byte
    if b.toNat < 128 then return b.toNat
    else return b.toNat - 128 + 128 * (← readFrom last leading)

def read (range : Range) : Reader Nat := readFrom range.last range.leading

/-- Numbers the integers `0, -1, 1, -2, …` in this order. -/
def ofSigned (n : Int64) : Nat :=
  if n < 0 then (-2 * n.toInt - 1).toNat else (2 * n.toInt).toNat

def toSigned (k : Nat) : Int64 :=
  if k % 2 = 0 then Int64.ofInt (k / 2) else Int64.ofInt (-(k / 2) - 1)

/-- Reading gives back a number that is in range and leaves what follows it. -/
theorem readFrom_encode {last leading n : Nat} (hlast : last < 128) (hn : n < count last leading)
    (rest : List UInt8) : readFrom last leading (encode n ++ rest) = .ok (n, rest) := by
  induction leading generalizing n with
  | zero =>
    have hs : n < 128 := Nat.lt_of_lt_of_le hn hlast
    have hb : n.toUInt8.toNat = n := by
      simp
      omega
    rw [encode, if_pos hs, readFrom]
    simp only [Reader.byte, List.cons_append, List.nil_append, bind, StateT.bind, Except.bind, hb]
    rw [if_pos (Nat.le_of_lt_succ hn)]
    rfl
  | succ leading ih =>
    by_cases hs : n < 128
    · have hb : n.toUInt8.toNat = n := by
        simp
        omega
      rw [encode, if_pos hs, readFrom]
      simp only [Reader.byte, List.cons_append, List.nil_append, bind, StateT.bind, Except.bind,
        hb]
      rw [if_pos hs]
      rfl
    · have hb : (n % 128 + 128).toUInt8.toNat = n % 128 + 128 := by
        simp
        omega
      have hq : n / 128 < count last leading := by
        rw [Nat.div_lt_iff_lt_mul (by decide), Nat.mul_comm]
        exact hn
      rw [encode, if_neg hs, readFrom]
      simp only [Reader.byte, List.cons_append, bind, StateT.bind, Except.bind, hb]
      rw [if_neg (by omega)]
      simp only [bind, StateT.bind, Except.bind, ih hq]
      have hsum : n % 128 + 128 - 128 + 128 * (n / 128) = n := by omega
      exact congrArg (fun k => Except.ok (k, rest)) hsum

theorem read_encode {range : Range} {n : Nat} (hlast : range.last < 128) (hn : n < range.count)
    (rest : List UInt8) : read range (encode n ++ rest) = .ok (n, rest) :=
  readFrom_encode hlast hn rest

theorem toSigned_ofSigned (n : Int64) : toSigned (ofSigned n) = n := by
  have hsign : n < 0 ↔ n.toInt < 0 := Int64.lt_iff_toInt_lt
  have key : (if ofSigned n % 2 = 0 then ((ofSigned n / 2 : Nat) : Int)
      else -((ofSigned n / 2 : Nat) : Int) - 1) = n.toInt := by
    unfold ofSigned
    by_cases hn : n.toInt < 0
    · rw [if_pos (hsign.mpr hn)]
      split <;> omega
    · rw [if_neg (mt hsign.mp hn)]
      split <;> omega
  unfold toSigned
  rw [← Int64.ofInt_toInt n]
  conv => rhs; rw [← key]
  simp only [Int64.ofInt_toInt]
  split <;> simp

end BytecodeMachine.Varint

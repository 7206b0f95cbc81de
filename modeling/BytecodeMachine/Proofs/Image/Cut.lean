import BytecodeMachine.Proofs.Image.Behaviour
import BytecodeMachine.Proofs.Image.Canonical

/-!
# Cut images

No reader looks ahead: what it reads, and every reason to refuse but the end of the input, is settled
by the bytes it has gone over. So an image that is cut anywhere is noticed, wherever the cut falls,
and what follows the last byte that decoding needs makes no difference. No program is written as a
proper beginning of what another one is written as.
-/

namespace BytecodeMachine

namespace Reader

variable {α β : Type} {r : Reader α} {f : α → Reader β} {input rest w : List UInt8} {a : α}
  {b : β} {e : FieldError}

/-- What has been read is read again from the same bytes, whatever follows them, and an input that
is refused before its end is refused with anything behind it. -/
structure Streams (r : Reader α) : Prop where
  reads : ∀ {input rest a}, r input = .ok (a, rest) → ∃ w, input = w ++ rest ∧ Reads r w a
  refuses : ∀ {input e}, r input = .error e → e ≠ .unexpectedEnd →
    ∀ more, r (input ++ more) = .error e

/-- A written form without its end is refused because it ends. -/
theorem Streams.cut (streams : Streams r) (reads : Reads r w a) {n : Nat} (hn : n < w.length) :
    r (w.take n) = .error .unexpectedEnd := by
  have behind (more : List UInt8) : r (w.take n ++ (w.drop n ++ more)) = .ok (a, more) := by
    rw [← List.append_assoc, List.take_append_drop]
    exact reads more
  cases hr : r (w.take n) with
  | ok read =>
    obtain ⟨b, rest⟩ := read
    obtain ⟨w', hw, reads'⟩ := streams.reads hr
    -- Both readings of the whole form leave what follows them, but the first one leaves more.
    have hall := behind []
    rw [hw, List.append_assoc, reads', List.append_nil] at hall
    have hlen := congrArg List.length (Prod.mk.inj (Except.ok.inj hall)).2
    simp only [List.length_append, List.length_drop, List.length_nil] at hlen
    omega
  | error e =>
    by_cases he : e = .unexpectedEnd
    · rw [he]
    · cases (behind []).symm.trans (streams.refuses hr he _)

theorem bind_eq_ok_iff : (r >>= f) input = .ok (b, rest) ↔
    ∃ a mid, r input = .ok (a, mid) ∧ f a mid = .ok (b, rest) := by
  simp only [Bind.bind, StateT.bind, Except.bind]
  cases r input with
  | ok read => simp [Prod.ext_iff]
  | error e => simp

theorem bind_eq_error_iff : (r >>= f) input = .error e ↔
    r input = .error e ∨ ∃ a mid, r input = .ok (a, mid) ∧ f a mid = .error e := by
  simp only [Bind.bind, StateT.bind, Except.bind]
  cases r input with
  | ok read => simp [Prod.ext_iff]
  | error e => simp

theorem Streams.pure (a : α) : Streams (pure a) where
  reads h := by
    cases h
    exact ⟨[], rfl, Reads.pure a⟩
  refuses h := by cases h

theorem Streams.throw (e : FieldError) : Streams (throw e : Reader α) where
  reads h := by cases h
  refuses h _ _ := by
    cases h
    rfl

theorem Streams.bind (hr : Streams r) (hf : ∀ a, Streams (f a)) : Streams (r >>= f) where
  reads h := by
    obtain ⟨a, mid, hfirst, hsecond⟩ := bind_eq_ok_iff.mp h
    obtain ⟨w, rfl, reads⟩ := hr.reads hfirst
    obtain ⟨w', rfl, reads'⟩ := (hf a).reads hsecond
    exact ⟨w ++ w', (List.append_assoc ..).symm, reads.bind reads'⟩
  refuses h he more := by
    rcases bind_eq_error_iff.mp h with hfirst | ⟨a, mid, hfirst, hsecond⟩
    · exact bind_eq_error (hr.refuses hfirst he more)
    · obtain ⟨w, rfl, reads⟩ := hr.reads hfirst
      rw [List.append_assoc]
      exact reads.bind_eq_error ((hf a).refuses hsecond he more)

theorem Streams.ite {c : Prop} [Decidable c] {s : Reader α} (hr : Streams r) (hs : Streams s) :
    Streams (if c then r else s) := by
  split
  · exact hr
  · exact hs

theorem streams_byte : Streams byte where
  reads {input _ _} h := by
    cases input with
    | nil => cases h
    | cons first input =>
      cases h
      exact ⟨[_], rfl, fun _ => rfl⟩
  refuses {input _} h he := by
    cases input with
    | nil =>
      cases h
      exact absurd rfl he
    | cons b input => cases h

theorem streams_bytes (n : Nat) : Streams (bytes n) where
  reads {input _ _} h := by
    rcases Nat.lt_or_ge input.length n with short | enough
    · cases (bytes_eq_error short).symm.trans h
    · have hlen : (input.take n).length = n := List.length_take_of_le enough
      simp only [bytes, if_pos hlen] at h
      cases h
      exact ⟨input.take n, (List.take_append_drop n input).symm, by
        simpa only [hlen] using reads_bytes (input.take n)⟩
  refuses {input e} h he := by
    simp only [bytes] at h
    split at h
    · cases h
    · cases h
      exact absurd rfl he

theorem streams_readFrom (last leading : Nat) : Streams (Varint.readFrom last leading) := by
  induction leading with
  | zero => exact streams_byte.bind fun b => (Streams.pure _).ite (.throw _)
  | succ leading ih =>
    exact streams_byte.bind fun b => (Streams.pure _).ite (ih.bind fun k => .pure _)

theorem streams_varint (range : Varint.Range) : Streams (Varint.read range) :=
  streams_readFrom _ _

theorem streams_sized : Streams sized := (streams_varint _).bind streams_bytes

theorem streams_code : Streams code := streams_sized.bind fun _ => .pure _

theorem streams_text : Streams text := by
  refine streams_sized.bind fun field => ?_
  cases String.fromUTF8? field.toByteArray with
  | some s => exact .pure s
  | none => exact .throw _

theorem Streams.times (h : Streams r) (n : Nat) : Streams (times r n) := by
  induction n with
  | zero => exact .pure []
  | succ n ih =>
    rw [times_succ]
    exact h.bind fun a => ih.bind fun as => .pure _

theorem streams_constant : Streams constant := by
  refine (streams_varint _).bind fun kind => ?_
  match kind with
  | 0 => exact (streams_varint _).bind fun k => .pure _
  | 1 => exact streams_text.bind fun s => .pure _
  | 2 =>
    exact streams_code.bind fun code => (streams_varint _).bind fun numLocals =>
      (streams_varint _).bind fun numParameters => .pure _
  | _ + 3 => exact .throw _

theorem streams_image : Streams image :=
  streams_code.bind fun _ => (streams_varint _).bind fun n =>
    (streams_constant.times n).bind fun _ => .pure _

end Reader

open Reader

namespace Image

variable {image : Image} {bytes written rest : List UInt8} {n : Nat}

/-- How many bytes decoding takes off an image, the header included. -/
def consumed (bytes : List UInt8) : Option Nat :=
  match Reader.image (bytes.drop 5) with
  | .ok (_, rest) => some (bytes.length - rest.length)
  | .error _ => none

theorem consumed_of_reads (reads : Reads Reader.image written image) (rest : List UInt8) :
    consumed (magic ++ formatVersion :: (written ++ rest)) = some (5 + written.length) := by
  have hdrop : (magic ++ formatVersion :: (written ++ rest)).drop 5 = written ++ rest := rfl
  have hlength : (magic ++ formatVersion :: (written ++ rest)).length - rest.length =
      5 + written.length := by
    simp [magic]
    omega
  simp only [consumed, hdrop, reads rest, hlength]

theorem take_header_append (version : UInt8) (payload : List UInt8) (hn : 5 ≤ n) :
    (magic ++ version :: payload).take n = magic ++ version :: payload.take (n - 5) := by
  obtain ⟨k, rfl⟩ := Nat.exists_eq_add_of_le hn
  have hk : 5 + k = k + 1 + 1 + 1 + 1 + 1 := by omega
  rw [Nat.add_sub_cancel_left, hk]
  simp [magic]

theorem decode_take_of_lt_five (hn : n < 5) : decode (bytes.take n) = .error .badHeader :=
  decode_of_bad_header (.inl (Nat.lt_of_le_of_lt (bytes.length_take_le n) hn))

theorem decode_take_of_lt (reads : Reads Reader.image written image) (header : 5 ≤ n)
    (hn : n < 5 + written.length) :
    decode ((magic ++ formatVersion :: (written ++ rest)).take n) =
      .error (.field .unexpectedEnd) := by
  have hcut : n - 5 < written.length := by omega
  rw [take_header_append _ _ header, List.take_append_of_le_length (Nat.le_of_lt hcut),
    decode_magic, if_pos rfl, streams_image.cut reads hcut]

theorem decode_take_of_le (reads : Reads Reader.image written image)
    (hn : 5 + written.length ≤ n) :
    decode ((magic ++ formatVersion :: (written ++ rest)).take n) = .ok image := by
  have htake : (written ++ rest).take (n - 5) = written ++ rest.take (n - 5 - written.length) := by
    rw [List.take_append, List.take_of_length_le (by omega)]
  rw [take_header_append _ _ (by omega), htake, decode_magic, if_pos rfl, reads]

theorem consumed_encode (fits : image.Fits) : consumed image.encode = some image.encode.length := by
  have hconsumed := consumed_of_reads (reads_payload fits) []
  rw [List.append_nil, ← encode_eq_payload] at hconsumed
  rw [hconsumed, encode_eq_payload]
  simp [magic]
  omega

end Image

namespace Program

variable {start count : Nat} {p q : Program} {bytes bytes' : List UInt8}

/-- The program is decoded from the first bytes, as many as the count says: nothing that is cut off
before is missed, and nothing behind them is needed. -/
structure NeedsFirst (p : Program) (start : Nat) (bytes : List UInt8) (count : Nat) : Prop where
  header_le : 5 ≤ count
  le_length : count ≤ bytes.length
  badHeader : ∀ n < 5, decode start (bytes.take n) = .error .badHeader
  unexpectedEnd : ∀ n, 5 ≤ n → n < count →
    decode start (bytes.take n) = .error (.field .unexpectedEnd)
  decode_eq_ok : ∀ n, count ≤ n → decode start (bytes.take n) = .ok p

theorem needsFirst_of_decode (h : decode start bytes = .ok p) :
    ∃ count, Image.consumed bytes = some count ∧ p.NeedsFirst start bytes count := by
  obtain ⟨image, ⟨written, rest, hwritten, rfl⟩, rfl⟩ := decode_eq_ok_iff.mp h
  have reads := image_follows.reads hwritten
  refine ⟨5 + written.length, Image.consumed_of_reads reads rest, ?_⟩
  exact {
    header_le := Nat.le_add_right 5 _
    le_length := by
      simp [Image.magic]
      omega
    badHeader := fun n hn => by
      rw [decode, Image.decode_take_of_lt_five hn]
      rfl
    unexpectedEnd := fun n header hn => by
      rw [decode, Image.decode_take_of_lt reads header hn]
      rfl
    decode_eq_ok := fun n hn => by
      rw [decode, Image.decode_take_of_le reads hn]
      rfl }

theorem consumed_of_encode (addressable : p.Addressable) (h : p.encode = .ok bytes) :
    Image.consumed bytes = some bytes.length := by
  obtain ⟨image, hofProgram, hcode, hconstants⟩ := exists_image (storable_of_encode h)
  have hencode : p.encode = .ok image.encode := by
    rw [encode, hofProgram]
    rfl
  obtain rfl := Except.ok.inj (h.symm.trans hencode)
  exact Image.consumed_encode (addressable.fits hcode hconstants)

theorem exists_decoded_of_encode (addressable : p.Addressable) (h : p.encode = .ok bytes)
    (start : Nat) : ∃ q, decode start bytes = .ok q ∧ p.SameContents q := by
  obtain ⟨q, hdecode, same, -⟩ := exists_decoded_append addressable h start []
  rw [List.append_nil] at hdecode
  exact ⟨q, hdecode, same⟩

theorem eq_of_encode_prefix (addressable : p.Addressable) (h : p.encode = .ok bytes)
    (addressable' : q.Addressable) (h' : q.encode = .ok bytes') (begins : bytes <+: bytes') :
    bytes = bytes' := by
  obtain ⟨p', hp', -⟩ := exists_decoded_of_encode addressable h 0
  obtain ⟨q', hq', -⟩ := exists_decoded_of_encode addressable' h' 0
  obtain ⟨count, hconsumed, needs⟩ := needsFirst_of_decode hq'
  obtain rfl := Option.some.inj (hconsumed.symm.trans (consumed_of_encode addressable' h'))
  have htake := List.prefix_iff_eq_take.mp begins
  refine begins.eq_of_length_le (Nat.le_of_not_lt fun short => ?_)
  -- The shorter image would be a cut of the longer one, but it is decoded.
  have header : 5 ≤ bytes.length := by
    obtain ⟨_, -, needs'⟩ := needsFirst_of_decode hp'
    exact Nat.le_trans needs'.header_le needs'.le_length
  have hcut := needs.unexpectedEnd bytes.length header short
  rw [← htake, hp'] at hcut
  cases hcut

/-- Decoding notices every cut into the bytes that it goes over, and nothing behind them. An encoded
program is gone over completely, and it is no proper beginning of another one. -/
theorem cuts_noticed (start : Nat) :
    (∀ (bytes : List UInt8) (p : Program), decode start bytes = .ok p →
      ∃ count, Image.consumed bytes = some count ∧ p.NeedsFirst start bytes count) ∧
    (∀ (p : Program) (bytes : List UInt8), p.Addressable → p.encode = .ok bytes →
      (∃ q, decode start bytes = .ok q ∧ p.SameContents q) ∧
        Image.consumed bytes = some bytes.length) ∧
    ∀ (p q : Program) (bytes bytes' : List UInt8), p.Addressable → p.encode = .ok bytes →
      q.Addressable → q.encode = .ok bytes' → bytes <+: bytes' → bytes = bytes' :=
  ⟨fun _ _ => needsFirst_of_decode,
    fun _ _ addressable h =>
      ⟨exists_decoded_of_encode addressable h start, consumed_of_encode addressable h⟩,
    fun _ _ _ _ addressable h addressable' h' begins =>
      eq_of_encode_prefix addressable h addressable' h' begins⟩

theorem cuts_noticed_paddedImage :
    (∃ p, decode 0 paddedImage = .ok p ∧ p.NeedsFirst 0 paddedImage 13) ∧
      Machine.callOnce.Addressable ∧ ∃ bytes, Machine.callOnce.encode = .ok bytes ∧
        Image.consumed bytes = some bytes.length ∧
        ∀ other, Machine.callOnce.encode = .ok other → other <+: bytes → other = bytes := by
  obtain ⟨needs, consumes, unique⟩ := cuts_noticed 0
  obtain ⟨bytes, q, hencode, -⟩ := exists_decoded storable_callOnce addressable_callOnce 0
  obtain ⟨count, hconsumed, hneeds⟩ := needs _ _ decode_paddedImage
  obtain rfl : count = 13 :=
    Option.some.inj (hconsumed.symm.trans (by decide +kernel : _ = some 13))
  exact ⟨⟨_, decode_paddedImage, hneeds⟩, addressable_callOnce, bytes, hencode,
    (consumes _ _ addressable_callOnce hencode).2,
    fun other hother begins =>
      unique _ _ other bytes addressable_callOnce hother addressable_callOnce hencode begins⟩

end Program
end BytecodeMachine

import BytecodeMachine.Proofs.Image.Grammar
import BytecodeMachine.Proofs.Image.Programs

/-!
# Decoding follows the grammar

Every reader takes exactly the written forms of its field off the input and refuses exactly the
broken inputs, each for its reason. So a program is decoded from the bytes that begin with its image,
and all other bytes are refused for the first field that is broken.
-/

namespace BytecodeMachine

namespace Reader

variable {α β : Type} {r : Reader α} {f : α → Reader β} {input w rest : List UInt8} {a : α}
  {e : FieldError}

/-- Each written form is read with anything behind it, each broken input is refused, and there are
no other inputs. -/
structure Follows (r : Reader α) (written : List UInt8 → α → Prop)
    (broken : List UInt8 → FieldError → Prop) : Prop where
  reads : ∀ {w a}, written w a → Reads r w a
  refuses : ∀ {input e}, broken input e → r input = .error e
  covers : ∀ input, (∃ w a rest, written w a ∧ input = w ++ rest) ∨ ∃ e, broken input e

theorem bind_eq_error (h : r input = .error e) : (r >>= f) input = .error e := by
  simp only [Bind.bind, StateT.bind, Except.bind, h]

theorem Reads.bind_eq_error (h : Reads r w a) (he : f a rest = .error e) :
    (r >>= f) (w ++ rest) = .error e := by
  have hw := h rest
  simp only [Bind.bind, StateT.bind, Except.bind, hw, he]

end Reader

open Reader

namespace Varint

variable {leading last n : Nat} {input before w : List UInt8} {b final : UInt8} {e : FieldError}

theorem readFrom_nil : readFrom last leading [] = .error .unexpectedEnd := by
  cases leading <;> rfl

theorem readFrom_zero (rest : List UInt8) :
    readFrom last 0 (b :: rest) =
      if b.toNat ≤ last then .ok (b.toNat, rest) else .error .badVarint := by
  simp only [readFrom, byte, Bind.bind, StateT.bind, Except.bind]
  split <;> rfl

theorem readFrom_succ_of_lt (hb : b.toNat < 128) (rest : List UInt8) :
    readFrom last (leading + 1) (b :: rest) = .ok (b.toNat, rest) := by
  simp only [readFrom, byte, Bind.bind, StateT.bind, Except.bind, if_pos hb]
  rfl

theorem readFrom_succ_of_le (hb : 128 ≤ b.toNat) (rest : List UInt8) :
    readFrom last (leading + 1) (b :: rest) =
      (fun (k, tail) => (b.toNat % 128 + 128 * k, tail)) <$> readFrom last leading rest := by
  have hgroup : b.toNat % 128 = b.toNat - 128 := by
    have := b.toNat_lt
    omega
  simp only [readFrom, byte, Bind.bind, StateT.bind, Except.bind, if_neg (Nat.not_lt.mpr hb),
    hgroup]
  cases readFrom last leading rest <;> rfl

theorem Continued.cons (hb : 128 ≤ b.toNat) (h : Continued before) : Continued (b :: before) :=
  List.forall_mem_cons.mpr ⟨hb, h⟩

theorem readFrom_of_continued (continued : Continued before) (small : final.toNat < 128)
    (fits : before.length < leading ∨ before.length = leading ∧ final.toNat ≤ last)
    (rest : List UInt8) :
    readFrom last leading (before ++ final :: rest) = .ok (value (before ++ [final]), rest) := by
  induction before generalizing leading with
  | nil =>
    have hvalue : value [final] = final.toNat := by simp [value, Nat.mod_eq_of_lt small]
    rw [List.nil_append, List.nil_append, hvalue]
    cases leading with
    | zero =>
      have hle : final.toNat ≤ last := by simpa using fits
      rw [readFrom_zero, if_pos hle]
    | succ leading => exact readFrom_succ_of_lt small rest
  | cons b before ih =>
    obtain ⟨hb, continued⟩ := List.forall_mem_cons.mp continued
    cases leading with
    | zero => simp at fits
    | succ leading =>
      rw [List.cons_append, readFrom_succ_of_le hb, ih continued (by simpa using fits)]
      rfl

theorem readFrom_of_broken (h : Broken ⟨leading, last⟩ input e) :
    readFrom last leading input = .error e := by
  cases h with
  | ends continued short =>
    induction input generalizing leading with
    | nil => exact readFrom_nil
    | cons b input ih =>
      obtain ⟨hb, continued⟩ := List.forall_mem_cons.mp continued
      cases leading with
      | zero => simp at short
      | succ leading =>
        rw [readFrom_succ_of_le hb, ih continued (by simpa using short)]
        rfl
  | @tooLarge before rest final continued full large =>
    induction before generalizing leading with
    | nil =>
      obtain rfl : 0 = leading := full
      rw [List.nil_append, readFrom_zero, if_neg (Nat.not_le.mpr large)]
    | cons b before ih =>
      obtain ⟨hb, continued⟩ := List.forall_mem_cons.mp continued
      obtain rfl : before.length + 1 = leading := full
      rw [List.cons_append, readFrom_succ_of_le hb, ih continued rfl large]
      rfl

theorem Written.cons (hb : 128 ≤ b.toNat) (h : Written ⟨leading, last⟩ w n) :
    ∃ k, Written ⟨leading + 1, last⟩ (b :: w) k := by
  cases h with
  | @mk before final continued small fits =>
    have hwritten : Written ⟨leading + 1, last⟩ (b :: before ++ [final]) _ :=
      .mk (continued.cons hb) small (by simpa using fits)
    exact ⟨_, hwritten⟩

theorem Broken.cons (hb : 128 ≤ b.toNat) (h : Broken ⟨leading, last⟩ input e) :
    Broken ⟨leading + 1, last⟩ (b :: input) e := by
  cases h with
  | ends continued short => exact .ends (continued.cons hb) (by simpa using short)
  | @tooLarge before rest final continued full large =>
    have hbroken : Broken ⟨leading + 1, last⟩ (b :: before ++ final :: rest) .badVarint :=
      .tooLarge (continued.cons hb) (by simpa using full) large
    exact hbroken

/-- The input is looked at up to the first byte that announces no other one. -/
theorem written_or_broken (hlast : last < 128) (input : List UInt8) :
    (∃ w n rest, Written ⟨leading, last⟩ w n ∧ input = w ++ rest) ∨
      ∃ e, Broken ⟨leading, last⟩ input e := by
  have nothing : Continued [] := fun b hb => absurd hb List.not_mem_nil
  induction input generalizing leading with
  | nil => exact .inr ⟨_, .ends nothing (Nat.zero_le _)⟩
  | cons b rest ih =>
    by_cases hb : 128 ≤ b.toNat
    · cases leading with
      | zero => exact .inr ⟨_, .tooLarge nothing rfl (Nat.lt_of_lt_of_le hlast hb)⟩
      | succ leading =>
        rcases @ih leading with ⟨w, n, tail, hw, rfl⟩ | ⟨e, he⟩
        · obtain ⟨k, hk⟩ := hw.cons hb
          exact .inl ⟨b :: w, k, tail, hk, rfl⟩
        · exact .inr ⟨e, he.cons hb⟩
    · rcases Nat.eq_zero_or_pos leading with rfl | hpos
      · by_cases fits : b.toNat ≤ last
        · exact .inl ⟨_, _, rest, .mk nothing (Nat.lt_of_not_le hb) (.inr ⟨rfl, fits⟩), rfl⟩
        · exact .inr ⟨_, .tooLarge nothing rfl (Nat.lt_of_not_le fits)⟩
      · exact .inl ⟨_, _, rest, .mk nothing (Nat.lt_of_not_le hb) (.inl hpos), rfl⟩

theorem read_follows {range : Range} (hlast : range.last < 128) :
    Follows (read range) (Written range) (Broken range) where
  reads := by
    rintro w n ⟨continued, small, fits⟩ rest
    rw [List.append_assoc]
    exact readFrom_of_continued continued small fits rest
  refuses := readFrom_of_broken
  covers := written_or_broken hlast

theorem read_long_follows : Follows (read .long) (Written .long) (Broken .long) :=
  read_follows (by decide)

theorem read_short_follows : Follows (read .short) (Written .short) (Broken .short) :=
  read_follows (by decide)

theorem count_pos (last leading : Nat) : 0 < count last leading := by
  induction leading with
  | zero => exact Nat.succ_pos last
  | succ leading ih => exact Nat.mul_pos (by decide) ih

theorem value_lt_count (small : final.toNat < 128)
    (fits : before.length < leading ∨ before.length = leading ∧ final.toNat ≤ last) :
    value (before ++ [final]) < count last leading := by
  induction before generalizing leading with
  | nil =>
    have hvalue : value [final] = final.toNat := by simp [value, Nat.mod_eq_of_lt small]
    rw [List.nil_append, hvalue]
    cases leading with
    | zero => exact Nat.lt_succ_of_le (by simpa using fits)
    | succ leading => exact Nat.lt_of_lt_of_le small (Nat.le_mul_of_pos_right _ (count_pos _ _))
  | cons b before ih =>
    cases leading with
    | zero => simp at fits
    | succ leading =>
      have hrest := @ih leading (by simpa using fits)
      have hgroup : b.toNat % 128 < 128 := Nat.mod_lt _ (by decide)
      rw [List.cons_append, value, count]
      omega

theorem Written.lt_count {range : Range} (h : Written range w n) : n < range.count := by
  obtain ⟨-, small, fits⟩ := h
  exact value_lt_count small fits

/-- The numbers of 64 bits stand for the signed integers of 64 bits. -/
theorem ofSigned_toSigned {k : Nat} (hk : k < UInt64.size) : ofSigned (toSigned k) = k := by
  have hsize : UInt64.size = 2 ^ 64 := rfl
  have hsign : toSigned k < 0 ↔ (toSigned k).toInt < 0 := Int64.lt_iff_toInt_lt
  have htoInt : (toSigned k).toInt =
      if k % 2 = 0 then ((k / 2 : Nat) : Int) else -((k / 2 : Nat) : Int) - 1 := by
    rw [toSigned]
    split <;> exact Int64.toInt_ofInt_of_le (by omega) (by omega)
  rw [ofSigned]
  simp only [hsign, htoInt]
  by_cases even : k % 2 = 0
  · rw [if_pos even, if_neg (by omega)]
    omega
  · rw [if_neg even, if_pos (by omega)]
    omega

end Varint

namespace Reader

theorem bytes_eq_error {n : Nat} {input : List UInt8} (short : input.length < n) :
    bytes n input = .error .unexpectedEnd := by
  have hlen : (input.take n).length ≠ n := by
    rw [List.length_take]
    omega
  simp only [bytes, if_neg hlen]

theorem sized_follows : Follows sized Sized.Written Sized.Broken where
  reads := by
    rintro _ field ⟨counted⟩
    exact (Varint.read_long_follows.reads counted).bind (reads_bytes field)
  refuses := by
    rintro input e (broken | ⟨counted, short⟩)
    · exact bind_eq_error (Varint.read_long_follows.refuses broken)
    · exact (Varint.read_long_follows.reads counted).bind_eq_error (bytes_eq_error short)
  covers input := by
    rcases Varint.read_long_follows.covers input with ⟨length, n, rest, counted, rfl⟩ | ⟨e, broken⟩
    · rcases Nat.lt_or_ge rest.length n with short | enough
      · exact .inr ⟨_, .ends counted short⟩
      · have hlen : (rest.take n).length = n := List.length_take_of_le enough
        have hsplit : length ++ rest = length ++ rest.take n ++ rest.drop n := by
          rw [List.append_assoc, List.take_append_drop]
        exact .inl ⟨_, _, _, .mk (hlen.symm ▸ counted), hsplit⟩
    · exact .inr ⟨e, .length broken⟩

theorem reads_code_of_written {field : List UInt8} {c : Code}
    (h : Sized.Written field c.toList) : Reads code field c := by
  have hcode := (sized_follows.reads h).convert (f := List.toArray)
  rwa [Array.toArray_toList] at hcode

theorem reads_text_of_written {field : List UInt8} {s : String}
    (h : Sized.Written field s.toUTF8.data.toList) : Reads text field s := by
  intro rest
  have hsized := sized_follows.reads h rest
  simp only [text, Bind.bind, StateT.bind, Except.bind, hsized, fromUTF8?_toUTF8]
  rfl

theorem toUTF8_of_fromUTF8? {bytes : List UInt8} {s : String}
    (h : String.fromUTF8? bytes.toByteArray = some s) : s.toUTF8.data.toList = bytes := by
  rw [String.fromUTF8?] at h
  split at h
  · cases h
    change bytes.toByteArray.data.toList = bytes
    rw [List.data_toByteArray]
  · cases h

theorem text_eq_error {field bytes rest : List UInt8} (sized : Sized.Written field bytes)
    (invalid : ∀ s : String, s.toUTF8.data.toList ≠ bytes) :
    text (field ++ rest) = .error .badUtf8 := by
  refine (sized_follows.reads sized).bind_eq_error ?_
  cases hutf8 : String.fromUTF8? bytes.toByteArray with
  | none => rfl
  | some s => exact absurd (toUTF8_of_fromUTF8? hutf8) (invalid s)

theorem times_follows {α : Type} {item : Reader α} {written : List UInt8 → α → Prop}
    {broken : List UInt8 → FieldError → Prop} (h : Follows item written broken) (n : Nat) :
    Follows (times item n) (fun w as => Sequence written w as ∧ as.length = n) fun input e =>
      ∃ before as rest, Sequence written before as ∧ as.length < n ∧ broken rest e ∧
        input = before ++ rest := by
  induction n with
  | zero =>
    refine ⟨?_, ?_, fun input => .inl ⟨[], [], input, ⟨.nil, rfl⟩, rfl⟩⟩
    · rintro w as ⟨listed, count⟩
      cases listed with
      | nil => exact Reads.pure []
      | cons => cases count
    · rintro input e ⟨before, as, rest, -, missing, -⟩
      exact absurd missing (Nat.not_lt_zero _)
  | succ n ih =>
    refine ⟨?_, ?_, fun input => ?_⟩
    · rintro w as ⟨listed, count⟩
      cases listed with
      | nil => cases count
      | cons head tail =>
        rw [times_succ]
        exact (h.reads head).bind (ih.reads ⟨tail, Nat.succ.inj count⟩).convert
    · rintro input e ⟨before, as, rest, listed, missing, hbroken, rfl⟩
      rw [times_succ]
      cases listed with
      | nil => exact bind_eq_error (h.refuses hbroken)
      | cons head tail =>
        rw [List.append_assoc]
        refine (h.reads head).bind_eq_error (bind_eq_error (ih.refuses ?_))
        exact ⟨_, _, _, tail, Nat.lt_of_succ_lt_succ missing, hbroken, rfl⟩
    · rcases h.covers input with ⟨first, a, rest, head, rfl⟩ | ⟨e, hbroken⟩
      · rcases ih.covers rest with ⟨w, as, rest, ⟨tail, count⟩, rfl⟩ |
          ⟨e, before, as, rest, tail, missing, hbroken, rfl⟩
        · exact .inl ⟨_, a :: as, rest, ⟨.cons head tail, congrArg Nat.succ count⟩,
            (List.append_assoc ..).symm⟩
        · exact .inr ⟨e, _, a :: as, rest, .cons head tail, Nat.succ_lt_succ missing, hbroken,
            (List.append_assoc ..).symm⟩
      · exact .inr ⟨e, [], [], input, .nil, Nat.succ_pos n, hbroken, rfl⟩

theorem constant_reads {w : List UInt8} {c : Constant} (h : Constant.Written w c) :
    Reads constant w c := by
  cases h with
  | integer kind signed =>
    have hbody := (Varint.read_long_follows.reads signed).convert
      (f := fun k => Constant.integer (Varint.toSigned k))
    rw [Varint.toSigned_ofSigned] at hbody
    exact (Varint.read_short_follows.reads kind).bind hbody
  | string kind text =>
    exact (Varint.read_short_follows.reads kind).bind (reads_text_of_written text).convert
  | @function tag field locals parameters code numLocals numParameters kind body localCount
      parameterCount =>
    have htoNat : ∀ k : UInt32, k.toNat.toUInt32 = k := fun _ => UInt32.ofNat_toNat
    have hparameters := (Varint.read_short_follows.reads parameterCount).convert
      (f := fun k => Constant.function code numLocals.toNat.toUInt32 k.toUInt32)
    have hbody := (reads_code_of_written body).bind
      (f := fun code => do
        let k ← Varint.read .short
        return Constant.function code k.toUInt32 (← Varint.read .short).toUInt32)
      ((Varint.read_short_follows.reads localCount).bind hparameters)
    rw [htoNat, htoNat] at hbody
    exact (Varint.read_short_follows.reads kind).bind hbody

theorem constant_refuses {input : List UInt8} {e : FieldError} (h : Constant.Broken input e) :
    constant input = .error e := by
  have behind {tag rest : List UInt8} {k : Nat} {f : Nat → Reader Constant}
      (kind : Varint.Written .short tag k) (he : f k rest = .error e) :
      (Varint.read .short >>= f) (tag ++ rest) = .error e :=
    (Varint.read_short_follows.reads kind).bind_eq_error he
  cases h with
  | kind broken => exact bind_eq_error (Varint.read_short_follows.refuses broken)
  | @unknown tag rest k kind unknown =>
    obtain ⟨k, rfl⟩ : ∃ j, k = j + 3 := ⟨k - 3, by omega⟩
    exact behind kind rfl
  | integer kind broken =>
    exact behind kind (bind_eq_error (Varint.read_long_follows.refuses broken))
  | string kind broken =>
    exact behind kind (bind_eq_error (bind_eq_error (sized_follows.refuses broken)))
  | text kind sized invalid => exact behind kind (bind_eq_error (text_eq_error sized invalid))
  | body kind broken =>
    exact behind kind (bind_eq_error (bind_eq_error (sized_follows.refuses broken)))
  | locals kind body broken =>
    refine behind kind ((sized_follows.reads body).convert.bind_eq_error ?_)
    exact bind_eq_error (Varint.read_short_follows.refuses broken)
  | parameters kind body localCount broken =>
    refine behind kind ((sized_follows.reads body).convert.bind_eq_error ?_)
    refine (Varint.read_short_follows.reads localCount).bind_eq_error ?_
    exact bind_eq_error (Varint.read_short_follows.refuses broken)

theorem constant_covers (input : List UInt8) :
    (∃ w c rest, Constant.Written w c ∧ input = w ++ rest) ∨ ∃ e, Constant.Broken input e := by
  rcases Varint.read_short_follows.covers input with ⟨tag, k, rest, kind, rfl⟩ | ⟨e, broken⟩
  · match k, kind with
    | 0, kind =>
      rcases Varint.read_long_follows.covers rest with ⟨number, n, rest, signed, rfl⟩ | ⟨e, broken⟩
      · rw [← Varint.ofSigned_toSigned signed.lt_count] at signed
        exact .inl ⟨_, _, rest, .integer kind signed, (List.append_assoc ..).symm⟩
      · exact .inr ⟨e, .integer kind broken⟩
    | 1, kind =>
      rcases sized_follows.covers rest with ⟨field, bytes, rest, sized, rfl⟩ | ⟨e, broken⟩
      · by_cases valid : ∃ s : String, s.toUTF8.data.toList = bytes
        · obtain ⟨s, rfl⟩ := valid
          exact .inl ⟨_, _, rest, .string kind sized, (List.append_assoc ..).symm⟩
        · exact .inr ⟨_, .text kind sized (not_exists.mp valid)⟩
      · exact .inr ⟨e, .string kind broken⟩
    | 2, kind =>
      rcases sized_follows.covers rest with ⟨field, code, rest, body, rfl⟩ | ⟨e, broken⟩
      · rcases Varint.read_short_follows.covers rest with
          ⟨locals, numLocals, rest, localCount, rfl⟩ | ⟨e, broken⟩
        · rcases Varint.read_short_follows.covers rest with
            ⟨parameters, numParameters, rest, parameterCount, rfl⟩ | ⟨e, broken⟩
          · have hlocals : numLocals.toUInt32.toNat = numLocals :=
              UInt32.toNat_ofNat_of_lt' localCount.lt_count
            have hparameters : numParameters.toUInt32.toNat = numParameters :=
              UInt32.toNat_ofNat_of_lt' parameterCount.lt_count
            rw [← hlocals] at localCount
            rw [← hparameters] at parameterCount
            have body : Sized.Written field code.toArray.toList := body
            refine .inl ⟨_, _, rest, .function kind body localCount parameterCount, ?_⟩
            simp only [List.append_assoc]
          · exact .inr ⟨e, .parameters kind body localCount broken⟩
        · exact .inr ⟨e, .locals kind body broken⟩
      · exact .inr ⟨e, .body kind broken⟩
    | k + 3, kind => exact .inr ⟨_, .unknown kind (by omega)⟩
  · exact .inr ⟨e, .kind broken⟩

theorem constant_follows : Follows constant Constant.Written Constant.Broken :=
  ⟨constant_reads, constant_refuses, constant_covers⟩

theorem image_follows : Follows image Image.Written Image.Broken where
  reads := by
    rintro _ _ (@⟨field, count, pool, code, constants, main, counted, listed⟩)
    have hpool := ((times_follows constant_follows _).reads ⟨listed, rfl⟩).convert
      (f := fun constants => Image.mk code constants)
    exact (reads_code_of_written main).bind ((Varint.read_long_follows.reads counted).bind hpool)
  refuses := by
    intro input e h
    cases h with
    | main broken => exact bind_eq_error (bind_eq_error (sized_follows.refuses broken))
    | count main broken =>
      refine (sized_follows.reads main).convert.bind_eq_error ?_
      exact bind_eq_error (Varint.read_long_follows.refuses broken)
    | constant main counted listed missing broken =>
      refine (sized_follows.reads main).convert.bind_eq_error ?_
      refine (Varint.read_long_follows.reads counted).bind_eq_error (bind_eq_error ?_)
      exact (times_follows constant_follows _).refuses ⟨_, _, _, listed, missing, broken, rfl⟩
  covers input := by
    rcases sized_follows.covers input with ⟨field, code, rest, main, rfl⟩ | ⟨e, broken⟩
    · rcases Varint.read_long_follows.covers rest with ⟨count, n, rest, counted, rfl⟩ | ⟨e, broken⟩
      · rcases (times_follows constant_follows n).covers rest with
          ⟨pool, constants, rest, ⟨listed, rfl⟩, rfl⟩ |
          ⟨e, before, constants, rest, listed, missing, broken, rfl⟩
        · have main : Sized.Written field code.toArray.toList := main
          refine .inl ⟨_, _, rest, .mk main counted listed, ?_⟩
          simp only [List.append_assoc]
        · exact .inr ⟨e, .constant main counted listed missing broken⟩
      · exact .inr ⟨e, .count main broken⟩
    · exact .inr ⟨e, .main broken⟩

end Reader

namespace Image

variable {image : Image} {bytes payload : List UInt8} {e : ImageError}

theorem decode_magic (version : UInt8) (payload : List UInt8) :
    decode (magic ++ version :: payload) =
      if version = formatVersion then
        match Reader.image payload with
        | .ok (image, _) => .ok image
        | .error e => .error (.field e)
      else .error (.unsupportedVersion version) := rfl

/-- The input has a header with a version, or neither. -/
theorem header_or_bad (bytes : List UInt8) :
    (∃ version payload, bytes = magic ++ version :: payload) ∨
      (bytes.length < 5 ∨ ¬magic <+: bytes) := by
  by_cases hmagic : magic <+: bytes
  · obtain ⟨rest, rfl⟩ := hmagic
    cases rest with
    | nil => exact .inr (.inl (by decide))
    | cons version payload => exact .inl ⟨version, payload, rfl⟩
  · exact .inr (.inr hmagic)

theorem decode_of_begins (h : Begins image bytes) : decode bytes = .ok image := by
  obtain ⟨written, rest, hwritten, rfl⟩ := h
  rw [decode_magic, if_pos rfl, Reader.image_follows.reads hwritten rest]

theorem decode_of_bad_header (h : bytes.length < 5 ∨ ¬magic <+: bytes) :
    decode bytes = .error .badHeader := by
  rw [decode]
  split
  · next hmagic =>
    have hprefix : magic <+: bytes := hmagic ▸ bytes.take_prefix 4
    have hnil : bytes.drop 4 = [] := by
      have hshort : bytes.length < 5 := h.resolve_right (not_not_intro hprefix)
      exact List.drop_eq_nil_of_le (Nat.le_of_lt_succ hshort)
    rw [hnil]
  · rfl

theorem decode_of_refused (h : Refused bytes e) : decode bytes = .error e := by
  cases h with
  | header bad => exact decode_of_bad_header bad
  | version other => rw [decode_magic, if_neg other]
  | field broken => rw [decode_magic, if_pos rfl, Reader.image_follows.refuses broken]

theorem begins_or_refused (bytes : List UInt8) :
    (∃ image, Begins image bytes) ∨ ∃ e, Refused bytes e := by
  rcases header_or_bad bytes with ⟨version, payload, rfl⟩ | bad
  · by_cases hversion : version = formatVersion
    · subst hversion
      rcases Reader.image_follows.covers payload with
        ⟨written, image, rest, hwritten, rfl⟩ | ⟨e, broken⟩
      · exact .inl ⟨image, written, rest, hwritten, rfl⟩
      · exact .inr ⟨_, .field broken⟩
    · exact .inr ⟨_, .version hversion⟩
  · exact .inr ⟨_, .header bad⟩

theorem decode_eq_ok_iff : decode bytes = .ok image ↔ Begins image bytes := by
  refine ⟨fun hdecode => ?_, decode_of_begins⟩
  rcases begins_or_refused bytes with ⟨other, hbegins⟩ | ⟨e, hrefused⟩
  · cases (decode_of_begins hbegins).symm.trans hdecode
    exact hbegins
  · cases (decode_of_refused hrefused).symm.trans hdecode

theorem decode_eq_error_iff : decode bytes = .error e ↔ Refused bytes e := by
  refine ⟨fun hdecode => ?_, decode_of_refused⟩
  rcases begins_or_refused bytes with ⟨image, hbegins⟩ | ⟨other, hrefused⟩
  · cases (decode_of_begins hbegins).symm.trans hdecode
  · cases (decode_of_refused hrefused).symm.trans hdecode
    exact hrefused

end Image

namespace Constant

theorem ofValue?_toValue (n : Nat) (c : Constant) : ofValue? (c.toValue n) = some c := by
  cases c with
  | integer n => rfl
  | string s => rfl
  | function code numLocals numParameters =>
    have hcounts := And.intro numLocals.toNat_lt_size numParameters.toNat_lt_size
    rw [toValue, ofValue?_function]
    refine ⟨hcounts, ?_⟩
    simp only [Nat.toUInt32_eq, UInt32.ofNat_toNat]

theorem storable_toValue (n : Nat) (c : Constant) : (c.toValue n).Storable := by
  cases c with
  | integer n => trivial
  | string s => trivial
  | function code numLocals numParameters =>
    exact ⟨numLocals.toNat_lt_size, numParameters.toNat_lt_size⟩

end Constant

/-- The program made of an image has that image. -/
theorem Image.ofProgram_toProgram (start : Nat) (image : Image) :
    ofProgram (image.toProgram start) = .ok image := by
  have hstorable : ∀ v ∈ (image.toProgram start).constants.values, v.Storable := by
    intro v hv
    obtain ⟨i, hi, rfl⟩ := List.mem_mapIdx.mp (List.mem_toArray.mp hv)
    exact Constant.storable_toValue _ _
  obtain ⟨⟨code, constants⟩, hofProgram, rfl, hconstants⟩ := Program.exists_image hstorable
  have hmap : constants.map some = image.constants.map some := by
    refine hconstants.trans (List.ext_getElem? fun k => ?_)
    cases hk : image.constants[k]? <;>
      simp [toProgram, toPool, hk, Constant.ofValue?_toValue]
  have heq : constants = image.constants :=
    (List.map_inj_right fun _ _ => Option.some.inj).mp hmap
  rw [hofProgram, heq]
  rfl

namespace Program

theorem decode_eq_ok_iff {start : Nat} {bytes : List UInt8} {p : Program} :
    decode start bytes = .ok p ↔
      ∃ image : Image, image.Begins bytes ∧ image.toProgram start = p := by
  simp only [decode, ← Image.decode_eq_ok_iff]
  cases Image.decode bytes with
  | ok image => simp [Functor.map, Except.map]
  | error e => simp [Functor.map, Except.map]

theorem decode_eq_error_iff {start : Nat} {bytes : List UInt8} {e : ImageError} :
    decode start bytes = .error e ↔ Image.Refused bytes e := by
  rw [← Image.decode_eq_error_iff, decode]
  cases Image.decode bytes with
  | ok image => simp [Functor.map, Except.map]
  | error e => simp [Functor.map, Except.map]

/-- A program is read exactly from the bytes that begin with its image. All other bytes are refused
for the first field that they show no written form of. -/
theorem decode_exact (start : Nat) (bytes : List UInt8) :
    (∀ image : Image, image.Begins bytes ↔
      ∃ p, decode start bytes = .ok p ∧ Image.ofProgram p = .ok image) ∧
      (∀ p, decode start bytes = .ok p ↔
        ∃ image : Image, image.Begins bytes ∧ image.toProgram start = p) ∧
      ∀ e, decode start bytes = .error e ↔ Image.Refused bytes e := by
  refine ⟨fun image => ⟨fun hbegins => ?_, ?_⟩, fun p => decode_eq_ok_iff,
    fun e => decode_eq_error_iff⟩
  · have hdecode : decode start bytes = .ok (image.toProgram start) :=
      decode_eq_ok_iff.mpr ⟨image, hbegins, rfl⟩
    exact ⟨_, hdecode, Image.ofProgram_toProgram start image⟩
  · rintro ⟨p, hdecode, hofProgram⟩
    obtain ⟨other, hbegins, rfl⟩ := decode_eq_ok_iff.mp hdecode
    rw [Image.ofProgram_toProgram] at hofProgram
    cases hofProgram
    exact hbegins

end Program

end BytecodeMachine

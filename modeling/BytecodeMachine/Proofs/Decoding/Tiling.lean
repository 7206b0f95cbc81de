import BytecodeMachine.Proofs.Decoding.Items
import BytecodeMachine.Proofs.Decoding.Listed

/-!
# The bytes of items

The items of code lie one behind the other, from its first byte to its last one. An instruction
takes the bytes that it is encoded as, a byte that is no opcode takes itself, and an instruction
that is cut off takes what is left. So the items give all the code back that is not cut off.
-/

namespace BytecodeMachine

/-- The bytes that an item tells of, which are not those of an instruction that is cut off. -/
def Item.bytes : Item → Except CodeError (List UInt8)
  | .ok placed => placed.instruction.encode
  | .error (.undefinedOpcode byte) => .ok [byte]
  | .error e => .error e

namespace Code

variable {code : Code} {offset start stop after : Nat} {item : Item} {items : List Item}

/-- The item takes the bytes from one offset to another. -/
inductive Spans (code : Code) (start : Nat) : Item → Nat → Prop where
  | instruction {i : Instruction} (inside : start + i.length ≤ code.size)
    (encoded : i.encode = .ok (code.extract start (start + i.length)).toList) :
    Spans code start (.ok ⟨start, i⟩) (start + i.length)
  | undefined {byte : UInt8} (found : code[start]? = some byte) (beyond : 29 ≤ byte.toNat) :
    Spans code start (.error (.undefinedOpcode byte)) (start + 1)
  | truncated {op : Opcode} (found : code[start]? = some op.toByte)
    (short : code.size - (start + 1) < op.operandLength) :
    Spans code start (.error (.truncated op op.operandLength (code.size - (start + 1)))) code.size

theorem Spans.bounds (h : code.Spans start item stop) : start < stop ∧ stop ≤ code.size := by
  have inside {byte : UInt8} (found : code[start]? = some byte) : start < code.size :=
    (Array.getElem?_eq_some_iff.mp found).1
  cases h with
  | @instruction i hend encoded =>
    have hlength : i.length = 1 + i.opcode.operandLength := rfl
    exact ⟨by omega, hend⟩
  | undefined found beyond => exact ⟨Nat.lt_succ_self start, inside found⟩
  | truncated found short => exact ⟨inside found, Nat.le_refl _⟩

/-- An item from an offset on stands for the bytes that it takes, unless it is cut off. -/
theorem Spans.bytes_eq (h : code.Spans start item stop)
    (whole : ∀ op expected available, item ≠ .error (.truncated op expected available)) :
    item.bytes = .ok (code.extract start stop).toList := by
  cases h with
  | instruction inside encoded => exact encoded
  | @undefined byte found beyond =>
    obtain ⟨inside, hbyte⟩ := Array.getElem?_eq_some_iff.mp found
    rw [Array.toList_extract, List.extract_eq_take_drop, Nat.add_sub_cancel_left,
      List.drop_eq_getElem_cons (by rwa [Array.length_toList]), Array.getElem_toList, hbyte]
    rfl
  | truncated found short => exact absurd rfl (whole _ _ _)

/-- What is no instruction begins with a byte that is no opcode, or it is cut off. -/
theorem error_cases {inside : offset < code.size} {e : CodeError}
    (h : code.instructionAt offset inside = .error e) :
    29 ≤ code[offset].toNat ∧ e = .undefinedOpcode code[offset] ∨
      ∃ op : Opcode, op.toByte = code[offset] ∧ code.size - (offset + 1) < op.operandLength ∧
        e = .truncated op op.operandLength (code.size - (offset + 1)) := by
  rw [instructionAt] at h
  cases hop : Opcode.ofByte? code[offset] with
  | none =>
    simp only [Opcode.ofByte, hop, bind, Except.bind, Except.error.injEq] at h
    exact .inl ⟨Opcode.ofByte?_eq_none_iff.mp hop, h.symm⟩
  | some op =>
    simp only [Opcode.ofByte, hop, bind, Except.bind] at h
    by_cases short : code.size - (offset + 1) < op.operandLength
    · rw [if_pos short] at h
      cases h
      exact .inr ⟨op, Opcode.toByte_of_ofByte? hop, short, rfl⟩
    · rw [if_neg short] at h
      cases h

theorem spans_of_next? (h : code.next? offset = some (item, after)) :
    code.Spans offset item after := by
  obtain ⟨inside, -⟩ := lt_of_next? h
  have hbyte : code[offset]? = some code[offset] := Array.getElem?_eq_getElem inside
  cases hi : code.instructionAt offset inside with
  | ok i =>
    cases (next?_of_ok hi).symm.trans h
    exact .instruction (bounds_of_instructionAt hi).1 (encode_of_instructionAt hi)
  | error e =>
    rw [next?, dif_pos inside, hi] at h
    rcases error_cases hi with ⟨beyond, rfl⟩ | ⟨op, hop, short, rfl⟩
    · cases h
      exact .undefined hbyte beyond
    · cases h
      exact .truncated (hop ▸ hbyte) short

/-- The items that a scan finds one after another from an offset on, until it finds no more. -/
inductive Yields (code : Code) : Nat → List Item → Prop where
  | done {offset : Nat} (last : code.next? offset = none) : Yields code offset []
  | found {offset after : Nat} {item : Item} {items : List Item}
    (first : code.next? offset = some (item, after)) (rest : Yields code after items) :
    Yields code offset (item :: items)

theorem yields_itemsFrom (code : Code) (offset : Nat) :
    code.Yields offset (code.itemsFrom offset #[]).toList := by
  induction hk : code.size - offset using Nat.strongRecOn generalizing offset with
  | ind k ih =>
    cases h : code.next? offset with
    | none =>
      rw [itemsFrom_of_next?_none h]
      exact .done h
    | some next =>
      obtain ⟨item, after⟩ := next
      have hlt : code.size - after < k := by
        have := lt_of_next? h
        omega
      rw [itemsFrom_of_next?_some h, itemsFrom_eq_append, Array.toList_append]
      exact .found h (ih _ hlt after rfl)

/-- What a scan answers when it is asked a number of times for the next item. Where there is none,
it stays where it is. -/
def answers (code : Code) (offset : Nat) : (times : Nat) → List (Option Item)
  | 0 => []
  | times + 1 =>
    match code.next? offset with
    | some (item, after) => some item :: code.answers after times
    | none => none :: code.answers offset times

theorem Yields.answers_eq (h : code.Yields offset items) (n : Nat) :
    code.answers offset (items.length + n) = items.map some ++ .replicate n none := by
  induction h with
  | @done offset last =>
    rw [List.length_nil, Nat.zero_add, List.map_nil, List.nil_append]
    induction n with
    | zero => rfl
    | succ n ih => simp only [answers, last, ih, List.replicate_succ]
  | @found offset after item items first rest ih =>
    rw [List.length_cons, Nat.succ_add, answers, first]
    simp only [ih, List.map_cons, List.cons_append]

/-- The items take the bytes from an offset to the end of the code, one behind the other. -/
inductive Tiles (code : Code) : Nat → List Item → Prop where
  | nil : Tiles code code.size []
  | cons {start stop : Nat} {item : Item} {items : List Item} (first : code.Spans start item stop)
    (rest : Tiles code stop items) : Tiles code start (item :: items)

theorem Yields.tiles (h : code.Yields offset items) (hoffset : offset ≤ code.size) :
    code.Tiles offset items := by
  induction h with
  | @done offset last =>
    have beyond : ¬offset < code.size := by
      intro inside
      rw [next?, dif_pos inside] at last
      split at last <;> cases last
    obtain rfl : offset = code.size := by omega
    exact .nil
  | found first rest ih =>
    have spans := spans_of_next? first
    exact .cons spans (ih spans.bounds.2)

namespace Tiles

theorem length_le (h : code.Tiles start items) : start + items.length ≤ code.size := by
  induction h with
  | nil => exact Nat.le_refl _
  | cons first rest ih =>
    have hlt := first.bounds.1
    rw [List.length_cons]
    omega

/-- Nothing follows an instruction that is cut off. -/
theorem eq_nil_of_truncated {before behind : List Item} {op : Opcode} {expected available : Nat}
    (h : code.Tiles start (before ++ .error (.truncated op expected available) :: behind)) :
    behind = [] := by
  induction before generalizing start with
  | nil =>
    cases h with
    | cons first rest =>
      cases first
      have hlength := rest.length_le
      exact List.eq_nil_of_length_eq_zero (by omega)
  | cons item before ih =>
    cases h with
    | cons first rest => exact ih rest

theorem exists_parts (h : code.Tiles start items)
    (whole : ∀ op expected available, .error (.truncated op expected available) ∉ items) :
    ∃ parts, items.mapM Item.bytes = .ok parts ∧ parts.flatten = code.toList.drop start := by
  induction h with
  | nil =>
    refine ⟨[], rfl, ?_⟩
    rw [← Array.length_toList, List.drop_length]
    rfl
  | @cons start stop item items first rest ih =>
    have hbytes := first.bytes_eq fun op expected available heq =>
      whole op expected available (heq ▸ List.mem_cons_self)
    obtain ⟨parts, hparts, hflatten⟩ := ih fun op expected available member =>
      whole op expected available (List.mem_cons_of_mem _ member)
    refine ⟨(code.extract start stop).toList :: parts, ?_, ?_⟩
    · rw [List.mapM_cons, hbytes, hparts]
      rfl
    · obtain ⟨hlt, -⟩ := first.bounds
      rw [List.flatten_cons, hflatten, Array.toList_extract, List.extract_eq_take_drop,
        show stop = start + (stop - start) by omega, ← List.drop_drop, Nat.add_sub_cancel_left,
        List.take_append_drop]

end Tiles

/-- What the items of a scan say of the code, whatever its bytes are. -/
structure TiledBy (code : Code) (items : List Item) : Prop where
  length_le : items.length ≤ code.size
  /-- A scan finds these items and then, however often it is asked, no other. -/
  answers_eq : ∀ n, code.answers 0 (items.length + n) = items.map some ++ .replicate n none
  tiles : code.Tiles 0 items
  eq_nil_of_truncated : ∀ before op expected available behind,
    items = before ++ .error (.truncated op expected available) :: behind → behind = []
  exists_parts : (∀ op expected available, .error (.truncated op expected available) ∉ items) →
    ∃ parts, items.mapM Item.bytes = .ok parts ∧ ofParts parts = code

/-- A listing neither loses bytes nor makes any up. -/
theorem tiledBy_items (code : Code) : code.TiledBy code.items.toList := by
  have yields : code.Yields 0 code.items.toList := code.yields_itemsFrom 0
  have tiles := yields.tiles (Nat.zero_le _)
  refine ⟨?_, yields.answers_eq, tiles, ?_, ?_⟩
  · have hlength := tiles.length_le
    omega
  · intro before op expected available behind heq
    rw [heq] at tiles
    exact tiles.eq_nil_of_truncated
  · intro whole
    obtain ⟨parts, hparts, hflatten⟩ := tiles.exists_parts whole
    exact ⟨parts, hparts, by rw [ofParts, hflatten, List.drop_zero, Array.toArray_toList]⟩

/-- Bytes that are no opcodes lie between instructions, and the last instruction lacks a byte. -/
example : Code.answers #[255, 14, 1, 0, 29, 2, 0, 7] 0 7 =
    [some (.error (.undefinedOpcode 255)), some (.ok ⟨1, .jump, [256]⟩),
      some (.error (.undefinedOpcode 29)), some (.ok ⟨5, .pop, []⟩),
      some (.error (.truncated .constant 2 1)), none, none] := by
  rfl

end Code
end BytecodeMachine

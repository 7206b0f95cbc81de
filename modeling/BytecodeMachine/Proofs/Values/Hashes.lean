import BytecodeMachine.Proofs.Relabelling.Operator
import BytecodeMachine.Proofs.Values.Equality

/-!
# Hashes made of keys and values

A hash made of alternating keys and values finds under each key the value behind the last key equal
to it, and has no other keys. So neither the order of pairs with different keys nor a pair whose key
comes again later makes a difference.
-/

namespace BytecodeMachine

section Lists

variable {α : Type} {p : α → Bool} {xs : List α} {x : α}

/-- If at most one element is sought, then it does not matter where it stands. -/
private theorem find?_eq_some_iff_of_unique
    (unique : xs.Pairwise fun y z => p y = true → p z = false) :
    xs.find? p = some x ↔ x ∈ xs ∧ p x = true := by
  refine ⟨fun h => ⟨List.mem_of_find?_eq_some h, List.find?_some h⟩, ?_⟩
  rintro ⟨hmem, hx⟩
  induction xs with
  | nil => cases hmem
  | cons y ys ih =>
    obtain ⟨hy, hys⟩ := List.pairwise_cons.mp unique
    rcases List.mem_cons.mp hmem with rfl | hmem
    · exact List.find?_cons_of_pos hx
    · have hne : ¬p y = true := fun h => by simp [hy x hmem h] at hx
      rw [List.find?_cons_of_neg hne]
      exact ih hys hmem

private theorem find?_reverse_of_last {i : Nat} (found : xs[i]? = some x) (hx : p x = true)
    (last : ∀ j > i, ∀ y, xs[j]? = some y → p y = false) : xs.reverse.find? p = some x := by
  obtain ⟨hi, rfl⟩ := List.getElem?_eq_some_iff.mp found
  have hsplit : xs.reverse = (xs.drop (i + 1)).reverse ++ xs[i] :: (xs.take i).reverse := by
    conv_lhs => rw [← List.take_append_drop i xs, List.drop_eq_getElem_cons hi]
    simp
  have hnone : (xs.drop (i + 1)).reverse.find? p = none := by
    rw [List.find?_eq_none]
    intro y hy
    obtain ⟨j, hj⟩ := List.mem_iff_getElem?.mp (List.mem_reverse.mp hy)
    rw [List.getElem?_drop] at hj
    rw [last (i + 1 + j) (by omega) y hj]
    exact Bool.false_ne_true
  rw [hsplit, List.find?_append, hnone, Option.none_or, List.find?_cons_of_pos hx]

end Lists

namespace Value

variable {operands others : List Value} {pair : Value × Value} {k v : Value} {i : Nat}

theorem getElem?_pairUp :
    (pairUp operands)[i]? = some pair ↔
      operands[2 * i]? = some pair.1 ∧ operands[2 * i + 1]? = some pair.2 := by
  fun_induction pairUp operands generalizing i with
  | case1 key value rest ih =>
    cases i with
    | zero => simp [Prod.ext_iff]
    | succ i => simpa [Nat.mul_succ] using ih
  | case2 vs hshort =>
    rcases vs with - | ⟨key, - | ⟨value, rest⟩⟩
    · simp
    · simp
    · exact absurd rfl (hshort key value rest)

/-- In a list of even length, a value follows each key. -/
theorem exists_getElem?_pairUp (even : operands.length % 2 = 0)
    (h : operands[2 * i]? = some k) : ∃ v, (pairUp operands)[i]? = some (k, v) := by
  obtain ⟨hi, -⟩ := List.getElem?_eq_some_iff.mp h
  have hnext : 2 * i + 1 < operands.length := by omega
  exact ⟨_, getElem?_pairUp.mpr ⟨h, List.getElem?_eq_getElem hnext⟩⟩

theorem pairUp_append (even : operands.length % 2 = 0) :
    pairUp (operands ++ others) = pairUp operands ++ pairUp others := by
  fun_induction pairUp operands with
  | case1 key value rest ih =>
    have hrest : rest.length % 2 = 0 := by
      rw [List.length_cons, List.length_cons] at even
      omega
    rw [List.cons_append, List.cons_append, pairUp, ih hrest, List.cons_append]
  | case2 vs hshort =>
    rcases vs with - | ⟨key, - | ⟨value, rest⟩⟩
    · rfl
    · cases even
    · exact absurd rfl (hshort key value rest)

/-- The kinds of values that can be keys. -/
def keyKinds : List Kind := [.integer, .boolean, .string]

theorem isSome_key?_iff : v.key?.isSome ↔ v.kind ∈ keyKinds := by
  cases v <;> simp [key?, kind, keyKinds]

theorem key?_eq_none_iff : v.key? = none ↔ v.kind ∉ keyKinds := by
  rw [← isSome_key?_iff, Option.not_isSome_iff_eq_none]

theorem beq_iff_filedUnder {key : Key} (hk : k.key? = some key) :
    (pair.1 == k) = true ↔ filedUnder key pair = true := by
  rw [beq_eq_same, same_comm, same_iff_key?_eq hk, filedUnder_iff]

section Find

variable {pairs permuted front back : List (Value × Value)} {key : Key}

theorem find?_filedUnder_of_perm (perm : permuted.Perm pairs)
    (distinct : pairs.Pairwise fun p q => (p.1 == q.1) = false) :
    permuted.reverse.find? (filedUnder key) = pairs.reverse.find? (filedUnder key) := by
  have unique : pairs.Pairwise fun p q => filedUnder key p = true → filedUnder key q = false := by
    refine distinct.imp fun {p q} hne hp => ?_
    rw [Bool.eq_false_iff]
    intro hq
    rw [(beq_iff_filedUnder (filedUnder_iff.mp hq)).mpr hp] at hne
    cases hne
  have symmetric {p q : Value × Value} (h : filedUnder key p = true → filedUnder key q = false) :
      filedUnder key q = true → filedUnder key p = false := by grind
  have of_perm {xs : List (Value × Value)} (hperm : xs.Perm pairs) :
      xs.Pairwise fun p q => filedUnder key p = true → filedUnder key q = false :=
    (hperm.pairwise_iff symmetric).mpr unique
  refine Option.ext fun pair => ?_
  rw [find?_eq_some_iff_of_unique (of_perm ((List.reverse_perm _).trans perm)),
    find?_eq_some_iff_of_unique (of_perm (List.reverse_perm _)), List.mem_reverse,
    List.mem_reverse, perm.mem_iff]

/-- A pair whose key comes again later is not found. -/
theorem find?_filedUnder_of_later (later : ∃ other ∈ back, (other.1 == pair.1) = true) :
    (front ++ pair :: back).reverse.find? (filedUnder key) =
      (front ++ back).reverse.find? (filedUnder key) := by
  have hsplit : (front ++ pair :: back).reverse = back.reverse ++ pair :: front.reverse := by simp
  rw [hsplit, List.reverse_append, List.find?_append, List.find?_append]
  by_cases hpair : filedUnder key pair = true
  · obtain ⟨other, hmem, heq⟩ := later
    have hfound : (back.reverse.find? (filedUnder key)).isSome :=
      List.find?_isSome.mpr ⟨other, List.mem_reverse.mpr hmem,
        (beq_iff_filedUnder (filedUnder_iff.mp hpair)).mp heq⟩
    rw [Option.or_of_isSome hfound, Option.or_of_isSome hfound]
  · rw [List.find?_cons_of_neg hpair]

end Find

theorem hashOf_eq_ok_iff {operands : Array Value} {h : Value} :
    hashOf operands = .ok h ↔ operands.size % 2 = 0 ∧
      ∃ table, Table.ofPairs (pairUp operands.toList) = .ok table ∧ hash table = h := by
  rw [hashOf]
  by_cases even : operands.size % 2 = 0
  · rw [if_pos even]
    cases Table.ofPairs (pairUp operands.toList) <;> simp [even]
  · simp [even]

/-- Hashes in which every key finds the same are equal. -/
theorem exists_hashOf_eq {operands others : Array Value} {h : Value}
    (even : others.size % 2 = 0) (made : hashOf operands = .ok h)
    (subset : ∀ pair ∈ pairUp others.toList, pair ∈ pairUp operands.toList)
    (find : ∀ key, (pairUp others.toList).reverse.find? (filedUnder key) =
      (pairUp operands.toList).reverse.find? (filedUnder key)) :
    ∃ h', hashOf others = .ok h' ∧ (h == h') = true := by
  obtain ⟨-, table, htable, rfl⟩ := hashOf_eq_ok_iff.mp made
  obtain ⟨other, hother⟩ : ∃ other, Table.ofPairs (pairUp others.toList) = .ok other :=
    Table.exists_ofPairsWith fun pair hpair =>
      Table.isSome_of_ofPairsWith htable pair (subset pair hpair)
  have heq : table = other := by
    refine Table.eq_of_get?_eq (Table.sorted_of_ofPairsWith htable)
      (Table.sorted_of_ofPairsWith hother) fun key => ?_
    rw [Table.get?_of_ofPairsWith htable, Table.get?_of_ofPairsWith hother, find]
  subst heq
  refine ⟨hash table, hashOf_eq_ok_iff.mpr ⟨even, table, hother, rfl⟩, ?_⟩
  rw [beq_eq_same, same_refl]

/-- What a hash made of alternating keys and values holds. -/
structure HoldsLast (operands : Array Value) (table : Table Value) : Prop where
  last (i : Nat) (k l v : Value) : operands[2 * i]? = some l → operands[2 * i + 1]? = some v →
    (l == k) = true → (∀ j > i, ∀ later, operands[2 * j]? = some later → (later == k) = false) →
    index (hash table) k = .ok v
  missing (k : Value) : k.kind ∈ keyKinds →
    (∀ i l, operands[2 * i]? = some l → (l == k) = false) → index (hash table) k = .ok null
  unusable (k : Value) : k.kind ∉ keyKinds → index (hash table) k = .error (.unusableKey k.kind)
  nodup : table.keys.Nodup
  mem_keys_iff (key : Key) :
    key ∈ table.keys ↔ ∃ i l, operands[2 * i]? = some l ∧ l.key? = some key
  /-- A table that keeps each pair as a whole has the same entries, and the first component of each
  pair is the one that belongs to the key. -/
  kept : ∃ whole, Table.ofPairsWith id (pairUp operands.toList) = .ok whole ∧
    table = whole.map (fun entry => (entry.1, entry.2.2)) ∧
    ∀ key k v, (key, k, v) ∈ whole → k.key? = some key ∧ k = ofKey key

section Holds

variable {operands : Array Value} {table : Table Value} {key : Key}

theorem index_of_key? {k : Value} (hk : k.key? = some key) :
    index (hash table) k = .ok ((Table.get? key table).getD null) := by
  simp only [index, hk]

theorem getElem?_pairUp_toList {i : Nat} {pair : Value × Value} :
    (pairUp operands.toList)[i]? = some pair ↔
      operands[2 * i]? = some pair.1 ∧ operands[2 * i + 1]? = some pair.2 := by
  rw [getElem?_pairUp, Array.getElem?_toList, Array.getElem?_toList]

theorem exists_mem_pairUp_iff (even : operands.size % 2 = 0) (p : Value → Prop) :
    (∃ pair ∈ pairUp operands.toList, p pair.1) ↔ ∃ i l, operands[2 * i]? = some l ∧ p l := by
  constructor
  · rintro ⟨pair, hmem, hp⟩
    obtain ⟨i, hi⟩ := List.mem_iff_getElem?.mp hmem
    exact ⟨i, pair.1, (getElem?_pairUp_toList.mp hi).1, hp⟩
  · rintro ⟨i, l, hl, hp⟩
    obtain ⟨v, hv⟩ := exists_getElem?_pairUp even (Array.getElem?_toList ▸ hl)
    exact ⟨(l, v), List.mem_of_getElem? hv, hp⟩

theorem find?_pairUp_of_last {i : Nat} {k l v : Value} (hkey : k.key? = some key)
    (hl : operands[2 * i]? = some l) (hv : operands[2 * i + 1]? = some v) (heq : (l == k) = true)
    (later : ∀ j > i, ∀ later, operands[2 * j]? = some later → (later == k) = false) :
    (pairUp operands.toList).reverse.find? (filedUnder key) = some (l, v) := by
  have hpair : (pairUp operands.toList)[i]? = some (l, v) := getElem?_pairUp_toList.mpr ⟨hl, hv⟩
  refine find?_reverse_of_last hpair ((beq_iff_filedUnder hkey).mp heq) fun j hj pair hlater => ?_
  rw [Bool.eq_false_iff, ne_eq, ← beq_iff_filedUnder hkey,
    later j hj pair.1 (getElem?_pairUp_toList.mp hlater).1]
  exact Bool.false_ne_true

theorem find?_pairUp_of_missing {k : Value} (hkey : k.key? = some key)
    (missing : ∀ i l, operands[2 * i]? = some l → (l == k) = false) :
    (pairUp operands.toList).reverse.find? (filedUnder key) = none := by
  rw [List.find?_eq_none]
  intro pair hpair
  obtain ⟨i, hi⟩ := List.mem_iff_getElem?.mp (List.mem_reverse.mp hpair)
  rw [← beq_iff_filedUnder hkey, missing i pair.1 (getElem?_pairUp_toList.mp hi).1]
  exact Bool.false_ne_true

theorem exists_kept {pairs : List (Value × Value)} (h : Table.ofPairs pairs = .ok table) :
    ∃ whole, Table.ofPairsWith id pairs = .ok whole ∧
      table = whole.map (fun entry => (entry.1, entry.2.2)) ∧
      ∀ key k v, (key, k, v) ∈ whole → k.key? = some key ∧ k = ofKey key := by
  obtain ⟨whole, hwhole⟩ : ∃ whole, Table.ofPairsWith id pairs = .ok whole :=
    Table.exists_ofPairsWith (Table.isSome_of_ofPairsWith h)
  have hsorted := Table.sorted_of_ofPairsWith hwhole
  refine ⟨whole, hwhole, ?_, fun key k v hmem => ?_⟩
  · refine Table.eq_of_get?_eq (Table.sorted_of_ofPairsWith h) (hsorted.map Prod.snd) fun key => ?_
    rw [Table.get?_map, Table.get?_of_ofPairsWith h, Table.get?_of_ofPairsWith hwhole,
      Option.map_id_apply]
  · have hfound := (Table.get?_eq_some_iff hsorted).mpr hmem
    rw [Table.get?_of_ofPairsWith hwhole, Option.map_id_apply] at hfound
    have hkey : k.key? = some key := filedUnder_iff.mp (List.find?_some hfound)
    exact ⟨hkey, eq_ofKey hkey⟩

theorem holdsLast_of_ofPairs (even : operands.size % 2 = 0)
    (h : Table.ofPairs (pairUp operands.toList) = .ok table) : HoldsLast operands table where
  last i k l v hl hv heq later := by
    have hpair := List.mem_of_getElem? (getElem?_pairUp_toList.mpr ⟨hl, hv⟩ : _ = some (l, v))
    obtain ⟨key, hkey⟩ : ∃ key, l.key? = some key :=
      Option.isSome_iff_exists.mp (Table.isSome_of_ofPairsWith h (l, v) hpair)
    have hk : k.key? = some key := by
      rw [beq_eq_same] at heq
      exact (same_iff_key?_eq hkey).mp heq
    rw [index_of_key? hk, Table.get?_of_ofPairsWith h, find?_pairUp_of_last hk hl hv heq later]
    rfl
  missing k hk missing := by
    obtain ⟨key, hkey⟩ := Option.isSome_iff_exists.mp (isSome_key?_iff.mpr hk)
    rw [index_of_key? hkey, Table.get?_of_ofPairsWith h, find?_pairUp_of_missing hkey missing]
    rfl
  unusable k hk := by
    simp only [index, key?_eq_none_iff.mpr hk]
  nodup := (Table.sorted_of_ofPairsWith h).nodup_keys
  mem_keys_iff key := by
    rw [(Table.sorted_of_ofPairsWith h).mem_keys_iff, Table.get?_of_ofPairsWith h,
      Option.isSome_map, List.find?_isSome]
    simp only [List.mem_reverse, filedUnder_iff]
    exact exists_mem_pairUp_iff even fun l => l.key? = some key
  kept := exists_kept h

/-- The first key that can be none is reported. -/
theorem hashOf_eq_error {i : Nat} {k : Value} (even : operands.size % 2 = 0)
    (hk : operands[2 * i]? = some k) (unusable : k.kind ∉ keyKinds)
    (usable : ∀ j < i, ∀ l, operands[2 * j]? = some l → l.kind ∈ keyKinds) :
    hashOf operands = .error (.unusableKey k.kind) := by
  obtain ⟨v, hpair⟩ := exists_getElem?_pairUp even (Array.getElem?_toList ▸ hk)
  obtain ⟨hi, heq⟩ := List.getElem?_eq_some_iff.mp hpair
  have herror : Table.ofPairs (pairUp operands.toList) = .error k.kind := by
    rw [← List.take_append_drop i (pairUp operands.toList), List.drop_eq_getElem_cons hi, heq]
    refine Table.ofPairsWith_eq_error (fun pair hfront => ?_) (key?_eq_none_iff.mpr unusable)
    obtain ⟨j, hj, rfl⟩ := List.mem_take_iff_getElem.mp hfront
    rw [isSome_key?_iff]
    exact usable j (by omega) _ (getElem?_pairUp_toList.mp (List.getElem?_eq_getElem _)).1
  rw [hashOf, if_pos even, herror]

theorem exists_holdsLast (even : operands.size % 2 = 0)
    (usable : ∀ i k, operands[2 * i]? = some k → k.kind ∈ keyKinds) :
    ∃ table, hashOf operands = .ok (hash table) ∧ HoldsLast operands table := by
  obtain ⟨table, htable⟩ : ∃ table, Table.ofPairs (pairUp operands.toList) = .ok table := by
    refine Table.exists_ofPairsWith fun pair hpair => isSome_key?_iff.mpr ?_
    obtain ⟨i, hi⟩ := List.mem_iff_getElem?.mp hpair
    exact usable i pair.1 (getElem?_pairUp_toList.mp hi).1
  exact ⟨table, hashOf_eq_ok_iff.mpr ⟨even, table, htable, rfl⟩, holdsLast_of_ofPairs even htable⟩

end Holds

/-- A pair whose key comes again later can be dropped. -/
theorem exists_hashOf_of_later {front back : Array Value} {k v h : Value}
    (even : front.size % 2 = 0) (later : ∃ i l, back[2 * i]? = some l ∧ (l == k) = true)
    (made : hashOf (front ++ #[k, v] ++ back) = .ok h) :
    ∃ h', hashOf (front ++ back) = .ok h' ∧ (h == h') = true := by
  have hsize := (hashOf_eq_ok_iff.mp made).1
  rw [Array.size_append, Array.size_append] at hsize
  change (front.size + 2 + back.size) % 2 = 0 at hsize
  have hall : pairUp (front ++ #[k, v] ++ back).toList =
      pairUp front.toList ++ (k, v) :: pairUp back.toList := by
    rw [Array.toList_append, Array.toList_append, List.append_assoc, pairUp_append even]
    rfl
  have hrest : pairUp (front ++ back).toList = pairUp front.toList ++ pairUp back.toList := by
    rw [Array.toList_append, pairUp_append even]
  have hlater := (exists_mem_pairUp_iff (by omega) fun l => (l == k) = true).mpr later
  refine exists_hashOf_eq (by rw [Array.size_append]; omega) made ?_ fun key => ?_
  · rw [hall, hrest]
    exact ((List.sublist_cons_self (k, v) _).append_left _).subset
  · rw [hall, hrest]
    exact (find?_filedUnder_of_later hlater).symm

/-- The laws of hashes made of alternating keys and values. -/
structure HashLaws (operands : Array Value) : Prop where
  odd : operands.size % 2 = 1 → hashOf operands = .error (.oddHashOperands operands.size)
  unusable (i : Nat) (k : Value) : operands.size % 2 = 0 → operands[2 * i]? = some k →
    k.kind ∉ keyKinds → (∀ j < i, ∀ l, operands[2 * j]? = some l → l.kind ∈ keyKinds) →
    hashOf operands = .error (.unusableKey k.kind)
  made : operands.size % 2 = 0 → (∀ i k, operands[2 * i]? = some k → k.kind ∈ keyKinds) →
    ∃ table, hashOf operands = .ok (hash table) ∧ HoldsLast operands table
  permuted (others : Array Value) (h : Value) : hashOf operands = .ok h →
    others.size % 2 = 0 → (pairUp others.toList).Perm (pairUp operands.toList) →
    (pairUp operands.toList).Pairwise (fun p q => (p.1 == q.1) = false) →
    ∃ h', hashOf others = .ok h' ∧ (h == h') = true
  dropped (front back : Array Value) (k v h : Value) : operands = front ++ #[k, v] ++ back →
    front.size % 2 = 0 → (∃ i l, back[2 * i]? = some l ∧ (l == k) = true) →
    hashOf operands = .ok h → ∃ h', hashOf (front ++ back) = .ok h' ∧ (h == h') = true

theorem hashLaws (operands : Array Value) : HashLaws operands where
  odd hodd := if_neg (by omega)
  unusable i k even hk unusable usable := hashOf_eq_error even hk unusable usable
  made even usable := exists_holdsLast even usable
  permuted others h made even perm distinct :=
    exists_hashOf_eq even made (fun _ => perm.mem_iff.mp) fun _ =>
      find?_filedUnder_of_perm perm distinct
  dropped front back k v h split even later made := by
    rw [split] at made
    exact exists_hashOf_of_later even later made

example : hashOf #[integer 1, string "a", boolean true, string "b", string "1", string "c",
    integer 1, null] =
    .ok (hash #[(.integer 1, null), (.boolean true, string "b"), (.string "1", string "c")]) := rfl

end Value
end BytecodeMachine

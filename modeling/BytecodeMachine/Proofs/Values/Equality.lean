import BytecodeMachine.Proofs.Execution.Completeness
import BytecodeMachine.Proofs.Values.Tables
import BytecodeMachine.Value.Occurrence

/-!
# Laws of equality

Equality of values is an equivalence, which tells kinds and keys apart. In memory two arrays or
hashes may be one and the same object; whether they are taken to be equal at once then or compared
part by part makes no difference. Hashes are equal if they have equal values under the same keys, in
whatever order their entries were inserted or are gone through.
-/

namespace BytecodeMachine

namespace Value

variable {u v w : Value}

mutual

theorem same_comm (v w : Value) : v.same w = w.same v := by
  cases v with
  | array xs =>
    cases w with
    | array ys => exact sameElements_comm xs.toList ys.toList
    | _ => rfl
  | hash xs =>
    cases w with
    | hash ys => exact sameEntries_comm xs.toList ys.toList
    | _ => rfl
  | _ => cases w <;> simp [same, Bool.beq_comm]

theorem sameElements_comm : (xs ys : List Value) → sameElements xs ys = sameElements ys xs
  | [], [] => rfl
  | [], _ :: _ => rfl
  | _ :: _, [] => rfl
  | x :: xs, y :: ys => by
    rw [sameElements, sameElements, same_comm x y, sameElements_comm xs ys]

theorem sameEntries_comm : (xs ys : List (Key × Value)) → sameEntries xs ys = sameEntries ys xs
  | [], [] => rfl
  | [], _ :: _ => rfl
  | _ :: _, [] => rfl
  | (k, x) :: xs, (l, y) :: ys => by
    rw [sameEntries, sameEntries, same_comm x y, sameEntries_comm xs ys, Bool.beq_comm]

end

mutual

/-- Equal values are equal to the same values. -/
theorem same_congr {u v : Value} (w : Value) (h : u.same v = true) : v.same w = u.same w := by
  cases u with
  | array us =>
    cases v with
    | array vs =>
      cases w with
      | array ws => exact sameElements_congr us.toList vs.toList ws.toList h
      | _ => rfl
    | _ => simp [same] at h
  | hash us =>
    cases v with
    | hash vs =>
      cases w with
      | hash ws => exact sameEntries_congr us.toList vs.toList ws.toList h
      | _ => rfl
    | _ => simp [same] at h
  | _ =>
    cases v <;> simp [same] at h
    cases w <;> simp [same, h]
termination_by structural u

theorem sameElements_congr : (us vs ws : List Value) → sameElements us vs = true →
    sameElements vs ws = sameElements us ws
  | [], [], _, _ => rfl
  | u :: us, v :: vs, [], _ => rfl
  | u :: us, v :: vs, w :: ws, h => by
    rw [sameElements, Bool.and_eq_true] at h
    rw [sameElements, sameElements, same_congr w h.1, sameElements_congr us vs ws h.2]
termination_by structural us => us

theorem sameEntries_congr : (us vs ws : List (Key × Value)) → sameEntries us vs = true →
    sameEntries vs ws = sameEntries us ws
  | [], [], _, _ => rfl
  | _ :: _, _ :: _, [], _ => rfl
  | (k, u) :: us, (l, v) :: vs, (m, w) :: ws, h => by
    rw [sameEntries, Bool.and_eq_true, Bool.and_eq_true, beq_iff_eq] at h
    rw [sameEntries, sameEntries, same_congr w h.1.2, sameEntries_congr us vs ws h.2, h.1.1]
termination_by structural us => us

end

theorem same_trans (h : u.same v = true) (h' : v.same w = true) : u.same w = true := by
  rwa [same_congr w h] at h'

theorem kind_eq_of_same (h : v.same w = true) : v.kind = w.kind := by
  cases v <;> cases w <;> first | rfl | simp [same] at h

theorem eq_ofKey {key : Key} (h : v.key? = some key) : v = ofKey key := by
  cases v <;> cases h <;> rfl

/-- Only the same key is equal to a key. -/
theorem same_iff_key?_eq {key : Key} (h : v.key? = some key) :
    v.same w = true ↔ w.key? = some key := by
  rw [eq_ofKey h]
  cases key <;> cases w <;> simp [ofKey, same, key?] <;> exact eq_comm

theorem sameEntries_iff {xs ys : List (Key × Value)} :
    sameEntries xs ys = true ↔ Table.Corresponds (fun x y => x.same y = true) xs ys := by
  rw [Table.Corresponds]
  induction xs generalizing ys with
  | nil => cases ys <;> simp [sameEntries]
  | cons p xs ih =>
    obtain ⟨k, x⟩ := p
    cases ys with
    | nil => simp [sameEntries]
    | cons q ys =>
      obtain ⟨l, y⟩ := q
      rw [sameEntries, Bool.and_eq_true, Bool.and_eq_true, beq_iff_eq, ih, List.forall₂_cons]

/-- Every hash in the value was made of pairs of keys and values. -/
def Built (v : Value) : Prop :=
  ∀ entries, (hash entries).Occurs v → ∃ pairs, Table.ofPairs pairs = .ok entries

namespace Built

variable {xs : Array Value} {entries : Array (Key × Value)} {key : Key}

theorem of_occurs (h : w.Built) (inside : v.Occurs w) : v.Built :=
  fun entries hentries => h entries (hentries.trans inside)

theorem element (h : (array xs).Built) (member : v ∈ xs) : v.Built :=
  h.of_occurs (.element member .here)

theorem entry (h : (hash entries).Built) (member : (key, v) ∈ entries) : v.Built :=
  h.of_occurs (.entry member .here)

theorem sorted (h : (hash entries).Built) : Table.Sorted entries := by
  obtain ⟨pairs, hpairs⟩ := h entries .here
  exact Table.sorted_of_ofPairsWith hpairs

theorem of_array (h : ∀ v ∈ xs, v.Built) : (array xs).Built := by
  intro entries hentries
  cases hentries with
  | element member inside => exact h _ member entries inside

/-- A hash of pairs of built values is built. -/
theorem of_ofPairs {pairs : List (Value × Value)} (h : Table.ofPairs pairs = .ok entries)
    (hpairs : ∀ pair ∈ pairs, pair.2.Built) : (hash entries).Built := by
  intro others hothers
  cases hothers with
  | here => exact ⟨pairs, h⟩
  | entry member inside =>
    obtain ⟨k, hk⟩ := Table.exists_mem_of_ofPairs h member
    exact hpairs _ hk others inside

end Built

/-- Tells of two arrays or hashes at a place whether they are one and the same object. A place is
the list of the positions that lead there, the innermost one first. -/
abbrev Sharing := (place : List Nat) → Value → Value → Bool

mutual

/-- Compares values whose arrays and hashes are objects in memory: one and the same object is equal
to itself at once, two arrays are compared from front to back, and two hashes by looking up the
entries of one in the other. Only one value belongs to a key, so keys that are kept as values need
no comparison. -/
def equals (shared : Sharing) (place : List Nat) : Value → Value → Bool
  | null, null => true
  | integer m, integer n => m == n
  | boolean a, boolean b => a == b
  | string s, string t => s == t
  | array ⟨xs⟩, array ⟨ys⟩ =>
    shared place (array ⟨xs⟩) (array ⟨ys⟩) ||
      xs.length == ys.length && elementsEqual shared place xs ys
  | hash ⟨xs⟩, hash ⟨ys⟩ =>
    shared place (hash ⟨xs⟩) (hash ⟨ys⟩) ||
      xs.length == ys.length && entriesFound shared place xs ⟨ys⟩
  | function f, function g => f.identity == g.identity
  | closure c, closure d => c.identity == d.identity
  | builtin a, builtin b => a.name == b.name
  | error s, error t => s == t
  | _, _ => false

def elementsEqual (shared : Sharing) (place : List Nat) : List Value → List Value → Bool
  | x :: xs, y :: ys =>
    equals shared (xs.length :: place) x y && elementsEqual shared place xs ys
  | _, _ => true

def entriesFound (shared : Sharing) (place : List Nat) :
    List (Key × Value) → Table Value → Bool
  | [], _ => true
  | (k, x) :: xs, table =>
    (match Table.get? k table with
      | some y => equals shared (xs.length :: place) x y
      | none => false) && entriesFound shared place xs table

end

/-- Whatever is told to be one object is one value. -/
def Sharing.Sound (shared : Sharing) : Prop := ∀ place v w, shared place v w = true → v = w

section Sharing

variable {shared : Sharing}

private theorem or_eq_same {parts : Bool} (sound : shared.Sound) (place : List Nat)
    (h : parts = v.same w) : (shared place v w || parts) = v.same w := by
  rw [h, Bool.or_eq_right_iff_imp]
  intro hshared
  rw [sound place v w hshared, same_refl]

mutual

theorem equals_eq_same {v w : Value} (sound : shared.Sound) (place : List Nat) (hv : v.Built)
    (hw : w.Built) : equals shared place v w = v.same w := by
  cases v with
  | array xs =>
    cases w with
    | array ys =>
      refine or_eq_same sound place ?_
      by_cases hlength : xs.toList.length = ys.toList.length
      · have hxs (x : Value) (hx : x ∈ xs.toList) : x.Built :=
          hv.element (Array.mem_toList_iff.mp hx)
        have hys (y : Value) (hy : y ∈ ys.toList) : y.Built :=
          hw.element (Array.mem_toList_iff.mp hy)
        rw [beq_iff_eq.mpr hlength, Bool.true_and,
          elementsEqual_eq_sameElements xs.toList ys.toList sound place hlength hxs hys]
        rfl
      · rw [beq_false_of_ne hlength, Bool.false_and]
        exact (sameElements_of_length_ne hlength).symm
    | _ => rfl
  | hash xs =>
    cases w with
    | hash ys =>
      refine or_eq_same sound place (Bool.eq_iff_iff.mpr ?_)
      have hxs (key : Key) (x : Value) (hx : (key, x) ∈ xs.toList) : x.Built :=
        hv.entry (Array.mem_toList_iff.mp hx)
      rw [Bool.and_eq_true, beq_iff_eq, entriesFound_iff xs.toList sound place hxs hw]
      refine Iff.trans ?_ sameEntries_iff.symm
      rw [hv.sorted.corresponds_iff_of_size hw.sorted]
      simp only [Array.length_toList, Array.mem_toList_iff]
    | _ => rfl
  | _ => cases w <;> rfl
termination_by structural v

theorem elementsEqual_eq_sameElements : (xs ys : List Value) → shared.Sound →
    (place : List Nat) → xs.length = ys.length → (∀ x ∈ xs, x.Built) → (∀ y ∈ ys, y.Built) →
    elementsEqual shared place xs ys = sameElements xs ys
  | [], [], _, _, _, _, _ => rfl
  | x :: xs, y :: ys, sound, place, hlength, hxs, hys => by
    rw [elementsEqual, sameElements,
      equals_eq_same sound _ (hxs x List.mem_cons_self) (hys y List.mem_cons_self),
      elementsEqual_eq_sameElements xs ys sound place (Nat.succ.inj hlength)
        (fun z hz => hxs z (List.mem_cons_of_mem x hz))
        (fun z hz => hys z (List.mem_cons_of_mem y hz))]
termination_by structural xs => xs

theorem entriesFound_iff {ys : Table Value} : (xs : List (Key × Value)) → shared.Sound →
    (place : List Nat) → (∀ key x, (key, x) ∈ xs → x.Built) → (hash ys).Built →
    (entriesFound shared place xs ys = true ↔
      ∀ key x, (key, x) ∈ xs → ∃ y, Table.get? key ys = some y ∧ x.same y = true)
  | [], _, _, _, _ => by simp [entriesFound]
  | (k, x) :: xs, sound, place, hxs, hys => by
    have first : (match Table.get? k ys with
        | some y => equals shared (xs.length :: place) x y
        | none => false) = true ↔ ∃ y, Table.get? k ys = some y ∧ x.same y = true := by
      cases hget : Table.get? k ys with
      | none => simp
      | some y =>
        have hy : y.Built := hys.entry (Table.mem_of_search hget)
        simp [equals_eq_same sound (xs.length :: place) (hxs k x List.mem_cons_self) hy]
    have rest := entriesFound_iff xs sound place
      (fun key z hz => hxs key z (List.mem_cons_of_mem _ hz)) hys
    rw [entriesFound, Bool.and_eq_true, first, rest]
    simp only [List.mem_cons, Prod.mk.injEq, or_imp, forall_and, and_imp, forall_eq_apply_imp_iff,
      forall_eq]
termination_by structural xs => xs

end

end Sharing

/-- A hash has the entries of another one if all its own, in whatever order they are gone through,
are found there and are no fewer. -/
theorem beq_hash_of_perm {xs ys : Table Value} {listed : List (Key × Value)} (hxs : xs.Sorted)
    (hys : ys.Sorted) (perm : listed.Perm xs.toList) :
    (hash xs == hash ys) = (xs.size == ys.size &&
      listed.all fun entry => (Table.get? entry.1 ys).any (entry.2 == ·)) := by
  rw [beq_eq_same, Bool.eq_iff_iff, Bool.and_eq_true, beq_iff_eq]
  refine sameEntries_iff.trans ((hxs.corresponds_iff_of_size hys).trans ?_)
  simp only [List.all_eq_true, perm.mem_iff, Array.mem_toList_iff, Prod.forall,
    Option.any_eq_true, beq_eq_same]

/-- Both comparisons for equality find their answer with any two operands. -/
theorem execute_equality {m : Machine} {below : List Value} (h : m.Supplies below [v, w]) :
    ∃ room,
      Exec.execute ⟨.equal, []⟩ m = .ok none
        { m with stack := (m.stack.drop 2).push (.boolean (v == w)) room } ∧
      Exec.execute ⟨.notEqual, []⟩ m = .ok none
        { m with stack := (m.stack.drop 2).push (.boolean !(v == w)) room } := by
  have room : (m.stack.drop [v, w].length).HasRoom := h.hasRoom_of_cons
  exact ⟨room, Exec.execute_of_computes (.binary rfl rfl) h room,
    Exec.execute_of_computes (.binary rfl rfl) h room⟩

/-- The laws of equality, for three values. -/
structure EqualityLaws (u v w : Value) : Prop where
  refl : (v == v) = true
  symm : (v == w) = (w == v)
  trans : (u == v) = true → (v == w) = true → (u == w) = true
  /-- Whichever parts are one object in memory, the answer is the one without a look at objects. -/
  shortcut (shared : Sharing) (place : List Nat) :
    shared.Sound → equals shared place v w = (v == w)
  kinds : (v == w) = true → v.kind = w.kind
  keys (k l : Key) : v.key? = some k → w.key? = some l → ((v == w) = true ↔ k = l)
  keyless (k : Key) : v.key? = some k → w.key? = none → (v == w) = false
  entries (xs ys : Table Value) : v = hash xs → w = hash ys →
    ((v == w) = true ↔ (∀ key, (Table.get? key xs).isSome ↔ (Table.get? key ys).isSome) ∧
      ∀ key x y, Table.get? key xs = some x → Table.get? key ys = some y → (x == y) = true)
  iteration (xs ys : Table Value) (listed : List (Key × Value)) : v = hash xs → w = hash ys →
    listed.Perm xs.toList → (v == w) = (xs.size == ys.size &&
      listed.all fun entry => (Table.get? entry.1 ys).any (entry.2 == ·))
  operators (m : Machine) (below : List Value) : m.Supplies below [v, w] → ∃ room,
    Exec.execute ⟨.equal, []⟩ m = .ok none
      { m with stack := (m.stack.drop 2).push (.boolean (v == w)) room } ∧
    Exec.execute ⟨.notEqual, []⟩ m = .ok none
      { m with stack := (m.stack.drop 2).push (.boolean !(v == w)) room }

theorem equalityLaws (hv : v.Built) (hw : w.Built) : EqualityLaws u v w where
  refl := by rw [beq_eq_same, same_refl]
  symm := by rw [beq_eq_same, beq_eq_same, same_comm]
  trans huv hvw := by
    rw [beq_eq_same] at huv hvw ⊢
    exact same_trans huv hvw
  shortcut shared place sound := by rw [equals_eq_same sound place hv hw, beq_eq_same]
  kinds h := kind_eq_of_same (by rwa [beq_eq_same] at h)
  keys k l hk hl := by rw [beq_eq_same, same_iff_key?_eq hk, hl, Option.some_inj, eq_comm]
  keyless k hk hnone := by
    rw [beq_eq_same, Bool.eq_false_iff, ne_eq, same_iff_key?_eq hk, hnone]
    nofun
  entries xs ys hxs hys := by
    subst hxs hys
    rw [beq_eq_same]
    simp only [beq_eq_same]
    exact sameEntries_iff.trans (hv.sorted.corresponds_iff hw.sorted)
  iteration xs ys listed hxs hys perm := by
    subst hxs hys
    exact beq_hash_of_perm hv.sorted hw.sorted perm
  operators m below h := execute_equality h

theorem equalityLaws_nested_hashes :
    ∃ xs ys,
      Table.ofPairs [(string "a", hash #[(.integer 1, null)]), (boolean true, array #[])] =
        .ok xs ∧
      Table.ofPairs [(boolean true, array #[]), (string "a", null),
        (string "a", hash #[(.integer 1, null)])] = .ok ys ∧
      (hash xs).Built ∧ (hash ys).Built ∧ EqualityLaws (hash xs) (hash xs) (hash ys) := by
  have hnull : null.Built := by rintro _ ⟨⟩
  have hempty : (array #[]).Built := .of_array (by simp)
  have hinner : (hash #[(.integer 1, null)]).Built := by
    have made : Table.ofPairs [(integer 1, null)] = .ok #[(.integer 1, null)] := rfl
    exact .of_ofPairs made (by simpa using hnull)
  have once : Table.ofPairs [(string "a", hash #[(.integer 1, null)]), (boolean true, array #[])] =
      .ok #[(.boolean true, array #[]), (.string "a", hash #[(.integer 1, null)])] := rfl
  have again : Table.ofPairs [(boolean true, array #[]), (string "a", null),
      (string "a", hash #[(.integer 1, null)])] =
      .ok #[(.boolean true, array #[]), (.string "a", hash #[(.integer 1, null)])] := rfl
  have hxs := Built.of_ofPairs once (by simpa using ⟨hinner, hempty⟩)
  have hys := Built.of_ofPairs again (by simpa using ⟨hempty, hnull, hinner⟩)
  exact ⟨_, _, once, again, hxs, hys, equalityLaws hxs hys⟩

end Value
end BytecodeMachine

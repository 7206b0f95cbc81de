import BytecodeMachine.Value.Basic

/-!
# Equality of values

Data is compared by structure, objects by identity and builtins by name. Values of different kinds
are never equal. `same` says so part by part; `==` gives the same answer without looking into parts
that are one and the same in memory.
-/

namespace BytecodeMachine.Value

mutual

def same : Value → Value → Bool
  | null, null => true
  | integer m, integer n => m == n
  | boolean a, boolean b => a == b
  | string s, string t => s == t
  | array ⟨xs⟩, array ⟨ys⟩ => sameElements xs ys
  | hash ⟨xs⟩, hash ⟨ys⟩ => sameEntries xs ys
  | function f, function g => f.identity == g.identity
  | closure c, closure d => c.identity == d.identity
  | builtin a, builtin b => a.name == b.name
  | error s, error t => s == t
  | _, _ => false

def sameElements : List Value → List Value → Bool
  | [], [] => true
  | x :: xs, y :: ys => x.same y && sameElements xs ys
  | _, _ => false

def sameEntries : List (Key × Value) → List (Key × Value) → Bool
  | [], [] => true
  | (k, x) :: xs, (l, y) :: ys => k == l && x.same y && sameEntries xs ys
  | _, _ => false

end

mutual

theorem same_refl (v : Value) : v.same v = true := by
  cases v with
  | array elements => exact sameElements_refl elements.toList
  | hash entries => exact sameEntries_refl entries.toList
  | _ => simp [same]

theorem sameElements_refl : (xs : List Value) → sameElements xs xs = true
  | [] => rfl
  | x :: xs => by simp [sameElements, same_refl x, sameElements_refl xs]

theorem sameEntries_refl : (xs : List (Key × Value)) → sameEntries xs xs = true
  | [] => rfl
  | (k, x) :: xs => by simp [sameEntries, same_refl x, sameEntries_refl xs]

end

theorem sameElements_of_length_ne {xs ys : List Value} (h : xs.length ≠ ys.length) :
    sameElements xs ys = false := by
  induction xs generalizing ys with
  | nil => cases ys <;> simp_all [sameElements]
  | cons x xs ih => cases ys <;> simp_all [sameElements]

theorem sameEntries_of_length_ne {xs ys : List (Key × Value)} (h : xs.length ≠ ys.length) :
    sameEntries xs ys = false := by
  induction xs generalizing ys with
  | nil => cases ys <;> simp_all [sameEntries]
  | cons x xs ih => cases ys <;> simp_all [sameEntries]

theorem sameElements_drop {xs ys : Array Value} (h : xs.size = ys.size) {i : Nat}
    (hi : i < xs.size) :
    sameElements (xs.toList.drop i) (ys.toList.drop i) =
      (xs[i].same ys[i] && sameElements (xs.toList.drop (i + 1)) (ys.toList.drop (i + 1))) := by
  have hx := List.drop_eq_getElem_cons (l := xs.toList) (i := i) (by simpa using hi)
  have hy := List.drop_eq_getElem_cons (l := ys.toList) (i := i) (by simpa [← h] using hi)
  rw [hx, hy]
  rfl

theorem sameEntries_drop {xs ys : Array (Key × Value)} (h : xs.size = ys.size) {i : Nat}
    (hi : i < xs.size) :
    sameEntries (xs.toList.drop i) (ys.toList.drop i) =
      (xs[i].1 == ys[i].1 && xs[i].2.same ys[i].2 &&
        sameEntries (xs.toList.drop (i + 1)) (ys.toList.drop (i + 1))) := by
  have hx := List.drop_eq_getElem_cons (l := xs.toList) (i := i) (by simpa using hi)
  have hy := List.drop_eq_getElem_cons (l := ys.toList) (i := i) (by simpa [← h] using hi)
  rw [hx, hy]
  rfl

theorem sizeOf_snd_getElem_lt {entries : Array (Key × Value)} {i : Nat} (h : i < entries.size) :
    sizeOf entries[i].2 < sizeOf entries := by
  have hentry : sizeOf entries[i] < sizeOf entries := Array.sizeOf_getElem entries i h
  have : sizeOf entries[i] = 1 + sizeOf entries[i].1 + sizeOf entries[i].2 := rfl
  omega

/-- A computed answer to a question. -/
abbrev Answer (answer : Bool) := { computed : Bool // computed = answer }

/-- Compares two values, part by part only if they are not the same in memory. -/
@[inline] def compareWith (v w : Value) (parts : Unit → Answer (v.same w)) : Answer (v.same w) :=
  ⟨withPtrEq v w (fun _ => (parts ()).1) (fun h => (parts ()).2.trans (h ▸ same_refl v)),
    (parts ()).2⟩

mutual

/-- Compares arrays and hashes by their sizes first. -/
def compareParts : (v w : Value) → Answer (v.same w)
  | array xs, array ys =>
    if h : xs.size = ys.size then
      let ⟨computed, hcomputed⟩ := compareElements xs ys h 0
      ⟨computed, hcomputed⟩
    else ⟨false, (sameElements_of_length_ne (by simpa using h)).symm⟩
  | hash xs, hash ys =>
    if h : xs.size = ys.size then
      let ⟨computed, hcomputed⟩ := compareEntries xs ys h 0
      ⟨computed, hcomputed⟩
    else ⟨false, (sameEntries_of_length_ne (by simpa using h)).symm⟩
  | v, w => ⟨v.same w, rfl⟩
termination_by v => (sizeOf v, 0)

/-- Compares the elements from an index on. -/
def compareElements (xs ys : Array Value) (h : xs.size = ys.size) (i : Nat) :
    Answer (sameElements (xs.toList.drop i) (ys.toList.drop i)) :=
  if hi : i < xs.size then
    have hsplit := sameElements_drop h hi
    match compareWith xs[i] ys[i] fun _ => compareParts xs[i] ys[i] with
    | ⟨true, htrue⟩ =>
      let ⟨rest, hrest⟩ := compareElements xs ys h (i + 1)
      ⟨rest, by rw [hsplit, ← htrue, Bool.true_and, hrest]⟩
    | ⟨false, hfalse⟩ => ⟨false, by rw [hsplit, ← hfalse, Bool.false_and]⟩
  else ⟨true, by
    have hys : ys.toList.length ≤ i := by simpa [← h] using hi
    rw [List.drop_eq_nil_of_le (by simpa using hi), List.drop_eq_nil_of_le hys]
    rfl⟩
termination_by (sizeOf xs, xs.size - i)

/-- Compares the entries from an index on, the keys before the values. -/
def compareEntries (xs ys : Array (Key × Value)) (h : xs.size = ys.size) (i : Nat) :
    Answer (sameEntries (xs.toList.drop i) (ys.toList.drop i)) :=
  if hi : i < xs.size then
    have hsplit := sameEntries_drop h hi
    have hsize : sizeOf xs[i].2 < sizeOf xs := sizeOf_snd_getElem_lt hi
    if hkey : xs[i].1 = ys[i].1 then
      match compareWith xs[i].2 ys[i].2 fun _ => compareParts xs[i].2 ys[i].2 with
      | ⟨true, htrue⟩ =>
        let ⟨rest, hrest⟩ := compareEntries xs ys h (i + 1)
        ⟨rest, by
          rw [hsplit, ← htrue, hkey, beq_self_eq_true, Bool.true_and, Bool.true_and, hrest]⟩
      | ⟨false, hfalse⟩ => ⟨false, by rw [hsplit, ← hfalse, Bool.and_false, Bool.false_and]⟩
    else ⟨false, by rw [hsplit, beq_false_of_ne hkey, Bool.false_and, Bool.false_and]⟩
  else ⟨true, by
    have hys : ys.toList.length ≤ i := by simpa [← h] using hi
    rw [List.drop_eq_nil_of_le (by simpa using hi), List.drop_eq_nil_of_le hys]
    rfl⟩
termination_by (sizeOf xs, xs.size - i)

end

/-- Whether the value holds others that equality looks at. -/
def isContainer : Value → Bool
  | array _ | hash _ => true
  | _ => false

/-- Values without parts need no more than `same`. -/
def decideSame (v w : Value) : Answer (v.same w) :=
  if v.isContainer then compareWith v w fun _ => compareParts v w else ⟨v.same w, rfl⟩

instance : BEq Value where
  beq v w := (v.decideSame w).1

theorem beq_eq_same (v w : Value) : (v == w) = v.same w := (v.decideSame w).2

/-- Whether two arrays hold the same values, compared from front to back. -/
def sameArrays (xs ys : Array Value) : Bool := array xs == array ys

theorem sameArrays_eq (xs ys : Array Value) :
    sameArrays xs ys = sameElements xs.toList ys.toList := beq_eq_same _ _

end BytecodeMachine.Value

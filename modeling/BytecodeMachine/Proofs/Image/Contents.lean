import Mathlib.Data.Nat.Find
import BytecodeMachine.Proofs.Image.Programs

/-!
# Contents of images

A program has an image exactly if its pool holds storable constants only, and otherwise the first
other one is reported. The image settles the contents of the program: whatever follows it, what is
read back has the same code and the same constants. The two programs are equal only if the pool
holds no function, because every function that is read back is a new object.
-/

namespace BytecodeMachine

namespace Value

/-- Both are the same integer, the same string, or functions with the same body. -/
inductive SameContent : Value → Value → Prop where
  | integer (n : Int64) : SameContent (integer n) (integer n)
  | string (s : String) : SameContent (string s) (string s)
  | function {f g : Function} (code : f.code = g.code) (numLocals : f.numLocals = g.numLocals)
    (numParameters : f.numParameters = g.numParameters) : SameContent (function f) (function g)

variable {u v w : Value}

theorem SameContent.symm (h : v.SameContent w) : w.SameContent v := by
  cases h with
  | integer n => exact .integer n
  | string s => exact .string s
  | function code numLocals numParameters =>
    exact .function code.symm numLocals.symm numParameters.symm

theorem SameContent.trans (h : u.SameContent v) (h' : v.SameContent w) : u.SameContent w := by
  cases h with
  | integer n => exact h'
  | string s => exact h'
  | function code numLocals numParameters =>
    cases h' with
    | function code' numLocals' numParameters' =>
      exact .function (code.trans code') (numLocals.trans numLocals')
        (numParameters.trans numParameters')

theorem Storable.sameContent_numbered (storable : v.Storable) (n : Nat) :
    v.SameContent (v.numbered n) := by
  cases v with
  | integer m => exact .integer m
  | string s => exact .string s
  | function f => exact .function rfl rfl rfl
  | _ => exact storable.elim

/-- A constant is equal to itself with another object in it only if there is no object in it. -/
theorem Storable.same_numbered_iff {n : Nat} (storable : v.Storable)
    (fresh : v.identity? ≠ some (.given n)) :
    (v.numbered n).same v = true ↔ ∀ f, v ≠ .function f := by
  cases v with
  | integer m => exact iff_of_true (same_refl _) nofun
  | string s => exact iff_of_true (same_refl _) nofun
  | function f =>
    have hne : Identity.given n ≠ f.identity := fun h => fresh (congrArg some h.symm)
    exact iff_of_false (by simpa [numbered, same] using hne) fun h => h f rfl
  | _ => exact storable.elim

theorem sameElements_iff {vs ws : List Value} :
    sameElements vs ws = true ↔ vs.length = ws.length ∧
      ∀ (k : Nat) (v w : Value), vs[k]? = some v → ws[k]? = some w → v.same w = true := by
  induction vs generalizing ws with
  | nil => cases ws <;> simp [sameElements]
  | cons v vs ih =>
    cases ws with
    | nil => simp [sameElements]
    | cons w ws =>
      rw [sameElements, Bool.and_eq_true, ih, List.length_cons, List.length_cons]
      constructor
      · rintro ⟨hfirst, hlength, hrest⟩
        refine ⟨congrArg _ hlength, fun k => ?_⟩
        cases k with
        | zero => simpa using hfirst
        | succ k => simpa using hrest k
      · rintro ⟨hlength, h⟩
        exact ⟨h 0 v w rfl rfl, Nat.succ.inj hlength, fun k => h (k + 1)⟩

end Value

theorem Constant.ofValue?_eq_none {v : Value} (h : ¬v.Storable) : ofValue? v = none := by
  cases v with
  | integer n => exact absurd trivial h
  | string s => exact absurd trivial h
  | function f => exact if_neg h
  | _ => rfl

/-- The first constant without a place in an image is reported. -/
theorem Image.mapM_constantAt_eq_error {before after : List Value} {v : Value}
    (hbefore : ∀ w ∈ before, w.Storable) (hv : ¬v.Storable) (first : Nat) :
    ((before ++ v :: after).zipIdx first).mapM constantAt =
      .error (.unserializable (first + before.length) v.kind) := by
  induction before generalizing first with
  | nil =>
    have hconstant : constantAt (v, first) = .error (.unserializable first v.kind) := by
      rw [constantAt, Constant.ofValue?_eq_none hv]
    rw [List.nil_append, List.zipIdx_cons, List.mapM_cons, hconstant]
    rfl
  | cons w before ih =>
    obtain ⟨c, hc⟩ := Constant.exists_of_storable (hbefore w List.mem_cons_self)
    have hconstant : constantAt (w, first) = .ok c := by rw [constantAt, hc]
    have hrest := ih (fun u hu => hbefore u (List.mem_cons_of_mem w hu)) (first + 1)
    rw [List.cons_append, List.zipIdx_cons, List.mapM_cons, hconstant, hrest, List.length_cons,
      Nat.add_right_comm, Nat.add_assoc]
    rfl

namespace Program

variable {p q r : Program} {bytes : List UInt8} {start : Nat}

/-- The programs have the same code and, at each index of the pool, the same constant up to the
identity of a function. -/
structure SameContents (p q : Program) : Prop where
  code : q.code = p.code
  size : q.constants.size = p.constants.size
  constants : ∀ k v w, p.constants.get? k = some v → q.constants.get? k = some w → v.SameContent w

theorem SameContents.symm (h : p.SameContents q) : q.SameContents p :=
  ⟨h.code.symm, h.size.symm, fun k v w hv hw => (h.constants k w v hw hv).symm⟩

theorem SameContents.trans (h : p.SameContents q) (h' : q.SameContents r) : p.SameContents r where
  code := h'.code.trans h.code
  size := h'.size.trans h.size
  constants k u w hu hw := by
    have hk : k < q.constants.values.size := by
      have hlt := (Array.getElem?_eq_some_iff.mp hu).1
      exact Nat.lt_of_lt_of_eq hlt h.size.symm
    have hv : q.constants.get? k = some q.constants.values[k] := Array.getElem?_eq_getElem hk
    exact (h.constants k u _ hu hv).trans (h'.constants k _ w hv hw)

/-- Numbers from `start` on are free for new objects. -/
def NumberedBelow (p : Program) (start : Nat) : Prop :=
  ∀ v ∈ p.constants.values, ∀ n, v.identity? = some (.given n) → n < start

section Decoded

variable (constants : ∀ k, q.constants.get? k =
  (p.constants.get? k).map (Value.numbered (start + k)))

include constants

theorem size_of_numbered : q.constants.size = p.constants.size := by
  have hiff (k : Nat) : q.constants.values.size ≤ k ↔ p.constants.values.size ≤ k := by
    rw [← Array.getElem?_eq_none_iff, ← Array.getElem?_eq_none_iff]
    have hk := constants k
    simp only [Pool.get?] at hk
    rw [hk, Option.map_eq_none_iff]
  exact Nat.le_antisymm ((hiff _).mpr le_rfl) ((hiff _).mp le_rfl)

theorem sameContents_of_numbered (storable : ∀ v ∈ p.constants.values, v.Storable)
    (code : q.code = p.code) : p.SameContents q where
  code := code
  size := size_of_numbered constants
  constants k v w hv hw := by
    rw [constants, hv, Option.map_some] at hw
    obtain rfl := Option.some.inj hw
    exact (storable v (Array.mem_of_getElem? hv)).sameContent_numbered _

/-- Copies of functions are never equal to the functions, all else is. -/
theorem beq_iff_of_numbered (storable : ∀ v ∈ p.constants.values, v.Storable)
    (code : q.code = p.code) (below : p.NumberedBelow start) :
    (q == p) = true ↔ ∀ f, .function f ∉ p.constants.values := by
  have hsame {k : Nat} {v : Value} (hv : p.constants.get? k = some v) :
      (v.numbered (start + k)).same v = true ↔ ∀ f, v ≠ .function f := by
    have hmem := Array.mem_of_getElem? hv
    refine (storable v hmem).same_numbered_iff fun h => ?_
    have := below v hmem _ h
    omega
  change (q.code == p.code && Value.sameArrays q.constants.values p.constants.values) = true ↔ _
  rw [code, beq_self_eq_true, Bool.true_and, Value.sameArrays_eq, Value.sameElements_iff]
  constructor
  · rintro ⟨-, h⟩ f hf
    obtain ⟨k, hk⟩ := Array.getElem?_of_mem hf
    have hcopy : q.constants.get? k = some ((Value.function f).numbered (start + k)) := by
      rw [constants]
      exact congrArg (Option.map _) hk
    have heq := h k _ _ (Array.getElem?_toList.trans hcopy) (Array.getElem?_toList.trans hk)
    exact (hsame hk).mp heq f rfl
  · intro h
    refine ⟨size_of_numbered constants, fun k w v hw hv => ?_⟩
    have hv : p.constants.get? k = some v := Array.getElem?_toList.symm.trans hv
    have hw : q.constants.get? k = some w := Array.getElem?_toList.symm.trans hw
    rw [constants, hv, Option.map_some] at hw
    obtain rfl := Option.some.inj hw
    exact (hsame hv).mpr fun f hf => h f (hf ▸ Array.mem_of_getElem? hv)

end Decoded

/-- A program is refused for the first constant of its pool that is not storable. -/
theorem encode_eq_error {k : Nat} {v : Value} (hv : p.constants.get? k = some v)
    (hfail : ¬v.Storable)
    (hbefore : ∀ j < k, ∀ w, p.constants.get? j = some w → w.Storable) :
    p.encode = .error (.unserializable k v.kind) := by
  have hk : k < p.constants.values.toList.length := (Array.getElem?_eq_some_iff.mp hv).1
  have hget : p.constants.values.toList[k] = v := by
    rw [Array.getElem_toList]
    exact (Array.getElem?_eq_some_iff.mp hv).2
  have hsplit : p.constants.values.toList =
      p.constants.values.toList.take k ++ v :: p.constants.values.toList.drop (k + 1) := by
    rw [← hget, ← List.drop_eq_getElem_cons hk, List.take_append_drop]
  have hstorable : ∀ w ∈ p.constants.values.toList.take k, w.Storable := by
    intro w hw
    obtain ⟨j, hj⟩ := List.getElem?_of_mem hw
    rw [List.getElem?_take, Option.ite_none_right_eq_some, Array.getElem?_toList] at hj
    exact hbefore j hj.1 w hj.2
  have hmapM : ((p.constants.values.toList.take k ++
      v :: p.constants.values.toList.drop (k + 1)).zipIdx 0).mapM Image.constantAt = _ :=
    Image.mapM_constantAt_eq_error hstorable hfail 0
  rw [← hsplit, List.length_take_of_le (Nat.le_of_lt hk), Nat.zero_add] at hmapM
  rw [encode, Image.ofProgram, hmapM]
  rfl

open Classical in
/-- Every pool is storable up to some index. -/
theorem storable_or_exists_first (p : Program) :
    (∀ v ∈ p.constants.values, v.Storable) ∨
      ∃ k v, p.constants.get? k = some v ∧ ¬v.Storable ∧
        ∀ j < k, ∀ w, p.constants.get? j = some w → w.Storable := by
  by_cases h : ∃ k v, p.constants.get? k = some v ∧ ¬v.Storable
  · obtain ⟨v, hv, hfail⟩ := Nat.find_spec h
    refine .inr ⟨Nat.find h, v, hv, hfail, fun j hj w hw => ?_⟩
    by_contra hother
    exact Nat.find_min h hj ⟨w, hw, hother⟩
  · refine .inl fun v hv => ?_
    by_contra hfail
    obtain ⟨k, hk⟩ := Array.getElem?_of_mem hv
    exact h ⟨k, v, hk, hfail⟩

/-- A program and its image settle each other's contents. -/
structure RoundTrips (p : Program) : Prop where
  /-- There is an image exactly if the pool holds integers, strings and functions of moderate size
  only. -/
  encode_eq_ok_iff : (∃ bytes, p.encode = .ok bytes) ↔ ∀ v ∈ p.constants.values, v.Storable
  /-- If there is none, the first other constant is reported with its index and its kind. -/
  encode_eq_error_iff : ∀ e, p.encode = .error e ↔
    ∃ k v, e = .unserializable k v.kind ∧ p.constants.get? k = some v ∧ ¬v.Storable ∧
      ∀ j < k, ∀ w, p.constants.get? j = some w → w.Storable
  /-- Whatever follows the image, a program with the same contents is read back. If its functions
  are objects that the program did not have, the two are equal exactly if there are none. -/
  decode_append : ∀ bytes start rest, p.encode = .ok bytes →
    ∃ q, decode start (bytes ++ rest) = .ok q ∧ p.SameContents q ∧
      (p.NumberedBelow start → ((q == p) = true ↔ ∀ f, .function f ∉ p.constants.values))
  /-- Another program with the same image has the same contents. -/
  sameContents : ∀ q bytes, q.Addressable → p.encode = .ok bytes → q.encode = .ok bytes →
    p.SameContents q

theorem storable_of_encode (h : p.encode = .ok bytes) : ∀ v ∈ p.constants.values, v.Storable := by
  rcases p.storable_or_exists_first with storable | ⟨k, v, hv, hfail, hbefore⟩
  · exact storable
  · cases h.symm.trans (encode_eq_error hv hfail hbefore)

theorem exists_decoded_append (addressable : p.Addressable) (h : p.encode = .ok bytes)
    (start : Nat) (rest : List UInt8) :
    ∃ q, decode start (bytes ++ rest) = .ok q ∧ p.SameContents q ∧
      (p.NumberedBelow start → ((q == p) = true ↔ ∀ f, .function f ∉ p.constants.values)) := by
  have storable := storable_of_encode h
  obtain ⟨written, hencode, hdecode⟩ := exists_encoded storable addressable
  obtain rfl := Except.ok.inj (h.symm.trans hencode)
  obtain ⟨q, hq, hcode, hconstants⟩ := hdecode start rest
  exact ⟨q, hq, sameContents_of_numbered hconstants storable hcode,
    beq_iff_of_numbered hconstants storable hcode⟩

theorem roundTrips_of_addressable (p : Program) (addressable : p.Addressable) : p.RoundTrips where
  encode_eq_ok_iff := by
    refine ⟨fun ⟨bytes, h⟩ => storable_of_encode h, fun storable => ?_⟩
    obtain ⟨bytes, hencode, -⟩ := exists_encoded storable addressable
    exact ⟨bytes, hencode⟩
  encode_eq_error_iff e := by
    constructor
    · intro h
      rcases p.storable_or_exists_first with storable | ⟨k, v, hv, hfail, hbefore⟩
      · obtain ⟨bytes, hencode, -⟩ := exists_encoded storable addressable
        cases h.symm.trans hencode
      · have herror := encode_eq_error hv hfail hbefore
        exact ⟨k, v, Except.error.inj (h.symm.trans herror), hv, hfail, hbefore⟩
    · rintro ⟨k, v, rfl, hv, hfail, hbefore⟩
      exact encode_eq_error hv hfail hbefore
  decode_append bytes start rest h := exists_decoded_append addressable h start rest
  sameContents q bytes other h h' := by
    obtain ⟨r, hr, hcontents, -⟩ := exists_decoded_append addressable h 0 []
    obtain ⟨r', hr', hcontents', -⟩ := exists_decoded_append other h' 0 []
    obtain rfl := Except.ok.inj (hr.symm.trans hr')
    exact hcontents.trans hcontents'.symm

/-- A program with one constant of each kind that an image holds. -/
def oneOfEach : Program where
  code := #[0, 0, 0, 0, 0, 1, 0, 0, 2]
  constants := ((Pool.empty.push (.integer Int64.minValue) (Value.given_integer _)).push
    (.string "ß") (Value.given_string _)).push
    (.function ⟨.given 0, #[28, 0, 22], 4294967295, 0⟩)
    (Value.given_function (Identity.isGiven_given 0))

theorem roundTrips_oneOfEach :
    oneOfEach.Addressable ∧ oneOfEach.NumberedBelow 1 ∧ oneOfEach.RoundTrips ∧
      ∃ bytes q, oneOfEach.encode = .ok bytes ∧ decode 1 (bytes ++ [255]) = .ok q ∧
        oneOfEach.SameContents q ∧ (q == oneOfEach) = false := by
  have mem_iff {v : Value} (hv : v ∈ oneOfEach.constants.values) :
      v = .integer Int64.minValue ∨ v = .string "ß" ∨
        v = .function ⟨.given 0, #[28, 0, 22], 4294967295, 0⟩ := by
    simpa [oneOfEach, Pool.push, Pool.empty, or_assoc] using hv
  have addressable : oneOfEach.Addressable := by
    refine ⟨by decide, by decide, fun v hv => ?_⟩
    rcases mem_iff hv with rfl | rfl | rfl
    · trivial
    · exact (by decide : 2 < UInt64.size)
    · exact (by decide : 3 < UInt64.size)
  have below : oneOfEach.NumberedBelow 1 := by
    intro v hv n hn
    rcases mem_iff hv with rfl | rfl | rfl
    · cases hn
    · cases hn
    · cases hn
      exact Nat.one_pos
  have roundTrips := roundTrips_of_addressable oneOfEach addressable
  have storable : ∀ v ∈ oneOfEach.constants.values, v.Storable := by
    intro v hv
    rcases mem_iff hv with rfl | rfl | rfl
    · trivial
    · trivial
    · exact ⟨by decide, by decide⟩
  obtain ⟨bytes, hencode⟩ := roundTrips.encode_eq_ok_iff.mpr storable
  obtain ⟨q, hdecode, contents, hbeq⟩ := roundTrips.decode_append bytes 1 [255] hencode
  refine ⟨addressable, below, roundTrips, bytes, q, hencode, hdecode, contents, ?_⟩
  rw [Bool.eq_false_iff, ne_eq, hbeq below]
  exact fun h => h ⟨.given 0, #[28, 0, 22], 4294967295, 0⟩ (by simp [oneOfEach, Pool.push])

end Program
end BytecodeMachine

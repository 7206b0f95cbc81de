import BytecodeMachine.Proofs.Image.RoundTrip

/-!
# Round trip of programs

A program that an image can hold is read back from its bytes up to the identities of its functions:
the function at an index of the pool becomes the object with the number of that index.
-/

namespace BytecodeMachine

/-- The value is an integer, a string, or a function whose slots are counted in 32 bits. -/
def Value.Storable : Value → Prop
  | integer _ => True
  | string _ => True
  | function f => f.numLocals < UInt32.size ∧ f.numParameters < UInt32.size
  | _ => False

/-- The bytes of a string or of a function's code are counted in 64 bits. -/
def Value.Addressable : Value → Prop
  | string s => s.utf8ByteSize < UInt64.size
  | function f => f.code.size < UInt64.size
  | _ => True

/-- The pool holds storable constants only, and each function at one index only. -/
structure Program.Storable (p : Program) : Prop where
  constants : ∀ v ∈ p.constants.values, v.Storable
  distinct : ∀ j k f g, p.constants.get? j = some (.function f) →
    p.constants.get? k = some (.function g) → f.identity = g.identity → j = k

/-- All lengths in the program are numbers of 64 bits, as they are wherever it fits in a memory
with addresses of that size. -/
structure Program.Addressable (p : Program) : Prop where
  code : p.code.size < UInt64.size
  pool : p.constants.size < UInt64.size
  constants : ∀ v ∈ p.constants.values, v.Addressable

/-- The value with a function in it made the object of that number. -/
def Value.numbered (n : Nat) : Value → Value
  | function f => function { f with identity := .given n }
  | v => v

namespace Constant

variable {v : Value} {c : Constant}

theorem ofValue?_function {f : Function} :
    ofValue? (.function f) = some c ↔
      (f.numLocals < UInt32.size ∧ f.numParameters < UInt32.size) ∧
        function f.code f.numLocals.toUInt32 f.numParameters.toUInt32 = c := by
  rw [ofValue?, Option.ite_none_right_eq_some, Option.some.injEq]

theorem exists_of_storable (h : v.Storable) : ∃ c, ofValue? v = some c := by
  cases v with
  | integer n => exact ⟨_, rfl⟩
  | string s => exact ⟨_, rfl⟩
  | function f => exact ⟨_, if_pos h⟩
  | _ => exact h.elim

theorem fits_of_ofValue? (h : ofValue? v = some c) (addressable : v.Addressable) : c.Fits := by
  cases v with
  | integer n =>
    cases h
    trivial
  | string s =>
    cases h
    exact addressable
  | function f =>
    obtain ⟨-, rfl⟩ := ofValue?_function.mp h
    exact addressable
  | _ => cases h

theorem toValue_of_ofValue? (h : ofValue? v = some c) (n : Nat) : c.toValue n = v.numbered n := by
  cases v with
  | integer m =>
    cases h
    rfl
  | string s =>
    cases h
    rfl
  | function f =>
    obtain ⟨⟨locals_lt, parameters_lt⟩, rfl⟩ := ofValue?_function.mp h
    have hlocals : f.numLocals.toUInt32.toNat = f.numLocals := UInt32.toNat_ofNat_of_lt' locals_lt
    have hparameters : f.numParameters.toUInt32.toNat = f.numParameters :=
      UInt32.toNat_ofNat_of_lt' parameters_lt
    rw [toValue, hlocals, hparameters]
    rfl
  | _ => cases h

end Constant

namespace Image

theorem mapM_constantAt {vs : List Value} (h : ∀ v ∈ vs, v.Storable) (first : Nat) :
    ∃ constants, (vs.zipIdx first).mapM constantAt = .ok constants ∧
      constants.map some = vs.map Constant.ofValue? := by
  induction vs generalizing first with
  | nil => exact ⟨[], rfl, rfl⟩
  | cons v vs ih =>
    obtain ⟨c, hc⟩ := Constant.exists_of_storable (h v List.mem_cons_self)
    obtain ⟨constants, hmapM, hmap⟩ :=
      ih (fun w hw => h w (List.mem_cons_of_mem v hw)) (first + 1)
    refine ⟨c :: constants, ?_, ?_⟩
    · have hfirst : constantAt (v, first) = .ok c := by rw [constantAt, hc]
      rw [List.zipIdx_cons, List.mapM_cons, hfirst, hmapM]
      rfl
    · rw [List.map_cons, List.map_cons, hmap, hc]

end Image

namespace Program

variable {p : Program}

/-- A program of storable constants has an image, which lists the constants of its pool. -/
theorem exists_image (storable : ∀ v ∈ p.constants.values, v.Storable) :
    ∃ image, Image.ofProgram p = .ok image ∧ image.code = p.code ∧
      image.constants.map some = p.constants.values.toList.map Constant.ofValue? := by
  obtain ⟨constants, hmapM, hmap⟩ :=
    Image.mapM_constantAt (fun v hv => storable v (Array.mem_toList_iff.mp hv)) 0
  refine ⟨⟨p.code, constants⟩, ?_, rfl, hmap⟩
  rw [Image.ofProgram, hmapM]
  rfl

theorem Addressable.fits (addressable : p.Addressable) {image : Image}
    (code : image.code = p.code)
    (constants : image.constants.map some = p.constants.values.toList.map Constant.ofValue?) :
    image.Fits where
  code := code ▸ addressable.code
  count := by
    have hlength := congrArg List.length constants
    rw [List.length_map, List.length_map, Array.length_toList] at hlength
    exact hlength ▸ addressable.pool
  constants c hc := by
    have hmem : some c ∈ p.constants.values.toList.map Constant.ofValue? :=
      constants ▸ List.mem_map_of_mem hc
    obtain ⟨v, hv, hofValue⟩ := List.mem_map.mp hmem
    have haddressable := addressable.constants v (Array.mem_toList_iff.mp hv)
    exact Constant.fits_of_ofValue? hofValue haddressable

/-- Whatever follows the image of a program, the decoded program has the same code and, at each
index of the pool, the same constant with an identity of its own. -/
theorem exists_encoded (storable : ∀ v ∈ p.constants.values, v.Storable)
    (addressable : p.Addressable) :
    ∃ bytes, p.encode = .ok bytes ∧ ∀ start rest, ∃ q, decode start (bytes ++ rest) = .ok q ∧
      q.code = p.code ∧
      ∀ k, q.constants.get? k = (p.constants.get? k).map (Value.numbered (start + k)) := by
  obtain ⟨image, hofProgram, hcode, hconstants⟩ := exists_image storable
  refine ⟨image.encode, ?_, fun start rest => ⟨image.toProgram start, ?_, hcode, ?_⟩⟩
  · rw [encode, hofProgram]
    rfl
  · rw [decode, Image.decode_encode (addressable.fits hcode hconstants) rest]
    rfl
  · intro k
    have hk : image.constants[k]?.map some = (p.constants.get? k).map Constant.ofValue? := by
      rw [← List.getElem?_map, hconstants, List.getElem?_map, Array.getElem?_toList]
      rfl
    have hget : (image.toProgram start).constants.get? k =
        image.constants[k]?.map fun c => c.toValue (start + k) := by
      simp [Image.toProgram, Image.toPool, Pool.get?]
    rw [hget]
    cases hc : image.constants[k]? with
    | none =>
      rw [hc] at hk
      rw [Option.map_eq_none_iff.mp hk.symm]
      rfl
    | some c =>
      rw [hc] at hk
      obtain ⟨v, hv, hofValue⟩ := Option.map_eq_some_iff.mp hk.symm
      rw [hv, Option.map_some, Option.map_some, Constant.toValue_of_ofValue? hofValue]

theorem exists_decoded (storable : p.Storable) (addressable : p.Addressable) (start : Nat) :
    ∃ bytes q, p.encode = .ok bytes ∧ decode start bytes = .ok q ∧ q.code = p.code ∧
      ∀ k, q.constants.get? k = (p.constants.get? k).map (Value.numbered (start + k)) := by
  obtain ⟨bytes, hencode, hdecode⟩ := exists_encoded storable.constants addressable
  obtain ⟨q, hq, hcode, hconstants⟩ := hdecode start []
  rw [List.append_nil] at hq
  exact ⟨bytes, q, hencode, hq, hcode, hconstants⟩

end Program
end BytecodeMachine

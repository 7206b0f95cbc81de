import BytecodeMachine.Proofs.Frames.Layout
import BytecodeMachine.Proofs.Image.Programs
import BytecodeMachine.Proofs.Relabelling.Run

/-!
# Behaviour of decoded programs

A program that is read back from its image does what the original does. Its functions are other
objects, so the two runs are the same only up to a relabelling of identities.
-/

namespace BytecodeMachine

namespace Program

variable {p : Program} {i j : Identity} {k start : Nat}

/-- The first index at which the pool holds the object. -/
def indexOf? (p : Program) (i : Identity) : Option Nat :=
  p.constants.values.findIdx? fun v => v.identity? == some i

theorem exists_of_indexOf? (h : p.indexOf? i = some k) :
    k < p.constants.size ∧ ∃ v, p.constants.get? k = some v ∧ v.identity? = some i := by
  obtain ⟨hk, hi, -⟩ := Array.findIdx?_eq_some_iff_getElem.mp h
  exact ⟨hk, _, Array.getElem?_eq_getElem hk, eq_of_beq hi⟩

/-- An object that lies at one index only has that index. -/
theorem Storable.indexOf?_eq (storable : p.Storable) {f : Function}
    (h : p.constants.get? k = some (.function f)) : p.indexOf? f.identity = some k := by
  cases hindex : p.indexOf? f.identity with
  | none =>
    have hother := Array.findIdx?_eq_none_iff.mp hindex _ (Array.mem_of_getElem? h)
    simp [Value.identity?] at hother
  | some l =>
    obtain ⟨-, v, hv, hidentity⟩ := exists_of_indexOf? hindex
    have hstorable := storable.constants v (Array.mem_of_getElem? hv)
    cases v with
    | function g =>
      have heq : f.identity = g.identity := (Option.some.inj hidentity).symm
      rw [storable.distinct k l f g h hv heq]
    | closure c => exact hstorable.elim
    | _ => cases hidentity

/-- The new number of an object: its index in the pool comes first, behind an offset, and objects
that are not in the pool make way. -/
def number (p : Program) (start n : Nat) : Nat :=
  match p.indexOf? (.given n) with
  | some k => start + k
  | none => start + p.constants.size + n

theorem number_injective {m n : Nat} (h : p.number start m = p.number start n) : m = n := by
  simp only [number] at h
  cases hm : p.indexOf? (.given m) with
  | none =>
    cases hn : p.indexOf? (.given n) with
    | none =>
      simp only [hm, hn] at h
      omega
    | some l =>
      obtain ⟨hl, -⟩ := exists_of_indexOf? hn
      simp only [hm, hn] at h
      omega
  | some k =>
    obtain ⟨hk, v, hv, hidentity⟩ := exists_of_indexOf? hm
    cases hn : p.indexOf? (.given n) with
    | none =>
      simp only [hm, hn] at h
      omega
    | some l =>
      obtain ⟨-, w, hw, hother⟩ := exists_of_indexOf? hn
      simp only [hm, hn] at h
      obtain rfl : k = l := by omega
      obtain rfl : v = w := Option.some.inj (hv.symm.trans hw)
      cases hidentity.symm.trans hother
      rfl

/-- Takes each function of the pool to its copy in the decoded program. -/
def renumbering (p : Program) (start : Nat) : Relabelling where
  identity
    | .main => .main
    | .given n => .given (p.number start n)
    | .created n => .created n
  code := Function.code
  injective i j h := by
    cases i with
    | main => cases j <;> first | rfl | cases h
    | given m =>
      cases j with
      | given n => exact congrArg Identity.given (number_injective (Identity.given.inj h))
      | _ => cases h
    | created m =>
      cases j with
      | created n => exact h
      | _ => cases h
  identity_main := rfl
  identity_created _ := rfl
  isGiven := by
    rintro _ ⟨n, rfl⟩
    exact Identity.isGiven_given _

theorem keepsCode_renumbering : (p.renumbering start).KeepsCode := fun _ => rfl

theorem Storable.value_renumbering (storable : p.Storable) {v : Value}
    (h : p.constants.get? k = some v) :
    (p.renumbering start).value v = v.numbered (start + k) := by
  have hstorable := storable.constants v (Array.mem_of_getElem? h)
  cases v with
  | integer n => exact Relabelling.value_integer _ n
  | string s => exact Relabelling.value_string _ s
  | function f =>
    have hindex := storable.indexOf?_eq h
    -- An object of the pool was there before the run, so it has a number.
    obtain ⟨n, hn⟩ := Pool.given_of_get? h _ .here _ rfl
    rw [hn] at hindex
    rw [Relabelling.value_function, Relabelling.function, Value.numbered, hn]
    simp only [renumbering, number, hindex]
  | _ => exact hstorable.elim

/-- An image can be made of the program, and the program that is read back from it goes through the
same run under all limits and registries, where each function of the pool stands for its copy and
each closure for the one that is made at the same step. -/
theorem decoded_mirrors (storable : p.Storable) (addressable : p.Addressable) (start : Nat) :
    ∃ (bytes : List UInt8) (q : Program) (ρ : Relabelling),
      p.encode = .ok bytes ∧ decode start bytes = .ok q ∧ ρ.KeepsCode ∧ q.code = p.code ∧
      (∀ k, q.constants.get? k = (p.constants.get? k).map ρ.value) ∧
      ∀ limits builtins, ρ.Mirrors p q ⟨limits, builtins, Host.standard⟩ := by
  obtain ⟨bytes, q, hencode, hdecode, hcode, hconstants⟩ :=
    exists_decoded storable addressable start
  have hrenumbering : ∀ k, q.constants.get? k =
      (p.constants.get? k).map (p.renumbering start).value := by
    intro k
    rw [hconstants]
    cases hk : p.constants.get? k with
    | none => rfl
    | some v => exact congrArg some (storable.value_renumbering hk).symm
  refine ⟨bytes, q, p.renumbering start, hencode, hdecode, keepsCode_renumbering, hcode,
    hrenumbering, ?_⟩
  intro limits builtins
  have hload := keepsCode_renumbering.load_eq hcode hrenumbering ⟨limits, builtins, Host.standard⟩
  exact keepsCode_renumbering.mirrors (Relabelling.respects_standard _) hload

theorem storable_callOnce : Machine.callOnce.Storable where
  constants v hv := by
    obtain rfl : v = _ := List.mem_singleton.mp (Array.mem_toList_iff.mpr hv)
    exact ⟨by decide, by decide⟩
  distinct j k f g hj hk _ := by
    have zero_of_get? : ∀ l h, Machine.callOnce.constants.get? l = some (.function h) → l = 0 := by
      intro l h hl
      have hlt := (Array.getElem?_eq_some_iff.mp hl).1
      exact Nat.lt_one_iff.mp hlt
    rw [zero_of_get? j f hj, zero_of_get? k g hk]

theorem addressable_callOnce : Machine.callOnce.Addressable where
  code := by decide
  pool := by decide
  constants v hv := by
    obtain rfl : v = _ := List.mem_singleton.mp (Array.mem_toList_iff.mpr hv)
    exact (by decide : 10 < UInt64.size)

theorem decoded_mirrors_callOnce :
    Machine.callOnce.Storable ∧ Machine.callOnce.Addressable ∧
      ∃ (bytes : List UInt8) (q : Program) (ρ : Relabelling),
        Machine.callOnce.encode = .ok bytes ∧ decode 5 bytes = .ok q ∧ ρ.KeepsCode ∧
        q.code = Machine.callOnce.code ∧
        (∀ k, q.constants.get? k = (Machine.callOnce.constants.get? k).map ρ.value) ∧
        ∀ limits builtins, ρ.Mirrors Machine.callOnce q ⟨limits, builtins, Host.standard⟩ :=
  ⟨storable_callOnce, addressable_callOnce,
    decoded_mirrors storable_callOnce addressable_callOnce 5⟩

end Program
end BytecodeMachine

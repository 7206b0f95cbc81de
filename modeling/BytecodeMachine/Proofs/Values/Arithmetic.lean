import BytecodeMachine.Proofs.Expressions.Delivery
import Mathlib.Data.Int.ModEq
import Mathlib.Algebra.Order.Group.Unbundled.Int

/-!
# Arithmetic on integers

Each operator answers with the only integer that is congruent to the exact result. Division
truncates toward zero, and what it leaves of its left operand is a remainder smaller than the right
one. Only two integers, or two strings to be joined, are operands of an operator.
-/

namespace BytecodeMachine

/-- The integer is the only one that is congruent to the number modulo 2 ^ 64. -/
def Wraps (n : Int64) (x : Int) : Prop := ∀ k : Int64, k.toInt ≡ x [ZMOD 2 ^ 64] ↔ k = n

namespace Wraps

variable {n l r : Int64} {x : Int}

theorem modEq (h : Wraps n x) : n.toInt ≡ x [ZMOD 2 ^ 64] := (h n).mpr rfl

/-- No two integers are congruent to one another. -/
theorem of_modEq (h : n.toInt ≡ x [ZMOD 2 ^ 64]) : Wraps n x := by
  intro k
  constructor
  · intro hk
    have hn := n.le_toInt
    have hn' := n.toInt_lt
    have hk' := k.le_toInt
    have hk'' := k.toInt_lt
    obtain ⟨c, hc⟩ := (hk.trans h.symm).dvd
    exact Int64.toInt_inj.mp (by omega)
  · rintro rfl
    exact h

theorem of_toInt_eq (h : n.toInt = x.bmod (2 ^ 64)) : Wraps n x := by
  refine .of_modEq ?_
  rw [h]
  exact Int.bmod_emod

/-- A number within the range of the integers is not wrapped. -/
theorem toInt_eq (h : Wraps n x) (lower : -2 ^ 63 ≤ x) (upper : x < 2 ^ 63) : n.toInt = x := by
  have hn := n.le_toInt
  have hn' := n.toInt_lt
  obtain ⟨c, hc⟩ := h.modEq.dvd
  omega

theorem add (l r : Int64) : Wraps (l + r) (l.toInt + r.toInt) := .of_toInt_eq (l.toInt_add r)

theorem sub (l r : Int64) : Wraps (l - r) (l.toInt - r.toInt) := .of_toInt_eq (l.toInt_sub r)

theorem mul (l r : Int64) : Wraps (l * r) (l.toInt * r.toInt) := .of_toInt_eq (l.toInt_mul r)

theorem div (l r : Int64) : Wraps (l / r) (l.toInt.tdiv r.toInt) := .of_toInt_eq (l.toInt_div r)

theorem neg (l : Int64) : Wraps (-l) (-l.toInt) := .of_toInt_eq l.toInt_neg

end Wraps

namespace Arithmetic

/-- The result of the operator without bounds. Division truncates toward zero. -/
def exact : Arithmetic → Int → Int → Int
  | add, l, r => l + r
  | sub, l, r => l - r
  | mul, l, r => l * r
  | div, l, r => l.tdiv r

variable {op : Arithmetic} {l r : Int64}

theorem wraps_integers (op : Arithmetic) (l r : Int64) (divides : op = .div → r ≠ 0) :
    ∃ n, op.integers l r = .ok n ∧ Wraps n (op.exact l.toInt r.toInt) := by
  cases op with
  | add => exact ⟨l + r, rfl, .add l r⟩
  | sub => exact ⟨l - r, rfl, .sub l r⟩
  | mul => exact ⟨l * r, rfl, .mul l r⟩
  | div => exact ⟨l / r, if_neg (divides rfl), .div l r⟩

theorem integers_div_eq_error_iff : div.integers l r = .error .divisionByZero ↔ r = 0 := by
  rw [integers]
  by_cases hr : r = 0 <;> simp [hr]

/-- Of all quotients only one lies outside the range of the integers. -/
theorem toInt_div_eq_tdiv_iff :
    (l / r).toInt = l.toInt.tdiv r.toInt ↔ ¬(l.toInt = -2 ^ 63 ∧ r.toInt = -1) := by
  constructor
  · rintro h ⟨hl, hr⟩
    rw [Int64.toInt_div, hl, hr] at h
    exact absurd h (by decide)
  · intro h
    rw [Decidable.not_and_iff_not_or_not] at h
    rcases h with hl | hr
    · refine Int64.toInt_div_of_ne_left l r fun heq => hl ?_
      rw [heq]
      rfl
    · refine Int64.toInt_div_of_ne_right l r fun heq => hr ?_
      rw [heq]
      rfl

/-- What division leaves of its left operand. -/
def remainder (l r : Int64) : Int64 := l - l / r * r

theorem tmod_range (hr : r ≠ 0) :
    |l.toInt.tmod r.toInt| < |r.toInt| ∧ -2 ^ 63 ≤ l.toInt.tmod r.toInt ∧
      l.toInt.tmod r.toInt < 2 ^ 63 := by
  have hr' : r.toInt ≠ 0 := fun h => hr (Int64.toInt_inj.mp h)
  have hlower := r.le_toInt
  have hupper := r.toInt_lt
  have hlt : (l.toInt.tmod r.toInt).natAbs < r.toInt.natAbs := by
    rw [Int.natAbs_tmod]
    exact Nat.mod_lt _ (Int.natAbs_pos.mpr hr')
  refine ⟨?_, by omega, by omega⟩
  rw [Int.abs_eq_natAbs, Int.abs_eq_natAbs]
  exact Int.ofNat_lt.mpr hlt

/-- The wraps of the quotient, the product and the difference cancel each other out. -/
theorem toInt_remainder (hr : r ≠ 0) : (remainder l r).toInt = l.toInt.tmod r.toInt := by
  obtain ⟨-, lower, upper⟩ := tmod_range (l := l) hr
  refine Wraps.toInt_eq (.of_modEq ?_) lower upper
  calc (remainder l r).toInt
      ≡ l.toInt - (l / r * r).toInt [ZMOD 2 ^ 64] := (Wraps.sub l (l / r * r)).modEq
    _ ≡ l.toInt - (l / r).toInt * r.toInt [ZMOD 2 ^ 64] :=
        (Int.ModEq.refl _).sub (Wraps.mul (l / r) r).modEq
    _ ≡ l.toInt - l.toInt.tdiv r.toInt * r.toInt [ZMOD 2 ^ 64] :=
        (Int.ModEq.refl _).sub ((Wraps.div l r).modEq.mul_right _)
    _ = l.toInt.tmod r.toInt := by
        rw [Int.tmod_def, mul_comm]

theorem sign_remainder (hr : r ≠ 0) :
    remainder l r = 0 ∨ (remainder l r).toInt.sign = l.toInt.sign := by
  by_cases hdvd : r.toInt ∣ l.toInt
  · refine .inl (Int64.toInt_inj.mp ?_)
    rw [toInt_remainder hr, Int.tmod_eq_zero_of_dvd hdvd]
    rfl
  · refine .inr ?_
    rw [toInt_remainder hr, Int.sign_tmod, if_neg hdvd]

theorem values_of_kinds {left right : Value}
    (integers : ¬(left.kind = .integer ∧ right.kind = .integer))
    (strings : ¬(op = .add ∧ left.kind = .string ∧ right.kind = .string)) :
    op.values left right = .error (.operandKinds op.opcode left.kind right.kind) := by
  unfold values
  split
  · exact absurd ⟨rfl, rfl⟩ integers
  · exact absurd ⟨rfl, rfl, rfl⟩ strings
  · rfl

/-- The laws of the operators on two integers. -/
structure IntegerLaws (l r : Int64) : Prop where
  wraps (op : Arithmetic) : (op = .div → r ≠ 0) →
    ∃ n, op.values (.integer l) (.integer r) = .ok (.integer n) ∧
      Wraps n (op.exact l.toInt r.toInt)
  negation : ∃ n, Value.negate (.integer l) = .ok (.integer n) ∧ Wraps n (-l.toInt)
  difference : sub.values (.integer l) (.integer r) =
    (do add.values (.integer l) (← Value.negate (.integer r)))
  divisionByZero : div.values (.integer l) (.integer r) = .error .divisionByZero ↔ r = 0
  /-- The quotient is wrapped for one pair only. -/
  quotient (q : Int64) : div.values (.integer l) (.integer r) = .ok (.integer q) →
    (q.toInt = l.toInt.tdiv r.toInt ↔ ¬(l.toInt = -2 ^ 63 ∧ r.toInt = -1))
  remainder : r ≠ 0 → ∃ n,
    (do
      let q ← div.values (.integer l) (.integer r)
      sub.values (.integer l) (← mul.values q (.integer r))) = .ok (.integer n) ∧
      n.toInt = l.toInt.tmod r.toInt ∧ |n.toInt| < |r.toInt| ∧
      (n = 0 ∨ n.toInt.sign = l.toInt.sign)

theorem integerLaws (l r : Int64) : IntegerLaws l r where
  wraps op divides := by
    obtain ⟨n, hn, wraps⟩ := wraps_integers op l r divides
    exact ⟨n, by rw [values, hn]; rfl, wraps⟩
  negation := ⟨-l, rfl, .neg l⟩
  difference := by
    have hsub : l - r = l + -r := Int64.sub_eq_add_neg l r
    change Except.ok (Value.integer (l - r)) = .ok (.integer (l + -r))
    rw [hsub]
  divisionByZero := by
    rw [← integers_div_eq_error_iff (l := l), values]
    cases div.integers l r <;> simp [Functor.map, Except.map]
  quotient q h := by
    by_cases hr : r = 0
    · rw [hr] at h
      cases h
    · rw [values, integers, if_neg hr] at h
      cases h
      exact toInt_div_eq_tdiv_iff
  remainder hr := by
    refine ⟨Arithmetic.remainder l r, ?_, toInt_remainder hr, ?_, sign_remainder hr⟩
    · have hdiv : div.values (.integer l) (.integer r) = .ok (.integer (l / r)) := by
        rw [values, integers, if_neg hr]
        rfl
      rw [hdiv]
      rfl
    · rw [toInt_remainder hr]
      exact (tmod_range hr).1

/-- The laws of the operators on any two values, which are the operands of an instruction. -/
structure OperatorLaws (op : Arithmetic) (left right : Value) : Prop where
  integers (l r : Int64) : left = .integer l → right = .integer r → IntegerLaws l r
  strings (s t : String) : op = .add → left = .string s → right = .string t →
    op.values left right = .ok (.string (s ++ t))
  others : ¬(left.kind = .integer ∧ right.kind = .integer) →
    ¬(op = .add ∧ left.kind = .string ∧ right.kind = .string) →
    op.values left right = .error (.operandKinds op.opcode left.kind right.kind)
  instruction (m : Machine) (below : List Value) : m.Supplies below [left, right] → ∃ room,
    Exec.execute ⟨op.opcode, []⟩ m = Exec.replaced m 2 room none (op.values left right)
  negation (m : Machine) (below : List Value) : m.Supplies below [right] → ∃ room,
    Exec.execute ⟨.minus, []⟩ m = Exec.replaced m 1 room none right.negate

theorem operatorLaws (op : Arithmetic) (left right : Value) : OperatorLaws op left right where
  integers l r _ _ := integerLaws l r
  strings s t hop hleft hright := by
    subst hop hleft hright
    rfl
  others := values_of_kinds
  instruction m below supplies :=
    ⟨supplies.hasRoom_of_cons,
      Exec.execute_of_answers (.binary op.binary?_opcode) supplies supplies.hasRoom_of_cons⟩
  negation m below supplies :=
    ⟨supplies.hasRoom_of_cons,
      Exec.execute_of_answers (.unary rfl) supplies supplies.hasRoom_of_cons⟩

example : div.values (.integer Int64.minValue) (.integer (-1)) = .ok (.integer Int64.minValue) :=
  rfl

end Arithmetic

end BytecodeMachine

/-!
# Hash keys

The keys of hashes are integers, booleans and strings. They are ordered: integers ascending, then
false and true, then strings by code point.
-/

namespace BytecodeMachine

inductive Key where
  | integer (n : Int64)
  | boolean (b : Bool)
  | string (s : String)
deriving DecidableEq

namespace Key

protected def compare : Key → Key → Ordering
  | integer m, integer n => compare m n
  | integer _, _ => .lt
  | boolean _, integer _ => .gt
  | boolean a, boolean b => compare a b
  | boolean _, string _ => .lt
  | string s, string t => compare s t
  | string _, _ => .gt

instance : Ord Key := ⟨Key.compare⟩

theorem eq_of_compare {k l : Key} (h : compare k l = .eq) : k = l := by
  cases k <;> cases l
  case integer.integer => exact congrArg _ (Std.LawfulEqOrd.eq_of_compare h)
  case boolean.boolean => exact congrArg _ (Std.LawfulEqOrd.eq_of_compare h)
  case string.string => exact congrArg _ (Std.LawfulEqOrd.eq_of_compare h)
  all_goals cases h

theorem compare_self : (k : Key) → compare k k = .eq
  | integer n => (Std.ReflOrd.compare_self : compare n n = .eq)
  | boolean b => (Std.ReflOrd.compare_self : compare b b = .eq)
  | string s => (Std.ReflOrd.compare_self : compare s s = .eq)

theorem compare_swap (k l : Key) : compare k l = (compare l k).swap := by
  cases k <;> cases l
  case integer.integer m n => exact (Std.OrientedCmp.eq_swap : compare m n = (compare n m).swap)
  case boolean.boolean a b => exact (Std.OrientedCmp.eq_swap : compare a b = (compare b a).swap)
  case string.string s t => exact (Std.OrientedCmp.eq_swap : compare s t = (compare t s).swap)
  all_goals rfl

theorem isLE_trans {k l m : Key} (hkl : (compare k l).isLE) (hlm : (compare l m).isLE) :
    (compare k m).isLE := by
  change (Key.compare k l).isLE at hkl
  change (Key.compare l m).isLE at hlm
  change (Key.compare k m).isLE
  cases k <;> cases l <;> cases m <;> simp only [Key.compare] at hkl hlm ⊢
  case integer.integer.integer => exact Std.TransCmp.isLE_trans hkl hlm
  case boolean.boolean.boolean => exact Std.TransCmp.isLE_trans hkl hlm
  case string.string.string => exact Std.TransCmp.isLE_trans hkl hlm
  all_goals trivial

instance : Std.TransOrd Key where
  eq_swap := compare_swap _ _
  isLE_trans := isLE_trans

instance : Std.LawfulEqOrd Key where
  compare_self := compare_self _
  eq_of_compare := eq_of_compare

end Key
end BytecodeMachine

import Mathlib.Algebra.Order.Ring.Rat
import Mathlib.Order.Compare
import Mathlib.Tactic
import Waymark.Number.Exact

/-!
# Exact numbers are sorted by size

* `Exact.order_number_ne_gt_iff`: numbers are sorted by size;
* the instance of `Std.TransCmp`: the order for sorting is a total preorder.
-/

namespace Waymark.Number

namespace Exact

theorem order_number (x y : ℚ) : order (.number x) (.number y) = compare x y :=
  (LinearOrder.compare_eq_compareOfLessAndEq x y).symm

/-- A number is not sorted after another exactly if it is at most as large. -/
theorem order_number_ne_gt_iff {x y : ℚ} :
    Scale.order (Exact.number x) (Exact.number y) ≠ .gt ↔ x ≤ y := by
  show order (.number x) (.number y) ≠ .gt ↔ _
  rw [order_number, Ne, compare_gt_iff_gt]
  exact not_lt

@[simp] theorem add_number (x y : ℚ) :
    Scale.add (Exact.number x) (Exact.number y) = .number (x + y) := rfl

@[simp] theorem mul_number (x y : ℚ) :
    Scale.mul (Exact.number x) (Exact.number y) = .number (x * y) := rfl

theorem lt_number_iff {x y : ℚ} : Scale.lt (Exact.number x) (Exact.number y) = true ↔ x < y := by
  show decide (x < y) = true ↔ _
  exact decide_eq_true_iff

theorem max_number {x y : ℚ} : Scale.max (Exact.number x) (Exact.number y) = .number (max x y) := by
  unfold Scale.max
  split
  · rename_i hlt
    rw [max_eq_right (lt_number_iff.1 hlt).le]
  · rename_i hle
    rw [max_eq_left (not_lt.1 fun hlt => hle (lt_number_iff.2 hlt))]

theorem ofQuotient_number (n d : ℕ) : Scale.ofQuotient n d = Exact.number (n / d) :=
  congrArg Exact.number ((Rat.mkRat_eq_div n d).trans (by push_cast; rfl))

theorem ofNat_number (n : ℕ) : Scale.ofNat n = Exact.number n :=
  (ofQuotient_number n 1).trans (by rw [Nat.cast_one, div_one])

/-- Numbers come before what is none. -/
def rank : Exact → Nat
  | .number _ => 0
  | .undefined => 1

/-- The size of a number. -/
def size : Exact → ℚ
  | .number x => x
  | .undefined => 0

theorem order_eq_compareLex : order = compareLex (compareOn rank) (compareOn size) := by
  funext x y
  cases x with
  | number x =>
    cases y with
    | number y => exact order_number x y
    | undefined => rfl
  | undefined =>
    cases y with
    | number y => rfl
    | undefined => rfl

instance : Std.TransCmp order := order_eq_compareLex ▸ inferInstance

end Exact

instance : Std.TransCmp (Scale.order : Exact → Exact → Ordering) :=
  inferInstanceAs (Std.TransCmp Exact.order)

end Waymark.Number

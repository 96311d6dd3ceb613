import Mathlib.Algebra.Order.Field.Rat
import Mathlib.Data.Rat.Floor
import Partitura.Number.Checked

/-!
# Exact rationals as scalars

Read on rationals, every formula of the library is exact: nothing is rounded, nothing overflows, and
every scalar stands for itself. This is the reading in which times and velocities have an order and
an arithmetic that can be reasoned about.

Sine, cosine and powers lead out of the rationals, so they are not given but taken: `Elementary`
stands for any choice of them, and what is shown for the exact reading holds for every choice.
-/

namespace Partitura

/-- Functions in the place of sine, cosine and powers. -/
class Elementary where
  sine : Rat → Rat
  cosine : Rat → Rat
  raise : Rat → Rat → Rat

/-- A choice that is right where the exact value is rational and easily had: at an angle of zero and
for whole exponents. -/
@[reducible]
def Elementary.coarse : Elementary where
  sine x := x
  cosine _ := 1
  raise base exponent := base ^ exponent.floor

namespace Exact

variable [Elementary]

instance instScalar : Scalar Rat where
  toAdd := inferInstance
  toSub := inferInstance
  toMul := inferInstance
  toDiv := inferInstance
  toNeg := inferInstance
  toLT := inferInstance
  toLE := inferInstance
  toBEq := inferInstance
  toOfScientific := inferInstance
  toInhabited := inferInstance
  decLt := inferInstance
  decLe := inferInstance
  ofInt n := n
  ofRatio dividend divisor := dividend / divisor
  ofDecimal mantissa exponent := mantissa * 10 ^ exponent
  magnitude := .finite
  signed x := x < 0
  shortest x := toString x
  sine := Elementary.sine
  cosine := Elementary.cosine
  raise := Elementary.raise
  undefined := 0
  infinite _ := 0

/-! ## What the operations are on rationals -/

@[simp] theorem ofInt_eq (n : Int) : (Scalar.ofInt n : Rat) = n := rfl

@[simp] theorem ofNat_eq (n : Nat) : (Scalar.ofNat n : Rat) = n := rfl

theorem zero_eq : (@OfNat.ofNat Rat 0 instNumeral) = 0 := rfl

omit [Elementary] in
theorem start_eq : (0.0 : Rat) = 0 := by
  norm_num

@[simp] theorem max_eq (x y : Rat) : Scalar.max x y = Max.max x y := by
  unfold Scalar.max
  split
  · next h => exact (max_eq_right (le_of_lt h)).symm
  · next h => exact (max_eq_left (not_lt.1 h)).symm

@[simp] theorem min_eq (x y : Rat) : Scalar.min x y = Min.min x y := by
  unfold Scalar.min
  split
  · next h => exact (min_eq_right (le_of_lt h)).symm
  · next h => exact (min_eq_left (not_lt.1 h)).symm

theorem divide_eq {x y : Rat} (h : y ≠ 0) : divide x y = .ok (x / y) := by
  unfold divide
  rw [if_neg fun heq => h (eq_of_beq heq)]

theorem quotientOf_eq (n : Int) {d : Int} (h : d ≠ 0) : quotientOf n d = .ok (n / d : Rat) := by
  unfold quotientOf
  rw [if_neg h]
  rfl

theorem roundOf_eq (x : Rat) : roundOf x = .ok (Rational.round x) := rfl

theorem powerOf_eq (x y : Rat) : powerOf x y = .ok (Elementary.raise x y) := rfl

end Exact

end Partitura

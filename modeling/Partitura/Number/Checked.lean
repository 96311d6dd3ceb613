import Partitura.Fault
import Partitura.Number.Decimal
import Partitura.Number.Scalar

/-!
# Checked arithmetic

Operations that have no result for some operands, and fail there: division by zero, a whole number
from a scalar that stands for none, a scalar from a whole number too large for one, a power outside
the domain or the range of powers.
-/

namespace Partitura

variable {α : Type} [Scalar α]

/-- The quotient of two scalars. -/
def divide (x y : α) : Outcome α :=
  if y == 0 then .error .divisionByZero else .ok (x / y)

/-- The whole number that `pick` takes from what a scalar stands for. -/
def toWhole (pick : Rat → Int) (x : α) : Outcome Int :=
  match Scalar.magnitude x with
  | .finite r => .ok (pick r)
  | .infinite _ => .error .overflow
  | .undefined => .error (.rejected .undefinedWholeNumber)

/-- The largest whole number that is not above `x`. -/
def floorOf (x : α) : Outcome Int :=
  toWhole Rat.floor x

/-- The whole number nearest to `x`, a half going to the even neighbour. -/
def roundOf (x : α) : Outcome Int :=
  toWhole Rational.round x

/-- `x` without its fraction. -/
def truncateOf (x : α) : Outcome Int :=
  toWhole Rational.truncate x

/-- The scalar next to a whole number. -/
def scalarOf (n : Int) : Outcome α :=
  match Scalar.ofInt? n with
  | some x => .ok x
  | none => .error .overflow

/-- The scalar next to a quotient of whole numbers. The numbers themselves may be too large for any
scalar. -/
def quotientOf (dividend divisor : Int) : Outcome α :=
  if divisor = 0 then .error .divisionByZero
  else
    let x : α := Scalar.ofRatio dividend divisor
    if Scalar.isFinite x then .ok x else .error .overflow

/-- A power. Finite operands must have a finite result. -/
def powerOf (x y : α) : Outcome α :=
  let z := Scalar.raise x y
  match Scalar.magnitude x, Scalar.magnitude y, Scalar.magnitude z with
  | .finite _, .finite _, .undefined => .error (.rejected .outsideDomain)
  | .finite b, .finite _, .infinite _ =>
    if b = 0 then .error (.rejected .outsideDomain) else .error .overflow
  | _, _, _ => .ok z

/-- A function of an angle, which must be finite or undefined. -/
def angular (f : α → α) (x : α) : Outcome α :=
  match Scalar.magnitude x with
  | .infinite _ => .error (.rejected .outsideDomain)
  | _ => .ok (f x)

end Partitura

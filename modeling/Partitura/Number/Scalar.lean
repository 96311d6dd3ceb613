/-!
# Scalars

Beats, seconds, velocities and probabilities are counted in a scalar type. The library is written
over the class `Scalar`, each formula once and in one order of operations, so that the same
definition runs on machine numbers and is read on exact rationals.

A scalar is more than a field: it may stand for no number at all, it has a written form, and it
can be read from a decimal. `Magnitude` is what a scalar stands for.
-/

namespace Partitura

/-- What a scalar stands for: a rational number, an infinity of either sign, or nothing. -/
inductive Magnitude where
  | finite (value : Rat)
  | infinite (negative : Bool)
  | undefined
  deriving DecidableEq

/-- Numbers to count beats and seconds in. The order and the arithmetic are those of the type
itself: no law is asked for, because rounding keeps few. -/
class Scalar (α : Type) extends
    Add α, Sub α, Mul α, Div α, Neg α, LT α, LE α, BEq α, OfScientific α, Inhabited α where
  decLt : DecidableLT α
  decLe : DecidableLE α
  /-- The scalar next to a whole number. -/
  ofInt : Int → α
  /-- The scalar next to a quotient of whole numbers. The divisor is not zero. -/
  ofRatio (dividend divisor : Int) : α
  /-- The scalar next to `mantissa * 10 ^ exponent`. -/
  ofDecimal (mantissa : Nat) (exponent : Int) : α
  magnitude : α → Magnitude
  /-- Whether the written form carries a minus sign. -/
  signed : α → Bool
  /-- The fewest digits that read back as the same scalar. -/
  shortest : α → String
  sine : α → α
  cosine : α → α
  raise (base exponent : α) : α
  /-- A number that stands for none. -/
  undefined : α
  /-- Larger than every number, or smaller. -/
  infinite (negative : Bool) : α

variable {α : Type} [Scalar α]

instance (priority := low) instDecidableLt : DecidableLT α :=
  Scalar.decLt

instance (priority := low) instDecidableLe : DecidableLE α :=
  Scalar.decLe

instance (priority := low) instNumeral {n : Nat} : OfNat α n where
  ofNat := Scalar.ofInt n

namespace Scalar

/-- The larger of two scalars, the first when neither is larger. -/
def max (a b : α) : α :=
  if a < b then b else a

/-- The smaller of two scalars, the first when neither is smaller. -/
def min (a b : α) : α :=
  if b < a then b else a

/-- `x` moved into the interval from `low` to `high`; `low` wins where the two cross. -/
def clamp (low high x : α) : α :=
  max low (min high x)

def abs (x : α) : α :=
  if x < 0 then -x else x

def ofNat (n : Nat) : α :=
  ofInt n

def isFinite (x : α) : Bool :=
  match magnitude x with
  | .finite _ => true
  | _ => false

/-- The scalar next to a whole number, unless the number is too large for any. -/
def ofInt? (n : Int) : Option α :=
  let x : α := ofInt n
  if isFinite x then some x else none

/-- A sum taken from the left. -/
def sum (xs : List α) : α :=
  xs.foldl (· + ·) 0

end Scalar

end Partitura

import Partitura.Number.Scalar

/-!
# Rounding and decimals

How a rational is rounded to a whole number, and two written forms that a scalar has: with a given
number of places after the point (`fixed`), and with a given number of significant digits (`general`),
where trailing zeros are dropped and very large or small numbers take an exponent. Both forms round
the exact value once.
-/

namespace Partitura

/-! ## Rounding

Toward zero, and to the nearest whole number with halves going to the even neighbour.
-/

/-- The whole number nearest to `n / d`; of two equally near the even one. -/
def roundQuotient (n d : Nat) : Nat :=
  let q := n / d
  let r := n % d
  if 2 * r < d then q
  else if d < 2 * r then q + 1
  else if q % 2 = 0 then q else q + 1

namespace Rational

/-- The whole number nearest to a rational; of two equally near the even one. -/
def round (x : Rat) : Int :=
  let n := roundQuotient x.num.natAbs x.den
  if x.num < 0 then -(n : Int) else n

/-- The whole part of a rational: what is left when the fraction is dropped. -/
def truncate (x : Rat) : Int :=
  x.num.tdiv x.den

end Rational

end Partitura

namespace Partitura.Decimal

/-! ## Decimals of a given precision -/

def digits (n : Nat) : List Char :=
  Nat.toDigits 10 n

/-- The digits of `n`, padded with zeros in front to at least `width` of them. -/
def padded (width n : Nat) : List Char :=
  let ds := digits n
  List.replicate (width - ds.length) '0' ++ ds

/-- A whole number of units of the last of `places` decimals, with the point put in. -/
def withPoint (places units : Nat) : List Char :=
  if places = 0 then digits units
  else digits (units / Nat.pow 10 places) ++ '.' :: padded places (units % Nat.pow 10 places)

/-- `x ≥ 0` with exactly `places` digits after the point. -/
def fixed (places : Nat) (x : Rat) : List Char :=
  withPoint places (roundQuotient (x.num.natAbs * Nat.pow 10 places) x.den)

/-- `n / d * 10 ^ shift`, rounded to a whole number. -/
def scaled (n d : Nat) (shift : Int) : Nat :=
  if 0 ≤ shift then roundQuotient (n * Nat.pow 10 shift.toNat) d
  else roundQuotient n (d * Nat.pow 10 (-shift).toNat)

/-- The exponent `e` with `10 ^ e ≤ n / d < 10 ^ (e + 1)`, for positive `n` and `d`. -/
def exponent (n d : Nat) : Int :=
  let guess : Int := (digits n).length - (digits d).length
  let below : Bool :=
    if 0 ≤ guess then n < d * Nat.pow 10 guess.toNat else n * Nat.pow 10 (-guess).toNat < d
  if below then guess - 1 else guess

def dropTrailingZeros (ds : List Char) : List Char :=
  (ds.reverse.dropWhile (· = '0')).reverse

/-- A fraction without its trailing zeros, and without the point when nothing is left of it. -/
def trimFraction (text : List Char) : List Char :=
  if text.contains '.' then
    let kept := dropTrailingZeros text
    if kept.getLast? = some '.' then kept.dropLast else kept
  else text

/-- The exponent part of a number: its sign and at least two digits. -/
def exponentPart (e : Int) : List Char :=
  'e' :: (if e < 0 then '-' else '+') :: padded 2 e.natAbs

/-- `x ≥ 0` with `precision ≥ 1` significant digits, trailing zeros dropped. The exponent is
written out when it is below -4 or does not fit into the precision. -/
def general (precision : Nat) (x : Rat) : List Char :=
  let n := x.num.natAbs
  if n = 0 then ['0']
  else
    let guess := exponent n x.den
    let rounded := scaled n x.den (precision - 1 - guess)
    -- Rounding up may reach the next power of ten.
    let (e, units) := if rounded = Nat.pow 10 precision then (guess + 1, rounded / 10) else (guess, rounded)
    if e < -4 ∨ (precision : Int) ≤ e then
      trimFraction (withPoint (precision - 1) units) ++ exponentPart e
    else
      trimFraction (withPoint (precision - 1 - e).toNat units)

end Partitura.Decimal

namespace Partitura.Scalar

variable {α : Type} [Scalar α]

/-! ## Scalars as text -/

/-- The text of a scalar whose size is written by `digits`. -/
def written (digits : Rat → List Char) (x : α) : String :=
  match magnitude x with
  | .finite r => String.ofList ((if signed x then ['-'] else []) ++ digits r)
  | .infinite negative => if negative then "-inf" else "inf"
  | .undefined => "nan"

/-- Six significant digits at most, without trailing zeros. -/
def general (x : α) : String :=
  written (Decimal.general 6) x

/-- A given number of digits after the point. -/
def fixed (places : Nat) (x : α) : String :=
  written (Decimal.fixed places) x

end Partitura.Scalar

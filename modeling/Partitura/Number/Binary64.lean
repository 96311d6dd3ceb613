import Partitura.Number.Scalar
import Partitura.Number.Shortest

/-!
# Machine numbers as scalars

The scalars a program runs on: binary numbers of 64 bits. Everything but the arithmetic itself is
read off the bits of a number.
-/

namespace Partitura.Binary64

/-- The parts of a machine number: sign, exponent field and fraction field. -/
structure Parts where
  negative : Bool
  biased : Nat
  fraction : Nat

def Parts.ofFloat (x : Float) : Parts :=
  let bits := x.toBits.toNat
  { negative := bits / Nat.pow 2 63 = 1
    biased := bits / Nat.pow 2 52 % Nat.pow 2 11
    fraction := bits % Nat.pow 2 52 }

/-- The number is `mantissa * 2 ^ exponent`, if it is finite. -/
def Parts.mantissa (p : Parts) : Nat :=
  if p.biased = 0 then p.fraction else p.fraction + Nat.pow 2 52

def Parts.exponent (p : Parts) : Int :=
  (if p.biased = 0 then 1 else (p.biased : Int)) - 1075

def Parts.isSpecial (p : Parts) : Bool :=
  p.biased = Nat.pow 2 11 - 1

def magnitude (x : Float) : Magnitude :=
  let p := Parts.ofFloat x
  if p.isSpecial then
    if p.fraction = 0 then .infinite p.negative else .undefined
  else
    let size : Rat :=
      if 0 ≤ p.exponent then mkRat (p.mantissa * Nat.pow 2 p.exponent.toNat : Nat) 1
      else mkRat p.mantissa (Nat.pow 2 (-p.exponent).toNat)
    .finite (if p.negative then -size else size)

def shortest (x : Float) : String :=
  let p := Parts.ofFloat x
  let minus := if p.negative then ['-'] else []
  if p.isSpecial then
    if p.fraction = 0 then String.ofList (minus ++ ['i', 'n', 'f']) else "nan"
  else if p.mantissa = 0 then String.ofList (minus ++ ['0', '.', '0'])
  else
    let edge : Bool := p.fraction = 0 && 1 < p.biased
    let (c, g) := (Decimal.Interval.ofBinary p.mantissa p.exponent edge).shortest
    String.ofList (minus ++ Decimal.positional c g)

def undefined : Float :=
  0.0 / 0.0

def infinite (negative : Bool) : Float :=
  if negative then -1.0 / 0.0 else 1.0 / 0.0

/-- The number next to a decimal. Exponents far outside the range are decided without computing the
power of ten. -/
def ofDecimal (mantissa : Nat) (exponent : Int) : Float :=
  let top : Int := (Decimal.digits mantissa).length + exponent
  if mantissa = 0 ∨ top < -330 then 0.0
  else if 320 < top then infinite false
  else OfScientific.ofScientific mantissa (decide (exponent < 0)) exponent.natAbs

def ofInt (n : Int) : Float :=
  if n < 0 then -(ofDecimal n.natAbs 0) else ofDecimal n.natAbs 0

/-- The place of the first bit of a positive quotient: `n / d` lies between the powers of two of this
exponent and of the next. -/
def leadingPlace (n d : Nat) : Int :=
  let place : Int := (Nat.log2 n : Int) - Nat.log2 d
  if d * Nat.pow 2 place.toNat ≤ n * Nat.pow 2 (-place).toNat then place else place - 1

/-- The number next to a quotient. Its last bit is the 53rd after the leading one, or that of the
smallest number where this lies higher; the quotient is rounded once, to a multiple of that bit. -/
def ofQuotient (n d : Nat) : Float :=
  let place := max (leadingPlace n d - 52) (-1074)
  let bits := roundQuotient (n * Nat.pow 2 (-place).toNat) (d * Nat.pow 2 place.toNat)
  (Float.ofNat bits).scaleB place

def ofRatio (dividend divisor : Int) : Float :=
  let size := ofQuotient dividend.natAbs divisor.natAbs
  if dividend < 0 ↔ divisor < 0 then size else -size

instance : Scalar Float where
  decLt := inferInstance
  decLe := inferInstance
  ofInt := ofInt
  ofRatio := ofRatio
  ofDecimal := ofDecimal
  magnitude := magnitude
  signed x := (Parts.ofFloat x).negative
  shortest := shortest
  sine := Float.sin
  cosine := Float.cos
  raise := Float.pow
  undefined := undefined
  infinite := infinite

end Partitura.Binary64

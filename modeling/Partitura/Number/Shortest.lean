import Partitura.Number.Decimal

/-!
# The shortest decimal that reads back

A machine number `m * 2 ^ q` is the one nearest to every real of an interval around it. Its
shortest decimal is the one with the fewest digits inside that interval, and of those the nearest
to the number itself. One grid of decimals after the other is tried, from one digit to seventeen,
and on each only the two neighbours of the number need a look: if any point of a grid lies in the
interval, so does one of them.
-/

namespace Partitura.Decimal

/-- The reals that round to a positive machine number: the number and the two ends, as multiples of
one unit `1 / unit`, and whether the ends belong to it. -/
structure Interval where
  value : Nat
  low : Nat
  high : Nat
  unit : Nat
  closed : Bool

/-- The interval of `m * 2 ^ q`. Below a power of two the next number is only half as far away; ties
go to the even mantissa, so the ends belong to it exactly when `m` is even. -/
def Interval.ofBinary (m : Nat) (q : Int) (edge : Bool) : Interval :=
  let up : Nat := if 2 ≤ q then Nat.pow 2 (q - 2).toNat else 1
  let down : Nat := if 2 ≤ q then 1 else Nat.pow 2 (2 - q).toNat
  { value := 4 * m * up
    low := (4 * m - if edge then 1 else 2) * up
    high := (4 * m + 2) * up
    unit := down
    closed := m % 2 = 0 }

/-- Whether `c * 10 ^ g` lies in the interval. -/
def Interval.holds (i : Interval) (c : Nat) (g : Int) : Bool :=
  let point := if 0 ≤ g then c * Nat.pow 10 g.toNat * i.unit else c * i.unit
  let scale := if 0 ≤ g then 1 else Nat.pow 10 (-g).toNat
  if i.closed then i.low * scale ≤ point && point ≤ i.high * scale
  else i.low * scale < point && point < i.high * scale

/-- The decimal of the grid `10 ^ g` that lies in the interval, the nearer one if two do. -/
def Interval.onGrid? (i : Interval) (g : Int) : Option Nat :=
  let n := if 0 ≤ g then i.value else i.value * Nat.pow 10 (-g).toNat
  let d := if 0 ≤ g then i.unit * Nat.pow 10 g.toNat else i.unit
  let below := n / d
  let above := below + 1
  match i.holds below g && 0 < below, i.holds above g with
  | true, true => some (roundQuotient n d)
  | true, false => some below
  | false, true => some above
  | false, false => none

/-- The digits `c` and the exponent `g` of the shortest decimal `c * 10 ^ g` in the interval, trying
`count` digits and then up to `more` further ones. Seventeen digits always do. -/
def Interval.search (i : Interval) (top : Int) : Nat → Nat → Nat × Int
  | _, 0 => (i.value / i.unit, 0)
  | count, more + 1 =>
    let g := top - count + 1
    match i.onGrid? g with
    | some c => (c, g)
    | none => i.search top (count + 1) more

/-- The shortest decimal in the interval. -/
def Interval.shortest (i : Interval) : Nat × Int :=
  i.search (exponent i.value i.unit) 1 17

/-- A decimal `c * 10 ^ g` in its usual form: positional from `0.0001` up to, but not including,
`10 ^ 16`, always with a point there, and with an exponent outside. -/
def positional (c : Nat) (g : Int) : List Char :=
  let ds := digits c
  let kept := dropTrailingZeros ds
  let kept := if kept.isEmpty then ['0'] else kept
  let e : Int := g + ds.length - 1
  if e < -4 ∨ 16 ≤ e then
    (match kept with
      | [d] => [d]
      | d :: rest => d :: '.' :: rest
      | [] => []) ++ exponentPart e
  else if e < 0 then
    '0' :: '.' :: (List.replicate ((-e).toNat - 1) '0' ++ kept)
  else
    let whole := e.toNat + 1
    let front := kept.take whole ++ List.replicate (whole - kept.length) '0'
    let back := kept.drop whole
    front ++ '.' :: (if back.isEmpty then ['0'] else back)

end Partitura.Decimal

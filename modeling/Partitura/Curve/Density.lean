import Partitura.Curve.Easing

/-!
# Density

How busy a section is as it plays. A density moves along a curve through the section and multiplies
the probability of every note; a note plays when a draw from the unit interval lies below the
product.
-/

namespace Partitura

structure DensityCurve (α : Type) where
  start : α
  finish : α
  /-- The name of the curve as written. A name that is none counts as linear. -/
  curve : String := "linear"

namespace DensityCurve

/-- The curves that a density may follow. -/
def shapes : List Easing :=
  [.linear, .exponential, .logarithmic, .sine]

variable {α : Type} [Scalar α]

def shape (d : DensityCurve α) : Easing :=
  (shapes.find? (·.name = d.curve)).getD .linear

/-- The density at a position between 0 and 1, held between 0 and 1 itself. -/
def atPosition (d : DensityCurve α) (position : α) : Outcome α := do
  return Scalar.clamp 0.0 1.0 (← Easing.interpolate d.start d.finish position d.shape)

/-- The density at a beat of a section that is `total` beats long. -/
def atBeat (d : DensityCurve α) (beat total : α) : Outcome α :=
  if total ≤ 0 then .ok d.start else d.atPosition (beat / total)

/-- The curve at `resolution + 1` evenly spaced positions. -/
def preview (d : DensityCurve α) (resolution : Int) : Outcome (List (α × α)) :=
  (List.range (resolution + 1).toNat).mapM fun (i : Nat) => do
    let position ← divide (Scalar.ofNat i) (Scalar.ofInt resolution)
    return (position, ← d.atPosition position)

/-- What is questionable about a curve. -/
def warnings (d : DensityCurve α) : List String :=
  let bound (which : String) (x : α) : List String :=
    if 0.0 ≤ x && x ≤ 1.0 then []
    else ["Density " ++ which ++ " value " ++ Scalar.shortest x ++ " should be between 0 and 1"]
  bound "start" d.start ++ bound "end" d.finish ++
    (if shapes.any (·.name = d.curve) then []
     else ["Unknown density curve: " ++ d.curve ++ ". Valid curves: "
       ++ ", ".intercalate (shapes.map Easing.name)])

end DensityCurve

variable {α : Type} [Scalar α]

/-- A note's own probability, which is certainty if it has none, thinned by a density. -/
def effectiveProbability (probability : Option α) (density : α) : α :=
  probability.getD 1.0 * density

/-- Whether a note plays, decided by a draw from the unit interval. -/
def shouldPlay (probability : Option α) (density roll : α) : Bool :=
  decide (roll < effectiveProbability probability density)

end Partitura

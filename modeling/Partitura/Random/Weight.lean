import Partitura.Document.Value
import Partitura.Number.Checked

/-!
# Weights

A weight is a whole number or a scalar. Whole numbers are added up exactly and their quotient is
rounded once, so weights far beyond the reach of a scalar still have their shares; a sum is rounded
from the point on where a scalar joins it.

Something that is no number may be written in the place of a weight. It does no harm until it is
counted.
-/

namespace Partitura

inductive Weight (α : Type) where
  | whole (n : Int)
  | real (x : α)
  /-- What is written is no number. -/
  | unusable

namespace Weight

variable {α : Type}

/-- A raw value as a weight. A flag weighs one or nothing. -/
def ofValue : Value α → Weight α
  | .int n => whole n
  | .bool b => whole b.toNat
  | .real x => real x
  | .null | .text _ | .list _ | .mapping _ => unusable

variable [Scalar α]

def toScalar : Weight α → Outcome α
  | whole n => scalarOf n
  | real x => .ok x
  | unusable => .error .wrongKind

def isZero : Weight α → Bool
  | whole n => n == 0
  | real x => x == 0
  | unusable => false

/-- The sum of two weights, exact for whole numbers. -/
def add : Weight α → Weight α → Outcome (Weight α)
  | unusable, _ | _, unusable => .error .wrongKind
  | whole a, whole b => .ok (whole (a + b))
  | a, b => return real ((← a.toScalar) + (← b.toScalar))

/-- A sum taken from the left. -/
def sum (ws : List (Weight α)) : Outcome (Weight α) :=
  ws.foldlM add (whole 0)

/-- The part that a weight is of a total, which must not be zero. -/
def share (total : Weight α) : Weight α → Outcome α
  | whole n =>
    match total with
    | whole t => quotientOf n t
    | t => do divide (← scalarOf n) (← t.toScalar)
  | w => do divide (← w.toScalar) (← total.toScalar)

/-- Every weight as its part of the total, or as an even part if the total is zero. -/
def shares (ws : List (Weight α)) : Outcome (List α) := do
  let total ← sum ws
  if total.isZero then return ws.map fun _ => 1.0 / Scalar.ofNat ws.length
  ws.mapM (share total)

end Weight

end Partitura

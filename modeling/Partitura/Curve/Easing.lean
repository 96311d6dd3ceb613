import Partitura.Number.Checked
import Partitura.Text.Quoted

/-!
# Easing curves

How a value moves from 0 to 1 while a position does: at a constant rate, fast or slow at first, or in
a jump half way. Every curve leads from 0 at 0 to 1 at 1 and never falls in between.
-/

namespace Partitura

/-- The curves by name. The exponential one fills in early, the logarithmic one late. -/
inductive Easing where
  | linear | exponential | logarithmic | sine | step
  deriving DecidableEq, Repr

namespace Easing

def all : List Easing :=
  [linear, exponential, logarithmic, sine, step]

def name : Easing → String
  | linear => "linear"
  | exponential => "exponential"
  | logarithmic => "logarithmic"
  | sine => "sine"
  | step => "step"

def ofName? (s : String) : Option Easing :=
  all.find? (·.name = s)

/-- The names of all curves in quotes, in alphabetical order. -/
def quotedNames : List String :=
  (all.map fun e => "\"" ++ e.name ++ "\"").mergeSort (· ≤ ·)

def ofName (s : String) : Outcome Easing :=
  match ofName? s with
  | some e => .ok e
  | none => .error (.rejected (.unknownName .curve (Text.quoted s) quotedNames))

variable {α : Type} [Scalar α]

/-- Half the circumference of a circle of radius 1. -/
def halfTurn : α :=
  3.141592653589793

/-- A smooth S: slow at both ends. -/
def sineEase (t : α) : Outcome α := do
  return -((← angular Scalar.cosine (halfTurn * t)) - 1.0) / 2.0

def ease : Easing → α → Outcome α
  | linear, t => .ok t
  | exponential, t =>
    if (1.0 : α) ≤ t then .ok 1.0 else do return 1.0 - (← powerOf 2.0 (-10.0 * t))
  | logarithmic, t =>
    if t ≤ 0.0 then .ok 0.0 else powerOf 2.0 (10.0 * t - 10.0)
  | sine, t => sineEase t
  | step, t => .ok (if t < 0.5 then 0.0 else 1.0)

/-- Moves from `start` to `finish` along a curve; the position is held between 0 and 1. -/
def interpolate (start finish position : α) (e : Easing) : Outcome α := do
  return start + (finish - start) * (← e.ease (Scalar.clamp 0.0 1.0 position))

end Easing

end Partitura

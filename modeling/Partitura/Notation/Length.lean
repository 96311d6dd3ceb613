import Partitura.Number.Scalar

/-!
# Written lengths

A note's length is written as a code, `w h q 8 16 32` or one of the numeric aliases `2` and `4`, and
an optional dot, which makes it half as long again. Beats are quarter notes.
-/

namespace Partitura

/-- The codes a length is written with. -/
inductive DurationCode where
  | whole | half | quarter | eighth | sixteenth | thirtySecond
  | numericHalf | numericQuarter
  deriving DecidableEq, Repr

namespace DurationCode

/-- All codes, in the order messages list them. -/
def all : List DurationCode :=
  [whole, half, quarter, eighth, sixteenth, thirtySecond, numericHalf, numericQuarter]

def text : DurationCode → String
  | whole => "w"
  | half => "h"
  | quarter => "q"
  | eighth => "8"
  | sixteenth => "16"
  | thirtySecond => "32"
  | numericHalf => "2"
  | numericQuarter => "4"

def ofText? (s : String) : Option DurationCode :=
  all.find? (·.text = s)

/-- The length of an undotted code in beats. -/
def beats {α : Type} [Scalar α] : DurationCode → α
  | whole => 4.0
  | half | numericHalf => 2.0
  | quarter | numericQuarter => 1.0
  | eighth => 0.5
  | sixteenth => 0.25
  | thirtySecond => 0.125

end DurationCode

/-- How much longer a dot makes a note. -/
def dotFactor {α : Type} [Scalar α] : α :=
  1.5

/-- A written length: a code and perhaps a dot. -/
structure Length where
  code : DurationCode
  dotted : Bool := false
  deriving DecidableEq, Repr

namespace Length

def beats {α : Type} [Scalar α] (l : Length) : α :=
  if l.dotted then l.code.beats * dotFactor else l.code.beats

def text (l : Length) : String :=
  l.code.text ++ (if l.dotted then "." else "")

end Length

end Partitura

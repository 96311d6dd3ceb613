import Partitura.Document.Value
import Partitura.Number.Checked
import Partitura.Text.Character

/-!
# Time signatures

How many notes of what length make a bar: `<numerator>/<denominator>`.
-/

namespace Partitura

structure TimeSignature where
  numerator : Nat
  denominator : Nat
  deriving DecidableEq, Repr

namespace TimeSignature

def skipBlanks (cs : List Char) : List Char :=
  cs.dropWhile Text.isBlank

/-- A number with the blanks around it, and what follows. -/
def readPart? (cs : List Char) : Option (Nat × List Char) :=
  let cs := skipBlanks cs
  let ds := cs.takeWhile Text.isDigit
  if ds.isEmpty then none
  else some (Text.valueOf ds, skipBlanks (cs.dropWhile Text.isDigit))

/-- Two positive numbers with a slash between them. -/
def ofText? (text : String) : Option TimeSignature := do
  let (numerator, rest) ← readPart? text.toList
  let '/' :: rest := rest | none
  let (denominator, rest) ← readPart? rest
  guard (rest.isEmpty && 0 < numerator && 0 < denominator)
  return { numerator, denominator }

variable {α : Type} [Scalar α]

/-- The time signature that a raw value writes. -/
def parse (v : Value α) : Outcome TimeSignature :=
  match ofText? v.plain with
  | some t => .ok t
  | none => .error (.rejected (.timeSignature v.shown))

/-- The length of a bar in quarter notes. -/
def beatsPerBar (t : TimeSignature) : Outcome α := do
  let n : α ← scalarOf t.numerator
  let d : α ← scalarOf t.denominator
  return n * 4.0 / d

end TimeSignature

end Partitura

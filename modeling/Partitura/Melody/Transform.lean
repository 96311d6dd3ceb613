import Partitura.Document.Value
import Partitura.Notation.Token
import Partitura.Number.Checked
import Partitura.Number.Reading

/-!
# Melodic transforms

A transform takes a list of written notes and rests to another. Articulations, velocities, offsets
and probabilities are carried over, and a rest stays where it is. The result is written again, so
that it can be used wherever a melody is.
-/

namespace Partitura.Melody

variable {α : Type} [Scalar α]

/-- The tokens of a melody. -/
def tokens (α : Type) [Scalar α] (notes : List String) : Outcome (List (Token α)) :=
  (Compact.expand notes).mapM Token.parse

def write (ts : List (Token α)) : List String :=
  ts.map Token.text

/-- Changes the pitch of every note. -/
def mapMidi (f : Int → Int) : Token α → Token α
  | .note n => .note (n.withMidi (f n.pitch.midi))
  | .rest l => .rest l

/-! ## Pitch -/

/-- The number of the first note of a melody. -/
def firstMidi? (ts : List (Token α)) : Option Int :=
  ts.findSome? fun
    | .note n => some n.pitch.midi
    | .rest _ => none

def reflect (axis : Int) (ts : List (Token α)) : List (Token α) :=
  ts.map (mapMidi fun m => 2 * axis - m)

/-- Mirrors every pitch around an axis, by default the first note. -/
def invert (α : Type) [Scalar α] (notes : List String) (axis : Option String) :
    Outcome (List String) := do
  let ts ← tokens α notes
  match axis with
  | some text => return write (reflect (← Pitch.midiOf text) ts)
  | none =>
    match firstMidi? ts with
    | some m => return write (reflect m ts)
    | none => return write ts

def transposeToken (semitones : Int) (t : Token α) : Token α :=
  if semitones = 0 then t else mapMidi (· + semitones) t

/-- Moves every pitch by semitones. -/
def transpose (α : Type) [Scalar α] (notes : List String) (semitones : Int) :
    Outcome (List String) := do
  return write ((← tokens α notes).map (transposeToken semitones))

/-! ## Time -/

/-- The notes in reverse order. -/
def retrograde (notes : List String) : List String :=
  (Compact.expand notes).reverse

/-- The codes with a length of their own, from the longest to the shortest. -/
def plainCodes : List DurationCode :=
  [.whole, .half, .quarter, .eighth, .sixteenth, .thirtySecond]

/-- The written length nearest to a number of beats: an exact code, else an exact dotted one, else
the longest code that is not longer, and at least a thirty-second. -/
def lengthOfBeats (beats : α) : Length :=
  match plainCodes.find? fun c => c.beats == beats with
  | some c => ⟨c, false⟩
  | none =>
    match plainCodes.find? fun c => c.beats == beats / dotFactor with
    | some c => ⟨c, true⟩
    | none =>
      match plainCodes.find? fun c => (c.beats : α) ≤ beats with
      | some c => ⟨c, false⟩
      | none => ⟨.thirtySecond, false⟩

/-- The token with its written length multiplied, as nearly as a code can say it. A tuplet is kept, so
the factor applies to what is written. -/
def scaleToken (factor : α) : Token α → Token α
  | .note n => .note { n with length := lengthOfBeats (n.length.beats * factor) }
  | .rest l => .rest (lengthOfBeats (l.beats * factor))

/-- Multiplies every written length, rests included. -/
def augment (notes : List String) (factor : α) : Outcome (List String) := do
  return write ((← tokens α notes).map (scaleToken factor))

/-! ## By name -/

/-- A raw value as a whole number: a scalar loses its fraction, a text is read, a flag is 0 or 1. -/
def wholeOf : Value α → Outcome Int
  | .int n => .ok n
  | .bool b => .ok (if b then 1 else 0)
  | .real x => truncateOf x
  | .text s =>
    match Decimal.readInt? s with
    | some n => .ok n
    | none => .error (.rejected (.notWholeNumber (Text.quoted s)))
  | .null | .list _ | .mapping _ => .error .wrongKind

/-- A raw value as a factor. -/
def factorOf : Value α → Outcome α
  | .int n => scalarOf n
  | .bool b => .ok (if b then 1 else 0)
  | .real x => .ok x
  | .null | .text _ | .list _ | .mapping _ => .error .wrongKind

/-- A raw value as the axis of an inversion. -/
def axisOf : Value α → Outcome (Option String)
  | .null => .ok none
  | .text s => .ok (some s)
  | .bool _ | .int _ | .real _ | .list _ | .mapping _ => .error .wrongKind

/-- Multiplies lengths by a raw factor, which a melody of no notes does not need. -/
def augmentBy (notes : List String) (factor : Value α) : Outcome (List String) := do
  let ts ← tokens α notes
  if ts.isEmpty then return []
  let factor ← factorOf factor
  return write (ts.map (scaleToken factor))

/-- Mirrors around a raw axis; the melody is read first. -/
def invertBy (notes : List String) (axis : Value α) : Outcome (List String) := do
  let _ ← tokens α notes
  invert α notes (← axisOf axis)

/-- Runs the transform of a name with its raw parameters. -/
def transform (notes : List String) (operation : String) (params : Fields α) :
    Outcome (List String) :=
  let param (name : String) (standard : Value α) : Value α := (params.get? name).getD standard
  match operation with
  | "invert" => invertBy notes (param "axis" .null)
  | "retrograde" => .ok (retrograde notes)
  | "augment" => augmentBy notes (param "factor" (.real 2.0))
  | "diminish" => augmentBy notes (param "factor" (.real 0.5))
  | "transpose" => do transpose α notes (← wholeOf (param "semitones" (.int 0)))
  | "octave" => do transpose α notes ((← wholeOf (param "octaves" (.int 1))) * octaveSize)
  | _ => .error (.rejected (.unknownTransform (Text.quoted operation)))

end Partitura.Melody

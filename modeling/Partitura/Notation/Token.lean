import Partitura.Notation.Written
import Partitura.Number.Decimal
import Partitura.Text.Character

/-!
# Notes and rests

A token is one written note or rest. `parse` reads it and checks its parts, `text` writes it back. A
token keeps its written form, so the length in beats is computed from it.
-/

namespace Partitura

/-- The octave of a note that names none. -/
def defaultOctave : Int :=
  4

/-- One written note. -/
structure NoteToken (α : Type) where
  pitch : Pitch
  length : Length
  tuplet : Option Nat := none
  articulation : Articulation := .plain
  glide : Bool := false
  velocity : Option α := none
  /-- Milliseconds by which the note is played late, or early when negative. -/
  timing : Option Int := none
  probability : Option α := none

/-- One written note or rest. -/
inductive Token (α : Type) where
  | note (n : NoteToken α)
  | rest (length : Length)

/-- How many notes' time a tuplet of `n` notes takes: three go into the time of two, five into that
of three, six into that of three. -/
def tupletSpan (n : Nat) : Nat :=
  if n % 2 = 0 then n / 2 else n / 2 + 1

section

variable {α : Type} [Scalar α]

/-- The beats that a note of a written length takes inside a tuplet, if any. -/
def tupletBeats (length : Length) : Option Nat → α
  | none => length.beats
  | some n => length.beats * Scalar.ofNat (tupletSpan n) / Scalar.ofNat n

def NoteToken.beats (n : NoteToken α) : α :=
  tupletBeats n.length n.tuplet

namespace Token

def length : Token α → Length
  | note n => n.length
  | rest l => l

def beats : Token α → α
  | note n => n.beats
  | rest l => l.beats

end Token

end

/-! ## Reading -/

/-- A length of a code given by its text. -/
def Length.parse (code : String) (dotted : Bool) : Outcome Length :=
  match DurationCode.ofText? code with
  | some code => .ok { code, dotted }
  | none => .error (.misspelled (.duration code))

/-- A length given by a code that may carry a dot at its end. -/
def Length.ofText (s : String) : Outcome Length :=
  let cs := Text.stripChars s.toList
  if cs.getLast? = some '.' then Length.parse (String.ofList cs.dropLast) true
  else Length.parse (String.ofList cs) false

section

variable {α : Type} [Scalar α]

/-- A number that must lie between 0 and 1. -/
def unitInterval (field : UnitField) (text : String) (x : α) : Outcome α :=
  if x < 0.0 || 1.0 < x then
    .error (.misspelled (.outsideUnit field (Scalar.shortest x) text))
  else .ok x

/-- Reads a tuplet's count, which must be between 2 and 9. -/
def checkTuplet (text : String) (n : Nat) : Outcome Nat :=
  if n < 2 ∨ 9 < n then .error (.misspelled (.tuplet n text)) else .ok n

def Notation.Level.velocity (text : String) : Notation.Level → Outcome α
  | .dynamic d => .ok d.velocity
  | .number d => unitInterval .velocity text d.value

namespace NoteToken

/-- Checks the parts of the note written in `text`, in the order in which they are written but for
the velocity, which comes after the length and the tuplet. -/
def ofWritten (text : String) (w : Notation.Written) : Outcome (NoteToken α) := do
  let length ← Length.parse (String.ofList w.code) w.dotted
  let tuplet ← w.tuplet.mapM (checkTuplet text)
  let velocity ← w.level.mapM (Notation.Level.velocity text)
  let probability ← w.probability.mapM fun d => unitInterval .probability text d.value
  return { pitch := ⟨⟨w.letter, w.accidental⟩, w.octave.getD defaultOctave⟩
           length, tuplet
           articulation := w.articulation
           glide := w.glide
           velocity
           timing := w.timing
           probability }

/-- Reads a note; blanks around it do not count. -/
def parse (text : String) : Outcome (NoteToken α) :=
  match Notation.split? (Text.stripChars text.toList) with
  | some w => ofWritten text w
  | none => .error (.misspelled (.note text))

end NoteToken

namespace Token

/-- Whether a text is written as a rest. -/
def isRest (text : String) : Bool :=
  match Text.stripChars text.toList with
  | 'r' :: ':' :: _ | 'R' :: ':' :: _ => true
  | _ => false

/-- Reads a rest. -/
def parseRest (text : String) : Outcome Length :=
  match Notation.splitRest? (Text.stripChars text.toList) with
  | some (code, dotted) => Length.parse (String.ofList code) dotted
  | none => .error (.misspelled (.rest text))

/-- Reads a note or a rest. -/
def parse (text : String) : Outcome (Token α) :=
  if isRest text then return .rest (← parseRest text)
  else return .note (← NoteToken.parse text)

end Token

/-! ## Writing -/

/-- A whole number with its sign, plus included. -/
def signedText (n : Int) : String :=
  (if n < 0 then "" else "+") ++ toString n

namespace NoteToken

def text (n : NoteToken α) : String :=
  n.pitch.text ++ ":" ++ n.length.text
    ++ (match n.tuplet with | some t => "t" ++ toString t | none => "")
    ++ n.articulation.text
    ++ (if n.glide then "~>" else "")
    ++ (match n.velocity with | some v => "@" ++ Scalar.general v | none => "")
    ++ (match n.timing with | some t => signedText t ++ "ms" | none => "")
    ++ (match n.probability with | some p => "?" ++ Scalar.general p | none => "")

/-- The same note at another pitch, spelled with sharps. -/
def withMidi (n : NoteToken α) (midi : Int) : NoteToken α :=
  { n with pitch := Pitch.ofMidi midi }

end NoteToken

def Token.text : Token α → String
  | .note n => n.text
  | .rest l => "r:" ++ l.text

end

end Partitura

namespace Partitura.Compact

/-! ## Compact notation

Several notes may stand in one text, with spaces between them and bar lines, which only help the
eye: `C4:q E4:q | G4:h`. Other lists of notes hold one note a text.
-/

/-- The notes that one text of a list holds. Only a plain space or a bar line makes it compact. -/
def notesOf (text : String) : List String :=
  if (Text.stripChars text.toList).contains ' ' || text.toList.contains '|' then
    Text.words (String.ofList (text.toList.map fun c => if c = '|' then ' ' else c))
  else [Text.strip text]

/-- All notes of a list, one a text. -/
def expand (texts : List String) : List String :=
  texts.flatMap notesOf

end Partitura.Compact

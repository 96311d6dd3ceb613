import Partitura.Harmony.Key
import Partitura.Notation.Written

/-!
# Written degrees

An entry of a melody in degrees: a number, or a text that adds to it.

    5        the fifth of the key
    7b       the flattened seventh
    3+       the third, an octave up
    5-:h     the fifth, an octave down, a half note long
    #4       the raised fourth, in an older form
    r        a rest

An entry without a length takes the next one of the melody's rhythm.
-/

namespace Partitura

/-- One entry: a degree, or a rest if there is none, and perhaps a length. -/
structure DegreeEntry where
  degree : Option Degree
  /-- How a fault shows the degree. -/
  shown : String := ""
  duration : Option String := none
  deriving DecidableEq, Repr

namespace DegreeEntry

/-- A length `:<code>[.]` that ends the text, or nothing at its end. -/
def readDuration? (cs : List Char) : Option (Option String) :=
  match cs with
  | [] => some none
  | ':' :: rest => do
    let (code, rest) ← Notation.readCode? rest
    let (dotted, rest) := Notation.readDot rest
    guard rest.isEmpty
    return some (String.ofList (code ++ if dotted then ['.'] else []))
  | _ => none

def readShift : List Char → Int × List Char
  | '+' :: rest => (1, rest)
  | '-' :: rest => (-1, rest)
  | cs => (0, cs)

def rest? : List Char → Option DegreeEntry
  | 'r' :: rest | 'R' :: rest => (readDuration? rest).map fun d => { degree := none, duration := d }
  | _ => none

def ofNumber (n accidental octaveShift : Int) (duration : Option String) : DegreeEntry :=
  { degree := some { number := n, accidental, octaveShift }, shown := toString n, duration }

/-- A number with its modifiers behind it. -/
def plain? (cs : List Char) : Option DegreeEntry :=
  match Notation.spanDigits cs with
  | ([], _) => none
  | (ds, rest) => do
    let (accidental, rest) := Accidental.read rest
    let (octaveShift, rest) := readShift rest
    let duration ← readDuration? rest
    return ofNumber (Text.valueOf ds) accidental.shift octaveShift duration

/-- A number with its accidental in front. -/
def older? (cs : List Char) : Option DegreeEntry :=
  let (accidental, rest) := Accidental.read cs
  match Notation.spanDigits rest with
  | ([], _) => none
  | (ds, []) => some (ofNumber (Text.valueOf ds) accidental.shift 0 none)
  | _ => none

def ofText (text : String) : Outcome DegreeEntry :=
  let cs := Text.stripChars text.toList
  match (rest? cs).or ((plain? cs).or (older? cs)) with
  | some e => .ok e
  | none => .error (.misspelled (.degree (String.ofList cs)))

variable {α : Type} [Scalar α]

/-- Reads an entry. A flag counts as the number 0 or 1. -/
def parse : Value α → Outcome DegreeEntry
  | .int n => .ok (ofNumber n 0 0 none)
  | .bool b =>
    .ok { degree := some { number := if b then 1 else 0 }
          shown := (Value.bool b : Value α).shown }
  | v => ofText v.plain

end DegreeEntry

end Partitura

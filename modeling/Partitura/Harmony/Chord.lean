import Partitura.Notation.Token
import Partitura.Text.Character

/-!
# Chords

A chord is written `<root><quality>[@voicing][/bass]:<code>[.][* ~ > ^]`. The quality names the tones
above the root. Most qualities stand in a table; any other is read as a quality of the table with
sharps and flats of its fifth, ninth, eleventh or thirteenth. A voicing lays the tones of a quality
out differently, and a bass after a slash goes an octave below the root.
-/

namespace Partitura

namespace ChordQuality

/-- The tones of the named qualities in semitones above the root. -/
def table : List (String × List Int) :=
  [("", [0, 4, 7]), ("maj", [0, 4, 7]), ("M", [0, 4, 7]), ("m", [0, 3, 7]), ("min", [0, 3, 7]),
   ("dim", [0, 3, 6]), ("aug", [0, 4, 8]), ("sus2", [0, 2, 7]), ("sus4", [0, 5, 7]),
   ("sus", [0, 5, 7]), ("7", [0, 4, 7, 10]), ("maj7", [0, 4, 7, 11]), ("M7", [0, 4, 7, 11]),
   ("m7", [0, 3, 7, 10]), ("min7", [0, 3, 7, 10]), ("dim7", [0, 3, 6, 9]),
   ("m7b5", [0, 3, 6, 10]), ("aug7", [0, 4, 8, 10]), ("9", [0, 4, 7, 10, 14]),
   ("maj9", [0, 4, 7, 11, 14]), ("m9", [0, 3, 7, 10, 14]), ("11", [0, 4, 7, 10, 14, 17]),
   ("13", [0, 4, 7, 10, 14, 21]), ("add9", [0, 4, 7, 14]), ("add11", [0, 4, 7, 17]),
   ("add13", [0, 4, 7, 21]), ("madd9", [0, 3, 7, 14]), ("madd11", [0, 3, 7, 17]),
   ("6", [0, 4, 7, 9]), ("m6", [0, 3, 7, 9]), ("7add11", [0, 4, 7, 10, 17]),
   ("7add13", [0, 4, 7, 10, 21]), ("maj7add11", [0, 4, 7, 11, 17]),
   ("maj7add13", [0, 4, 7, 11, 21]), ("m7add11", [0, 3, 7, 10, 17]),
   ("m7add13", [0, 3, 7, 10, 21]), ("7alt", [0, 4, 6, 10, 13]), ("7b5", [0, 4, 6, 10]),
   ("7#5", [0, 4, 8, 10]), ("7b9", [0, 4, 7, 10, 13]), ("7#9", [0, 4, 7, 10, 15])]

/-- Other layouts of a quality's tones, by quality and voicing. -/
def voicings : List (String × List (String × List Int)) :=
  [("maj7",
     [("close", [0, 4, 7, 11]), ("drop2", [0, 7, 11, 16]), ("drop3", [0, 11, 16, 19]),
      ("shell", [0, 11, 16]), ("open", [-12, 0, 7, 16])]),
   ("m7",
     [("close", [0, 3, 7, 10]), ("drop2", [0, 7, 10, 15]), ("shell", [0, 10, 15]),
      ("open", [-12, 0, 7, 15]), ("rootless_a", [3, 7, 10, 14])]),
   ("7",
     [("close", [0, 4, 7, 10]), ("drop2", [0, 7, 10, 16]), ("shell", [0, 10, 16]),
      ("open", [-12, 0, 7, 16])]),
   ("m9",
     [("close", [0, 3, 7, 10, 14]), ("drop2", [0, 7, 10, 14, 15]),
      ("shell", [0, 10, 14, 15]), ("open", [-12, 0, 10, 14, 15])]),
   ("maj9",
     [("close", [0, 4, 7, 11, 14]), ("drop2", [0, 7, 11, 14, 16]),
      ("shell", [0, 11, 14, 16]), ("open", [-12, 0, 11, 14, 16])]),
   ("9",
     [("close", [0, 4, 7, 10, 14]), ("drop2", [0, 7, 10, 14, 16]),
      ("shell", [0, 10, 14, 16]), ("open", [-12, 0, 10, 14, 16])]),
   ("m",
     [("close", [0, 3, 7]), ("open", [-12, 0, 7, 15])]),
   ("maj",
     [("close", [0, 4, 7]), ("open", [-12, 0, 7, 16])]),
   ("",
     [("close", [0, 4, 7]), ("open", [-12, 0, 7, 16])])]

/-- The tones of a major triad. -/
def triad : List Int :=
  [0, 4, 7]

/-- An alteration of a tone: which way, and the degree as it is written. -/
structure Alteration where
  sharp : Bool
  degree : List Char
  deriving DecidableEq

/-- Takes the alterations out of a quality: what is left, and the alterations in order. -/
def splitAlterations : List Char → List Char × List Alteration
  | [] => ([], [])
  | c :: rest =>
    if (c = 'b' ∨ c = '#') ∧ rest.head?.any Text.isDigit then
      let (left, found) := splitAlterations (rest.dropWhile Text.isDigit)
      (left, ⟨c = '#', rest.takeWhile Text.isDigit⟩ :: found)
    else
      let (left, found) := splitAlterations rest
      (c :: left, found)
termination_by cs => cs.length
decreasing_by
  · have := (List.dropWhile_sublist Text.isDigit (l := rest)).length_le
    simp only [List.length_cons]
    omega
  · simp

/-- Semitones above the root of the degrees that can be altered. -/
def alterable? (degree : Nat) : Option Int :=
  if degree = 5 then some 7
  else if degree = 9 then some 14
  else if degree = 11 then some 17
  else if degree = 13 then some 21
  else none

/-- Moves the tone of the altered degree, or adds it when the chord does not have it. -/
def alter (tones : List Int) (a : Alteration) : List Int :=
  match alterable? (Text.valueOf a.degree) with
  | none => tones
  | some tone =>
    let moved := tone + (if a.sharp then 1 else -1)
    match tones.idxOf? tone with
    | some i => tones.set i moved
    | none => tones ++ [moved]

/-- The tones of a quality in semitones above the root. -/
def tones (quality : String) : List Int :=
  match table.lookup quality with
  | some tones => tones
  | none =>
    let (base, alterations) := splitAlterations quality.toList
    let start := (table.lookup (String.ofList base)).getD triad
    (alterations.foldl alter start).mergeSort (· ≤ ·)

/-- The tones of a quality in a named layout. -/
def voiced? (quality voicing : String) : Option (List Int) := do
  (← voicings.lookup quality).lookup voicing

/-- Drops the longest word of a list that the text begins with, the words tried in order. -/
def dropFirst (words : List String) (cs : List Char) : List Char :=
  match words.find? (·.toList.isPrefixOf cs) with
  | some w => cs.drop w.length
  | none => cs

/-- Drops `word` and the digits after it, if there are any. -/
def dropNumbered (word : String) (cs : List Char) : List Char :=
  if word.toList.isPrefixOf cs then
    let rest := cs.drop word.length
    if rest.head?.any Text.isDigit then rest.dropWhile Text.isDigit else cs
  else cs

/-- Drops the alterations that a text begins with. -/
def dropAlterations : List Char → List Char
  | [] => []
  | c :: rest =>
    if (c = 'b' ∨ c = '#') ∧ rest.head?.any Text.isDigit then
      dropAlterations (rest.dropWhile Text.isDigit)
    else c :: rest
termination_by cs => cs.length
decreasing_by
  have := (List.dropWhile_sublist Text.isDigit (l := rest)).length_le
  simp only [List.length_cons]
  omega

/-- What follows the quality at the head of a text. -/
def skip (cs : List Char) : List Char :=
  let cs := dropFirst ["maj", "min", "m", "M", "dim", "aug", "sus2", "sus4", "sus"] cs
  let cs := cs.dropWhile Text.isDigit
  let cs := dropNumbered "add" cs
  let cs := dropFirst ["alt"] cs
  dropAlterations cs

end ChordQuality

/-- One written chord, or a rest, which has no root and no tones. -/
structure ChordToken where
  root : String
  quality : String
  length : Length
  notes : List String
  articulation : Articulation := .plain
  voicing : Option String := none
  bass : Option String := none
  /-- Whether the voicing asked for is known for the quality. -/
  voiced : Bool := true

namespace ChordToken

/-- The octave of a chord's root unless told otherwise. -/
def defaultOctave : Int :=
  3

def isRest (t : ChordToken) : Bool :=
  t.notes.isEmpty

def rest (length : Length) : ChordToken :=
  { root := "r", quality := "", length, notes := [] }

/-- The parts of a chord as they are written. -/
structure Written where
  root : PitchName
  quality : String
  voicing : Option String
  bass : Option PitchName
  code : List Char
  dotted : Bool
  articulation : Articulation

/-- A letter and an accidental. -/
def readName? : List Char → Option (PitchName × List Char)
  | l :: cs => do
    let letter ← Letter.ofChar? l
    let (accidental, cs) := Accidental.read cs
    return (⟨letter, accidental⟩, cs)
  | [] => none

/-- A voicing `@<word>`, or nothing. -/
def readVoicing (cs : List Char) : Option String × List Char :=
  match cs with
  | '@' :: after =>
    let word := after.takeWhile Text.isWord
    if word.isEmpty then (none, cs)
    else (some (String.ofList word), after.dropWhile Text.isWord)
  | _ => (none, cs)

/-- A bass `/<name>`, or nothing. -/
def readBass (cs : List Char) : Option PitchName × List Char :=
  match cs with
  | '/' :: after =>
    match readName? after with
    | some (name, after) => (some name, after)
    | none => (none, cs)
  | _ => (none, cs)

def readArticulation (cs : List Char) : Articulation × List Char :=
  match cs with
  | c :: after =>
    match Articulation.ofChar? c with
    | some a => (a, after)
    | none => (.plain, cs)
  | [] => (.plain, [])

/-- Splits a chord into its parts, if the whole text is one. -/
def split? (cs : List Char) : Option Written := do
  let (root, cs) ← readName? cs
  let after := ChordQuality.skip cs
  let quality := String.ofList (cs.take (cs.length - after.length))
  let (voicing, cs) := readVoicing after
  let (bass, cs) := readBass cs
  let ':' :: cs := cs | none
  let (code, cs) ← Notation.readCode? cs
  let (dotted, cs) := Notation.readDot cs
  let (articulation, cs) := readArticulation cs
  guard cs.isEmpty
  return { root, quality, voicing, bass, code, dotted, articulation }

/-- The chord that the parts describe, with its root in `octave`. -/
def ofWritten (w : Written) (octave : Int) : Outcome ChordToken := do
  let length ← Length.parse (String.ofList w.code) w.dotted
  let root : Pitch := ⟨w.root, octave⟩
  let layout := w.voicing.bind (ChordQuality.voiced? w.quality)
  let tones := layout.getD (ChordQuality.tones w.quality)
  let upper := tones.map fun t => Pitch.textOfMidi (root.midi + t)
  let lower := w.bass.toList.map fun b => (⟨b, octave - 1⟩ : Pitch).text
  return { root := w.root.text
           quality := if w.quality = "" then "maj" else w.quality
           length
           notes := lower ++ upper
           articulation := w.articulation
           voicing := w.voicing
           bass := w.bass.map PitchName.text
           voiced := w.voicing.isNone || layout.isSome }

/-- Reads a chord or a rest; blanks around it do not count. -/
def parse (text : String) (octave : Int) : Outcome ChordToken :=
  if Token.isRest text then return .rest (← Token.parseRest text)
  else
    match split? (Text.stripChars text.toList) with
    | some w => ofWritten w octave
    | none => .error (.misspelled (.chord text))

/-- The pitches of a chord symbol, which is a chord without its length. -/
def notesOf (symbol : String) (octave : Int) : Outcome (List String) := do
  return (← parse (symbol ++ ":q") octave).notes

end ChordToken

end Partitura

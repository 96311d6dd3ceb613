import Partitura.Fault
import Partitura.Text.Character

/-!
# Modes

The scales a key may have, each a list of semitones above its root, and the names they go by. A name
is read without regard to capitals, and blanks in it count as underscores; a lone capital `M` is
major all the same.
-/

namespace Partitura

inductive Mode where
  | major | ionian | dorian | phrygian | lydian | mixolydian | minor | aeolian | locrian
  | harmonicMinor | melodicMinor
  | pentatonicMajor | pentatonicMinor
  | blues | bluesMajor
  | wholeTone | diminished | diminishedHalfWhole | chromatic
  | bebopDominant | bebopMajor | altered
  deriving DecidableEq, Repr

namespace Mode

/-- All modes, in the order messages list them. -/
def all : List Mode :=
  [major, ionian, dorian, phrygian, lydian, mixolydian, minor, aeolian, locrian, harmonicMinor,
   melodicMinor, pentatonicMajor, pentatonicMinor, blues, bluesMajor, wholeTone, diminished,
   diminishedHalfWhole, chromatic, bebopDominant, bebopMajor, altered]

def name : Mode → String
  | major => "major"
  | ionian => "ionian"
  | dorian => "dorian"
  | phrygian => "phrygian"
  | lydian => "lydian"
  | mixolydian => "mixolydian"
  | minor => "minor"
  | aeolian => "aeolian"
  | locrian => "locrian"
  | harmonicMinor => "harmonic_minor"
  | melodicMinor => "melodic_minor"
  | pentatonicMajor => "pentatonic_major"
  | pentatonicMinor => "pentatonic_minor"
  | blues => "blues"
  | bluesMajor => "blues_major"
  | wholeTone => "whole_tone"
  | diminished => "diminished"
  | diminishedHalfWhole => "diminished_half_whole"
  | chromatic => "chromatic"
  | bebopDominant => "bebop_dominant"
  | bebopMajor => "bebop_major"
  | altered => "altered"

/-- The tones of a mode in semitones above its root, ascending within an octave. -/
def steps : Mode → List Int
  | major | ionian => [0, 2, 4, 5, 7, 9, 11]
  | dorian => [0, 2, 3, 5, 7, 9, 10]
  | phrygian => [0, 1, 3, 5, 7, 8, 10]
  | lydian => [0, 2, 4, 6, 7, 9, 11]
  | mixolydian => [0, 2, 4, 5, 7, 9, 10]
  | minor | aeolian => [0, 2, 3, 5, 7, 8, 10]
  | locrian => [0, 1, 3, 5, 6, 8, 10]
  | harmonicMinor => [0, 2, 3, 5, 7, 8, 11]
  | melodicMinor => [0, 2, 3, 5, 7, 9, 11]
  | pentatonicMajor => [0, 2, 4, 7, 9]
  | pentatonicMinor => [0, 3, 5, 7, 10]
  | blues => [0, 3, 5, 6, 7, 10]
  | bluesMajor => [0, 2, 3, 4, 7, 9]
  | wholeTone => [0, 2, 4, 6, 8, 10]
  | diminished => [0, 2, 3, 5, 6, 8, 9, 11]
  | diminishedHalfWhole => [0, 1, 3, 4, 6, 7, 9, 10]
  | chromatic => [0, 1, 2, 3, 4, 5, 6, 7, 8, 9, 10, 11]
  | bebopDominant => [0, 2, 4, 5, 7, 9, 10, 11]
  | bebopMajor => [0, 2, 4, 5, 7, 8, 9, 11]
  | altered => [0, 1, 3, 4, 6, 8, 10]

/-- Other names of modes. -/
def aliases : List (String × Mode) :=
  [("maj", major), ("m", minor), ("min", minor), ("nat_minor", minor), ("natural_minor", minor),
   ("pent", pentatonicMajor), ("pent_major", pentatonicMajor), ("pent_minor", pentatonicMinor),
   ("harm_minor", harmonicMinor), ("mel_minor", melodicMinor)]

/-- Each run of blanks turned into one underscore. `within` says that a run has begun. -/
def joinBlanks (within : Bool) : List Char → List Char
  | [] => []
  | c :: rest =>
    if Text.isBlank c then
      if within then joinBlanks true rest else '_' :: joinBlanks true rest
    else c :: joinBlanks false rest

/-- The form in which the name of a mode is looked up. Names are ASCII, so only ASCII capitals need
folding. -/
def fold (text : String) : String :=
  String.ofList (joinBlanks false ((Text.stripChars text.toList).map Char.toLower))

def ofText? (text : String) : Option Mode :=
  if text = "M" then some major
  else
    let name := fold text
    if name = "" then some major
    else
      match aliases.lookup name with
      | some m => some m
      | none => all.find? (·.name = name)

/-- Why a text names no mode. -/
def unknown (text : String) : Rejection :=
  .unknownName .scale (Text.quoted text) (all.map name)

def parse (text : String) : Outcome Mode :=
  match ofText? text with
  | some m => .ok m
  | none => .error (.rejected (unknown text))

end Mode

end Partitura

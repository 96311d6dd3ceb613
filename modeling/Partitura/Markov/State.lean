import Partitura.Harmony.Key
import Partitura.Markov.Table

/-!
# What a state plays

A state is a degree of the scale with an accidental in front, a pitch, a rest, or an approach, which
is a semitone below the pitch that the next state plays. Anything else is silent.
-/

namespace Partitura.Markov

/-- The scale to play over a chord, by the quality of the chord. -/
def chordModes : List (String × Mode) :=
  [("maj", .major), ("maj7", .major), ("maj9", .major), ("maj6", .major), ("6", .major),
   ("6/9", .major), ("add9", .major), ("m", .minor), ("min", .minor), ("m7", .dorian),
   ("min7", .dorian), ("m9", .dorian), ("m6", .dorian), ("m11", .dorian), ("7", .mixolydian),
   ("dom7", .mixolydian), ("9", .mixolydian), ("11", .mixolydian), ("13", .mixolydian),
   ("7sus4", .mixolydian), ("7#9", .mixolydian), ("7b9", .phrygian), ("m7b5", .locrian),
   ("half-dim", .locrian), ("dim", .locrian), ("dim7", .locrian), ("sus2", .major),
   ("sus4", .major), ("aug", .major), ("+", .major)]

/-- The key to play in over a chord: a scale on its root, major when the quality is not known, and C
major when there is no root. -/
def chordKey (symbol : String) : Key :=
  match Text.stripChars symbol.toList with
  | [] => ⟨⟨.c, .natural⟩, .major⟩
  | l :: rest =>
    let (accidental, rest) := Accidental.read rest
    match Letter.ofChar? l, rest.contains '\n' with
    | some letter, false =>
      let quality := if rest.isEmpty then "maj" else String.ofList rest
      ⟨⟨letter, accidental⟩, (chordModes.lookup quality).getD .major⟩
    | _, _ => ⟨⟨.c, .natural⟩, .major⟩

/-- A degree: an accidental and a number, and perhaps the end of the line. -/
def degree? (state : String) : Option Degree :=
  let (accidental, rest) := Accidental.read state.toList
  let ds := rest.takeWhile Text.isDigit
  let rest := rest.dropWhile Text.isDigit
  if ds.isEmpty then none
  else if rest = [] ∨ rest = ['\n'] then
    some { number := Text.valueOf ds, accidental := accidental.shift }
  else none

/-- What a state stands for. -/
inductive Meaning where
  | rest
  | approach
  | pitch (text : String)
  | degree (d : Degree)
  | unknown
  deriving DecidableEq, Repr

def meaning (state : String) : Meaning :=
  if state = Markov.rest then .rest
  else if state = Markov.approach then .approach
  else if (Pitch.ofText? state).isSome then .pitch state
  else
    match degree? state with
    | some d => .degree d
    | none => .unknown

def isKnown (state : String) : Bool :=
  meaning state ≠ .unknown

/-- The pitch that a state plays, given the pitch of the next state, if that has one. -/
def pitchOf? (k : Key) (octave : Int) (next : Option String) (state : String) :
    Outcome (Option String) :=
  match meaning state with
  | .rest | .unknown => .ok none
  | .approach =>
    match next with
    | some pitch => some <$> Pitch.transposeText pitch (-1)
    | none => .ok none
  | .pitch text => .ok (some text)
  | .degree d => do
    return some (Pitch.textOfMidi (← k.degreeMidi (toString d.number) d octave))

end Partitura.Markov

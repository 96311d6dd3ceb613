import Partitura.Document.Value
import Partitura.Voicing.Motion

/-!
# Candidates for a voicing

Every voice has a range. The candidates for a chord give each voice a tone of the chord within its
range, and together hold at least the first three pitch classes of the chord. They are listed in
lexicographic order from the lowest, and only so many of them.
-/

namespace Partitura.Voicing

/-- The lowest and the highest pitch number of a voice. -/
abbrev PitchRange :=
  Int × Int

/-! ## Ranges -/

/-- The named voices from the bottom, with their ranges. -/
def namedVoices : List (String × PitchRange) :=
  [("bass", (28, 48)), ("tenor", (36, 55)), ("alto", (43, 62)), ("soprano", (48, 79))]

/-- The name of a voice and the range it has unless told otherwise. Voices above the named ones span
two octaves, each an octave above the one before. -/
def standardVoice (i : Nat) : String × PitchRange :=
  match namedVoices[i]? with
  | some v => v
  | none => ("voice" ++ toString i, (36 + (i : Int) * octaveSize, 60 + (i : Int) * octaveSize))

variable {α : Type}

/-- A raw value as the text of a pitch. -/
def boundOf : Value α → Outcome Int
  | .text s => Pitch.midiOf s
  | _ => .error .wrongKind

/-- The two ends that a raw value is made of. -/
def endsOf (v : Value α) : Outcome (Value α × Value α) := do
  match ← v.items with
  | [low, high] => return (low, high)
  | [] => throw (.rejected (.tooFewBounds 0))
  | [_] => throw (.rejected (.tooFewBounds 1))
  | _ => throw (.rejected .tooManyBounds)

/-- A raw value as a range: two pitches. -/
def rangeOf (v : Value α) : Outcome PitchRange := do
  let (low, high) ← endsOf v
  return (← boundOf low, ← boundOf high)

/-- The range of each of a number of voices; a range given for a voice's name wins. -/
def ranges (voices : Int) (given : Fields α) : Outcome (List PitchRange) :=
  (List.range voices.toNat).mapM fun i =>
    let (name, range) := standardVoice i
    match given.get? name with
    | some v => rangeOf v
    | none => .ok range

/-! ## Enumeration -/

/-- How many candidates are listed at most. -/
def maxCandidates : Nat :=
  1000

/-- The numbers from `low` to `high` whose pitch class is among `classes`. -/
def tonesWithin (classes : List Int) (r : PitchRange) : List Int :=
  ((List.range (r.2 - r.1 + 1).toNat).map fun (i : Nat) => r.1 + i).filter
    fun m => classes.contains (m % octaveSize)

/-- Whether a voicing holds all required pitch classes. -/
def covers (required : List Int) (v : Voicing) : Bool :=
  required.all fun pc => v.any fun m => m % octaveSize == pc

/-- The first `room` voicings that take one tone from each of the options, after the tones already
taken, which are given from the top down, and that cover the required classes. -/
def enumerate (required : List Int) : List (List Int) → List Int → Nat → List Voicing
  | _, _, 0 => []
  | [], taken, _ + 1 =>
    let v := taken.reverse
    if covers required v then [v] else []
  | tones :: options, taken, room =>
    tones.foldl
      (fun found m =>
        if found.length < room then
          found ++ enumerate required options (m :: taken) (room - found.length)
        else found)
      []

/-- The candidates for a chord, given by its written pitches. -/
def candidates (pitches : List String) (ranges : List PitchRange) : Outcome (List Voicing) := do
  let classes := (← pitches.mapM Pitch.midiOf).map (· % octaveSize)
  return enumerate (classes.take 3) (ranges.map (tonesWithin classes)) [] maxCandidates

end Partitura.Voicing

import Partitura.Harmony.Chord
import Partitura.Session
import Partitura.Voicing.Candidates

/-!
# Voiced progressions

A progression is voiced chord by chord. The best partial progressions are kept, each is extended by
every candidate for the next chord that the rules allow, and the best of the results are kept again.
Where the rules allow none, they are set aside for one step, at a price.
-/

namespace Partitura.Voicing

/-- A progression voiced as far as its newest chord. -/
structure Path where
  score : Int
  newest : Voicing
  /-- The voicings before, the last one first. -/
  older : List Voicing
  deriving DecidableEq, Repr

namespace Path

def start (v : Voicing) : Path :=
  ⟨0, v, []⟩

def extend (p : Path) (gain : Int) (v : Voicing) : Path :=
  ⟨p.score + gain, v, p.newest :: p.older⟩

def toList (p : Path) : List Voicing :=
  (p.newest :: p.older).reverse

end Path

/-- How many partial progressions are kept. -/
def beamWidth : Nat :=
  50

/-- What it costs to set the rules aside for one step. -/
def relaxedPenalty : Int :=
  100

/-- All allowed extensions of the kept progressions, in the order of the progressions and then of the
candidates. -/
def extensions (r : Rules) (beam : List Path) (candidates : List Voicing) : List Path :=
  beam.flatMap fun p =>
    (candidates.filter (allowed r p.newest)).map fun v => p.extend (stepScore r p.newest v) v

/-- All extensions whatever the rules say, each at the price of setting them aside. -/
def relaxed (beam : List Path) (candidates : List Voicing) : List Path :=
  beam.flatMap fun p => candidates.map fun v => p.extend (-relaxedPenalty) v

/-- The best progressions; of equal ones those found first. -/
def best (paths : List Path) : List Path :=
  (paths.mergeSort fun p q => q.score ≤ p.score).take beamWidth

/-- Extends the kept progressions over the remaining chords, the next of which has number `index`.
The warnings name the chords at which the rules had to be set aside. -/
def search (r : Rules) : Nat → List Path → List (List Voicing) → List Path × Warnings
  | _, beam, [] => (beam, [])
  | index, beam, candidates :: rest =>
    let next := extensions r beam candidates
    if next.isEmpty then
      let (found, warnings) := search r (index + 1) (best (relaxed beam candidates)) rest
      (found,
       ("No valid voicings satisfy all constraints at chord " ++ toString index) :: warnings)
    else search r (index + 1) (best next) rest

/-- The octave of the chords of a progression. -/
def chordOctave : Int :=
  3

/-- The voicings of a progression as written pitches, bass first, and what went wrong. -/
structure Led where
  voicings : List (List String)
  warnings : Warnings := []

/-- The chords stacked plainly, for want of anything better. -/
def stacked (chords : List (List String)) (warnings : Warnings) : Led :=
  { voicings := chords
    warnings := warnings ++ ["Could not find valid voicing sequence for all chords"] }

/-- The voicings of the best progression through the candidates of all chords, if every chord has
some; otherwise the number of the first one that has none. -/
def bestSequence (r : Rules) (candidates : List (List Voicing)) :
    Except Nat (List Voicing × Warnings) :=
  match candidates.findIdx? List.isEmpty, candidates with
  | some i, _ => .error i
  | none, [] => .ok ([], [])
  | none, first :: rest =>
    let (beam, warnings) := search r 1 (first.map Path.start) rest
    match beam with
    | p :: _ => .ok (p.toList, warnings)
    | [] => .ok ([], warnings)

variable {α : Type}

/-- Voices a progression of chord symbols. -/
def lead (progression : List String) (voices : Int) (style : String) (extra : List String)
    (given : Fields α) : Outcome Led :=
  if progression.isEmpty then .ok { voicings := [] }
  else do
    let rules := Rules.ofNames (effectiveConstraints style extra)
    let ranges ← ranges voices given
    let chords ← progression.mapM (ChordToken.notesOf · chordOctave)
    let candidates ← chords.mapM (Voicing.candidates · ranges)
    match bestSequence rules candidates with
    | .ok (sequence, warnings) =>
      return { voicings := sequence.map (·.map Pitch.textOfMidi), warnings }
    | .error i =>
      return stacked chords ["No valid voicings for chord: " ++ progression.getD i ""]

/-- What is questionable about a progression to be voiced. -/
def leadWarnings (progression : List String) (voices : Int) (style : String) : Warnings :=
  (if progression.isEmpty then ["Voice leading must have a chord progression"] else []) ++
  (if voices < 2 ∨ 6 < voices then
     ["Voice count " ++ toString voices ++ " should be between 2 and 6"]
   else []) ++
  (if style ≠ "" ∧ (styles.lookup style).isNone then
     ["Unknown style: " ++ style ++ ". Valid: " ++ ", ".intercalate (styles.map (·.1))]
   else [])

end Partitura.Voicing

import Partitura.Document.Value
import Partitura.Harmony.Mode
import Partitura.Notation.Pitch

/-!
# Keys

A key is a root and a mode, written `<root> <mode>`: `C major`, `F# minor`, `Bb dorian`. The mode may
be left out, for major, or abbreviated. A key names the pitch classes of its scale, snaps pitches to
it, and counts its degrees from 1, on into the octaves above.
-/

namespace Partitura

structure Key where
  root : PitchName
  mode : Mode
  deriving DecidableEq, Repr

namespace Key

def text (k : Key) : String :=
  k.root.text ++ " " ++ k.mode.name

def rootClass (k : Key) : Int :=
  k.root.pitchClass

/-- The pitch classes of the scale, from the root upward. -/
def pitchClasses (k : Key) : List Int :=
  k.mode.steps.map fun i => (k.rootClass + i) % octaveSize

/-- The root of a key and the text of its mode. Only the blanks between the two may hold the end of a
line. -/
def split? (text : String) : Option (PitchName × String) :=
  match Text.stripChars text.toList with
  | l :: rest => do
    let letter ← Letter.ofChar? l.toUpper
    let (accidental, rest) := Accidental.read rest
    let mode := rest.dropWhile Text.isBlank
    guard (!mode.contains '\n')
    return (⟨letter, accidental⟩, String.ofList mode)
  | [] => none

def ofText (text : String) : Outcome Key :=
  match split? text with
  | none => .error (.rejected (.invalidKey (Text.quoted text)))
  | some (root, mode) =>
    match Mode.ofText? mode with
    | some mode => .ok ⟨root, mode⟩
    | none => .error (.rejected (.invalidMode (Text.quoted text) (Mode.unknown mode)))

variable {α : Type} [Scalar α]

/-- The key that a raw value writes. -/
def parse : Value α → Outcome Key
  | .text s => ofText s
  | v => .error (.rejected (.invalidKey v.shown))

end Key

/-! ## Snapping -/

/-- The number nearest to `pitch`, from `distance` semitones on outward and at most `more` further,
whose class is among `classes`; the upper one of two, and `pitch` itself if there is none. -/
def nearestOutward (pitch : Int) (classes : List Int) : Nat → Nat → Int
  | _, 0 => pitch
  | distance, more + 1 =>
    if classes.contains ((pitch + distance) % octaveSize) then pitch + distance
    else if classes.contains ((pitch - distance) % octaveSize) then pitch - distance
    else nearestOutward pitch classes (distance + 1) more

/-- Snaps a pitch number to the nearest one whose class is among `classes`, no further than
`maxDistance` away. -/
def quantizePitch (pitch : Int) (classes : List Int) (maxDistance : Int) : Int :=
  if classes.contains (pitch % octaveSize) then pitch
  else nearestOutward pitch classes 1 maxDistance.toNat

/-- How far a pitch is moved to fit a scale. -/
def snapDistance : Int :=
  6

/-- Snaps a written pitch to the scale of a key. A pitch of the scale keeps its spelling. -/
def Key.snap (k : Key) (pitch : String) : Outcome String := do
  let midi ← Pitch.midiOf pitch
  let snapped := quantizePitch midi k.pitchClasses snapDistance
  return if snapped = midi then pitch else Pitch.textOfMidi snapped

/-! ## Degrees -/

/-- The number of a degree from 1 on, of the scale whose root lies in `octave`. Degrees beyond the
scale go on in the octaves above. -/
def Key.tone (k : Key) (degree octave : Int) : Int :=
  let size : Int := k.mode.steps.length
  let wraps := (degree - 1) / size
  let index := (degree - 1) % size
  let root : Pitch := ⟨k.root, octave⟩
  root.midi + k.mode.steps.getD index.toNat 0 + wraps * octaveSize

/-- A degree of a scale: its number from 1 on, sharps or flats, and octaves added. -/
structure Degree where
  number : Int
  accidental : Int := 0
  octaveShift : Int := 0
  deriving DecidableEq, Repr

/-- The number of a degree, of the scale whose root lies in `octave`. `shown` is how a fault shows the
degree. -/
def Key.degreeMidi (k : Key) (shown : String) (d : Degree) (octave : Int) : Outcome Int :=
  if d.number < 1 then .error (.misspelled (.degreeBelowOne shown))
  else .ok (k.tone d.number octave + d.accidental + d.octaveShift * octaveSize)

end Partitura

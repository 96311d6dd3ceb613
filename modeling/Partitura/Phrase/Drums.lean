import Partitura.Notation.Token
import Partitura.Number.Reading
import Partitura.Phrase.Context
import Partitura.Rhythm.Euclid

/-!
# Drum phrases and even rhythms

A line of a drum pattern has a character for each step: `x` for a hit, `X` or `>` for an accented one,
anything else for silence. Single hits may be placed at any time. An even rhythm places its hits by
itself.
-/

namespace Partitura.DrumTime

/-! ## Drum times

The position of a drum hit is a sum of lengths: `h+8` is two beats and a half. A part of the sum is a
length code, dotted or not, or a plain number of beats.
-/

/-- The parts of a text between the plus signs; `part` holds the characters of the present one in
reverse. -/
def splitFrom (part : List Char) : List Char → List String
  | [] => [String.ofList part.reverse]
  | c :: rest =>
    if c = '+' then String.ofList part.reverse :: splitFrom [] rest
    else splitFrom (c :: part) rest

def split (text : String) : List String :=
  splitFrom [] text.toList

/-- Whether a part is a length code, dots at its end not counting. -/
def isLength (part : String) : Bool :=
  let bare := (part.toList.reverse.dropWhile (· = '.')).reverse
  (DurationCode.ofText? (String.ofList bare)).isSome

variable {α : Type} [Scalar α]

/-- The beats of one part of `text`. -/
def partBeats (text part : String) : Outcome α :=
  if isLength part then return (← Length.ofText part).beats
  else
    match Decimal.readScalar? part with
    | some x => .ok x
    | none => .error (.misspelled (.drumTime text part))

/-- The beats that a drum time writes. A part `0` adds nothing. -/
def parse (text : String) : Outcome α :=
  ((split text).map Text.strip).foldlM
    (fun total part => if part = "0" then .ok total else do return total + (← partBeats text part))
    0.0

end Partitura.DrumTime

namespace Partitura.Phrase

variable {α : Type} [Scalar α]

/-! ## Drums -/

/-- How loud a plain hit is, as a part of the velocity of the track. -/
def hitRatio : α :=
  0.8

/-- How loud an accented hit is, whatever the track. -/
def accentVelocity : α :=
  1.0

/-- Beats in a bar of drums. -/
def drumBarBeats : α :=
  4.0

/-- The velocity of a step, if it is not silent. -/
def stepVelocity? (step : String) (velocity : α) : Option α :=
  if step = "x" then some (velocity * hitRatio)
  else if step = "X" ∨ step = ">" then some accentVelocity
  else none

/-- The hits of one drum by its steps. -/
def lineNotes (drum kit : String) (length velocity : α) (steps : List String) : List (Note α) :=
  steps.zipIdx.filterMap fun (step, i) =>
    (stepVelocity? step velocity).map fun v =>
      { pitch := Drum.text drum kit
        start := Scalar.ofNat i * length
        duration := length
        velocity := v }

/-- The steps of a line that is a text. -/
def stepsOf (line : String) : List String :=
  line.toList.map String.singleton

/-- A raw value as a step: only a text can be a hit. -/
def rawStep : Value α → String
  | .text s => s
  | _ => ""

/-- A drum pattern by its lines: as long as the longest of them, or as it says itself. -/
def ofDrumLines (c : Context α) (d : DrumsContent α) (length : α) : Phrase α :=
  let longest := (d.lines.map fun (_, line) => line.length).foldl max 0
  { notes := d.lines.flatMap fun (drum, line) =>
      lineNotes drum d.kit length c.velocity (stepsOf line)
    beats :=
      match d.bars with
      | some bars => bars * drumBarBeats
      | none => Scalar.ofNat longest * length }

def hitNote (c : Context α) (kit : String) (length : α) (h : DrumHit α) (start : α) : Note α :=
  { pitch := Drum.text h.drum kit
    start
    duration := length
    velocity := h.velocity.getD c.velocity }

/-- The greatest of a list of times, the first of equal ones. -/
def latest? : List α → Option α
  | [] => none
  | t :: rest => some (rest.foldl Scalar.max t)

/-- The length of a drum pattern without lines: what it says itself, else that of its steps, else a
step beyond the last hit and at least a bar. -/
def looseBeats (bars : Option α) (steps : List String) (times : List α) (length : α) : α :=
  match bars with
  | some bars => bars * drumBarBeats
  | none =>
    if !steps.isEmpty then Scalar.ofNat steps.length * length
    else
      match latest? times with
      | some t => Scalar.max (t + length) drumBarBeats
      | none => 0.0

/-- A drum pattern without lines: steps of the kick, and single hits. -/
def ofLooseDrums (c : Context α) (d : DrumsContent α) (length : α) : Outcome (Phrase α) := do
  let steps ← if d.steps.truthy then (·.map rawStep) <$> d.steps.items else pure []
  let times ← d.hits.mapM fun h => DrumTime.parse h.time
  return { notes :=
             lineNotes "kick" d.kit length c.velocity steps
               ++ List.zipWith (hitNote c d.kit length) d.hits times
           beats := looseBeats d.bars steps times length }

def ofDrums (c : Context α) (d : DrumsContent α) : Outcome (Phrase α) := do
  let length : α := (← Length.ofText d.step).beats
  if d.lines.isEmpty then ofLooseDrums c d length else return ofDrumLines c d length

/-! ## Even rhythms -/

/-- What an even rhythm plays: its drum, else its pitch, else a middle C. -/
def rhythmPitch (c : Context α) (e : EuclideanContent α) : Outcome String :=
  if e.drum.truthy then .ok (Drum.text e.drum.plain e.kit)
  else if e.pitch.truthy then
    match e.pitch with
    | .text s => c.place s
    | _ => .error .noSuchMember
  else c.place (⟨⟨.c, .natural⟩, defaultOctave⟩ : Pitch).text

/-- Hits spread evenly over slots; the slots take their time, hit or not. -/
def ofEuclidean (c : Context α) (e : EuclideanContent α) : Outcome (Phrase α) := do
  let word := Rhythm.euclidean e.hits e.steps e.rotation
  let length : α := (← Length.ofText e.duration).beats
  let pitch ← rhythmPitch c e
  return { notes := (Rhythm.pulsePositions word).map fun i =>
             { pitch, start := Scalar.ofNat i * length, duration := length
               velocity := c.velocity }
           beats := Scalar.ofInt (max e.steps 0) * length }

end Partitura.Phrase

import Partitura.Performance.Basic
import Partitura.Phrase.Envelope
import Partitura.Random.Draw

/-!
# Playing notes

What becomes of the notes of a phrase when an instrument plays them in a section. A note passes these
stages in turn:

1. it is left out if it begins at or after the end of the section;
2. its probability and the density of the section decide whether it sounds;
3. swing delays it on every other half of a beat;
4. the groove moves and accents it;
5. human variation and the variance of the style change it at random.

The chances are drawn note by note in this order.
-/

namespace Partitura.Humanize

variable {α : Type} [Scalar α]

/-! ## Human variation

Small random deviations of when a note begins, how loud it is and how long it lasts. An amount of
zero leaves a note alone and draws nothing.
-/

/-- The greatest deviation of a start in beats, at an amount of 1. -/
def timingSpread : α :=
  0.05

/-- The greatest deviation of a velocity, at an amount of 1. -/
def velocitySpread : α :=
  0.1

/-- The greatest deviation of a duration as a part of it, at an amount of 1. -/
def durationSpread : α :=
  0.05

/-- The shortest duration that a note is cut to. -/
def minDuration : α :=
  0.01

/-- A deviation of up to `spread * amount` either way. -/
def deviation (spread amount : α) : Draw α := do
  return (← Draw.uniform (-1.0) 1.0) * spread * amount

/-- Moves a start, but not before 0. -/
def timing (beat amount : α) : Draw α := do
  if amount == 0 then return beat
  return Scalar.max 0.0 (beat + (← deviation timingSpread amount))

/-- Changes a velocity within 0 and 1. -/
def velocity (v amount spread : α) : Draw α := do
  if amount == 0 then return v
  return Scalar.min 1.0 (Scalar.max 0.0 (v + (← deviation spread amount)))

/-- Stretches or shrinks a duration. -/
def duration (d amount : α) : Draw α := do
  if amount == 0 then return d
  return Scalar.max minDuration (d * (1.0 + (← deviation durationSpread amount)))

end Partitura.Humanize

namespace Partitura

/-- A note as it is played, at a beat counted from the start of the section. -/
structure PlayedNote (α : Type) where
  instrument : String
  pitch : String
  beat : α
  duration : α
  velocity : α
  timing : Option Int := none
  glide : Bool := false

variable {α : Type} [Scalar α]

namespace Performance

/-- The part of a beat whose every other one is swung. -/
def swungDivision : α :=
  0.5

/-- Whether a note sounds. A note without a probability always does in a section without a density,
and then no chance is drawn. -/
def sounds (density : Option (DensityCurve α)) (sectionBeats : α) (n : Note α) : Draw Bool := do
  match density, n.probability with
  | none, none => return true
  | none, some p => return decide ((← Draw.unit) < p)
  | some d, probability =>
    let level ← (d.atBeat n.start sectionBeats : Outcome α)
    return shouldPlay probability level (← Draw.unit)

/-- A beat and a velocity in a groove, if there is one. -/
def inGroove (groove : Option (Groove α)) (beat velocity : α) : Outcome (α × α) :=
  match groove with
  | some g => g.shift beat velocity
  | none => .ok (beat, velocity)

/-- A beat, a velocity and a duration after human variation. -/
def humanized (amount beat velocity duration : α) : Draw (α × α × α) := do
  if amount == 0 then return (beat, velocity, duration)
  let beat ← Humanize.timing beat amount
  let velocity ← Humanize.velocity velocity amount Humanize.velocitySpread
  let duration ← Humanize.duration duration amount
  return (beat, velocity, duration)

/-- A velocity after the variance of the style. -/
def varied (variance velocity : α) : Draw α := do
  if variance == 0 then return velocity
  return velocity + (← Draw.uniform (-variance) variance)

/-- A note that sounds, as it is played. -/
def playNote (p : Performance α) (groove : Option (Groove α)) (instrument : String) (swing : α)
    (n : Note α) : Draw (PlayedNote α) := do
  let swung ← (applySwing n.start swing swungDivision : Outcome α)
  let (beat, velocity) ← (inGroove groove swung n.velocity : Outcome (α × α))
  let (beat, velocity, duration) ← humanized p.humanize beat velocity n.duration
  let velocity ← varied p.velocityVariance velocity
  return { instrument, pitch := n.pitch, beat := Scalar.max 0.0 beat, duration
           velocity := Scalar.min 1.0 (Scalar.max 0.0 velocity)
           timing := n.timing, glide := n.glide }

/-- Whether a note begins before the section ends. -/
def begins (sectionBeats : α) (n : Note α) : Bool :=
  !decide (sectionBeats ≤ n.start)

/-- A note as it is played, if it sounds. -/
def playNote? (p : Performance α) (groove : Option (Groove α)) (instrument : String)
    (sectionBeats swing : α) (density : Option (DensityCurve α)) (n : Note α) :
    Draw (Option (PlayedNote α)) := do
  if ← sounds density sectionBeats n then some <$> p.playNote groove instrument swing n
  else return none

/-- Plays notes in a section of `sectionBeats` beats. -/
def play (p : Performance α) (instrument : String) (sectionBeats swing : α)
    (density : Option (DensityCurve α)) (notes : List (Note α)) : Run (List (PlayedNote α)) := do
  let groove ← Run.named? Groove.ofValue p.groove
  let played ← Run.ofDraw
    ((notes.filter (begins sectionBeats)).mapM
      (p.playNote? groove instrument sectionBeats swing density))
  return played.filterMap id

end Performance

end Partitura

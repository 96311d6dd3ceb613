import Partitura.Curve.AutomationPath
import Partitura.Number.Checked

/-!
# Time

The seconds that beats take, at a fixed tempo or under one that moves. Tempo is counted in beats per
minute.

A section whose tempo is automated is cut into equal slices, and every slice is played at the tempo
of its middle. The seconds up to a beat are the sum over the slices before it, the last one cut short.
Beats beyond the section run at its last tempo.
-/

namespace Partitura

variable {α : Type} [Scalar α]

/-- The seconds that `beats` take at a fixed tempo. -/
def beatsToSeconds (beats tempo : α) : Outcome α :=
  divide (beats * 60.0) tempo

end Partitura

namespace Partitura.Automation

variable {α : Type} [Scalar α]

/-! ## Under a moving tempo -/

/-- The tempo at a position of the section. -/
def tempoAt (a : Automation α) (t : α) : Outcome α := do
  return Scalar.max minTempo (← a.value t)

/-- How many slices a section is cut into. -/
def sliceCount : Nat :=
  64

/-- A gap too small to be worth another slice. -/
def sliceTolerance : α :=
  1e-12

/-- The beats of the slice that begins at `position`. -/
def sliceSpan (slice beat position : α) : α :=
  Scalar.min slice (beat - position)

/-- The seconds that the slice from `position` on takes. -/
def sliceSeconds (a : Automation α) (sectionBeats position span : α) : Outcome α := do
  let midpoint := Scalar.min 1.0 ((position + span / 2.0) / sectionBeats)
  return span * 60.0 / (← a.tempoAt midpoint)

/-- Adds the slices from `position` to `beat` to the seconds so far, at most `fuel` of them. -/
def addSlices (a : Automation α) (sectionBeats slice beat : α) : Nat → α → α → Outcome α
  | 0, _, seconds => .ok seconds
  | fuel + 1, position, seconds =>
    if position < beat - sliceTolerance then do
      let span := sliceSpan slice beat position
      let more ← a.sliceSeconds sectionBeats position span
      addSlices a sectionBeats slice beat fuel (position + span) (seconds + more)
    else .ok seconds

/-- More slices than there are up to `beat`. On exact numbers there are at most as many as slices fit
in, and one more; the rest is room for rounding. -/
def sliceBound (slice beat : α) : Nat :=
  match Scalar.magnitude (beat / slice) with
  | .finite r => 2 * r.ceil.toNat + sliceCount
  | _ => 0

/-- The seconds from the start of a section to one of its beats. -/
def seconds (a : Automation α) (sectionBeats beat : α) : Outcome α :=
  if sectionBeats ≤ 0 || beat ≤ 0 then .ok 0.0
  else
    let slice := sectionBeats / Scalar.ofNat sliceCount
    a.addSlices sectionBeats slice beat (sliceBound slice beat) 0.0 0.0

end Partitura.Automation

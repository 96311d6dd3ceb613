import Partitura.Harmony.Key
import Partitura.Pattern.Basic

/-!
# Where a pattern is played

The same pattern sounds different in another key, on another track or in another section. A context
holds everything that a pattern may depend on besides chance.
-/

namespace Partitura

structure Context (α : Type) where
  key : Key
  tempo : α
  patterns : PatternTable α
  /-- The velocity of the track. -/
  velocity : α
  octaveOffset : Int := 0
  transpose : Int := 0
  /-- The density at the start of the section, if it has one. -/
  density : Option α := none
  /-- The place of the section in the arrangement. -/
  sectionIndex : Int := 0

/-- The velocity of a track that names none. -/
def defaultVelocity {α : Type} [Scalar α] : α :=
  0.8

/-- Moves a pitch by octaves and then by semitones. Drums stay as they are. -/
def placePitch (octaves semitones : Int) (pitch : String) : Outcome String :=
  if Drum.isDrum pitch then .ok pitch
  else do
    let shifted ← Pitch.shiftOctaveText pitch octaves
    Pitch.transposeText shifted semitones

namespace Context

variable {α : Type}

/-- Moves a pitch by the offsets of the track. -/
def place (c : Context α) (pitch : String) : Outcome String :=
  placePitch c.octaveOffset c.transpose pitch

def pattern? (c : Context α) (name : String) : Option (Pattern α) :=
  c.patterns.lookup name

end Context

end Partitura

import Partitura.Curve.Automation
import Partitura.Curve.Density
import Partitura.Pattern.Basic

/-!
# Scores

A score names patterns, puts them on the tracks of sections, and arranges the sections one after the
other, each as often as it likes.
-/

namespace Partitura

/-- What holds for the whole score. -/
structure Settings (α : Type) where
  tempo : α
  key : String
  timeSignature : String
  swing : α
  title : Value α := .null

namespace Settings

variable {α : Type} [Scalar α]

def defaultTempo : α :=
  120.0

def defaultKey : String :=
  "C major"

def defaultTimeSignature : String :=
  "4/4"

def defaultSwing : α :=
  0.0

end Settings

/-- One instrument's part in a section. -/
structure Track (α : Type) where
  patterns : List String
  velocity : Option α := none
  repeats : Int := 1
  humanize : Option α := none
  octave : Int := 0
  transpose : Int := 0
  mute : Bool := false
  groove : Value α := .null
  expression : Value α := .null

structure Section (α : Type) where
  bars : α
  tracks : List (String × Track α) := []
  tempo : Option α := none
  key : Value α := .null
  density : Option (DensityCurve α) := none
  automation : List (String × Automation α) := []

structure Score (α : Type) where
  settings : Settings α
  patterns : PatternTable α := []
  sections : List (String × Section α) := []
  arrangement : List String := []
  instruments : List String := []

end Partitura

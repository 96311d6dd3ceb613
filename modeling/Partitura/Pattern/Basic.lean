import Partitura.Document.Value
import Partitura.Phrase.Envelope

/-!
# Patterns

A pattern is either a base pattern, which plays something of its own, or one that refers to others by
name: a transform of another pattern's notes, an extension of another pattern, or a choice between
two of them by a condition.

What a base pattern plays is its content. What is done to the notes afterwards is the same for all
of them: its finish. Fields whose meaning is only looked up when the pattern is played are kept as
raw values.
-/

namespace Partitura

/-- What every base pattern may say besides its content. -/
structure Finish (α : Type) where
  /-- Stands in for the velocity of the track. -/
  velocity : Option α := none
  envelope : Option (Envelope α) := none
  /-- Whether every pitch is snapped to the key. -/
  constrainToScale : Bool := false

/-- One chord, played tone by tone. -/
structure ArpeggioContent (α : Type) where
  chord : String
  duration : String
  mode : Value α := .null
  octaves : Int
  /-- The part of its length for which each tone sounds. -/
  gate : α
  steps : Option Int := none
  /-- The tones to be played by their numbers; wins over the mode. -/
  order : Option (List Int) := none

/-- A single drum hit at a time such as `h+8`. -/
structure DrumHit (α : Type) where
  drum : String
  time : String
  velocity : Option α := none

/-- Drums by steps: a line of characters for each drum, or one line for the kick, and single hits. -/
structure DrumsContent (α : Type) where
  lines : List (String × String) := []
  kit : String
  step : String
  steps : Value α := .null
  hits : List (DrumHit α) := []
  bars : Option α := none

/-- Hits spread evenly over a number of slots. -/
structure EuclideanContent (α : Type) where
  hits : Int
  steps : Int
  duration : String
  rotation : Int
  pitch : Value α := .null
  drum : Value α := .null
  kit : String

/-- Lengths that a walk takes in turn: one alone, or a list. -/
inductive DurationCycle where
  | one (duration : String)
  | many (durations : List String)

def DurationCycle.toList : DurationCycle → List String
  | one d => [d]
  | many ds => ds

/-- A melody walked over states. -/
structure MarkovContent (α : Type) where
  states : List String
  steps : Int
  duration : DurationCycle
  transitions : Value α := .null
  preset : Value α := .null
  initialState : Value α := .null
  octave : Int
  /-- Pins the pattern to a random stream of its own. -/
  seed : Option Int := none
  /-- Whether the pitches of states are snapped to the key. -/
  constrainStates : Bool := false
  chordScale : Value α := .null

/-- The notes of another pattern, gone on with. -/
structure ContinuationContent where
  source : String
  technique : String
  steps : Int
  interval : Int

/-- A chord progression, voiced by search. -/
structure VoiceLeadContent (α : Type) where
  progression : List String
  voices : Int
  style : String
  constraints : List String := []
  /-- The bounds given for some of the voices. -/
  voiceRanges : Option (List (String × List (Value α))) := none

/-- What a base pattern plays. -/
inductive Content (α : Type) where
  | notes (notes : List String)
  | chords (chords : List String)
  | degrees (degrees : List (Value α)) (rhythm : List String)
  | arpeggio (a : ArpeggioContent α)
  | drums (d : DrumsContent α)
  | euclidean (e : EuclideanContent α)
  | markov (m : MarkovContent α)
  | continuation (c : ContinuationContent)
  | voiceLead (v : VoiceLeadContent α)
  | tuplet (ratio : List (Value α)) (notes : List String)
  | rest (rest : String)

structure BasePattern (α : Type) where
  content : Content α
  finish : Finish α := {}

/-- The notes of another pattern after a transform. -/
structure Transformation (α : Type) where
  source : String
  operation : String
  params : Fields α := []
  finish : Finish α := {}

/-- Another pattern with some of what it says replaced. -/
structure Inheritance (α : Type) where
  parent : String
  notes : Option (List String) := none
  transpose : Int := 0
  octave : Int := 0
  velocity : Option α := none
  envelope : Option (Envelope α) := none
  constrainToScale : Option Bool := none

/-- One of two other patterns, by a condition. -/
structure Conditional (α : Type) where
  condition : String
  operator : String
  value : α
  thenName : String
  /-- The pattern that is played otherwise; the first one if there is none. -/
  elseName : Value α := .null

inductive Pattern (α : Type) where
  | base (b : BasePattern α)
  | transformation (t : Transformation α)
  | inheritance (i : Inheritance α)
  | conditional (c : Conditional α)

/-- The patterns of a score by name. -/
abbrev PatternTable (α : Type) :=
  List (String × Pattern α)

end Partitura

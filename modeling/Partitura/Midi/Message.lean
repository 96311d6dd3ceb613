/-!
# MIDI messages

A track is a list of messages, each with the ticks that pass between the one before and itself. The
first track of a file holds the tempo and the markers, every other one an instrument.
-/

namespace Partitura.Midi

inductive Message where
  | trackName (text : String)
  | setTempo (microseconds : Nat)
  | marker (text : String)
  | noteOn (channel note velocity : Nat)
  | noteOff (channel note : Nat)
  deriving DecidableEq, Repr

/-- Messages, each after the ticks since the one before. -/
abbrev Track :=
  List (Nat × Message)

structure File where
  tracks : List Track
  deriving DecidableEq, Repr

/-- The ticks of a quarter note. -/
def ticksPerBeat : Nat :=
  480

/-- The format of a file whose tracks are played together. -/
def simultaneousFormat : Nat :=
  1

/-- A message at a tick counted from the start. Of the messages of one tick that of the lower rank
comes first. -/
structure Event where
  tick : Nat
  rank : Nat
  message : Message
  deriving DecidableEq, Repr

/-- Whether an event may stand before another. -/
def Event.before (a b : Event) : Bool :=
  a.tick < b.tick || (a.tick = b.tick && a.rank ≤ b.rank)

/-- Events in order with the ticks since the one before, the first since `last`. -/
def withDeltas : Nat → List Event → Track
  | _, [] => []
  | last, e :: rest => (e.tick - last, e.message) :: withDeltas e.tick rest

/-- The track of a name and of events in any order. Events of one tick and rank stay in the order
given. -/
def Track.ofEvents (name : String) (events : List Event) : Track :=
  (0, .trackName name) :: withDeltas 0 (events.mergeSort Event.before)

end Partitura.Midi

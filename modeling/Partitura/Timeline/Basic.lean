import Partitura.Notation.Pitch
import Partitura.Document.Value
import Partitura.Score.Basic

/-!
# Timelines

What a score comes to: every note with its place in beats and in seconds, a marker where each section
begins, and samples of what is automated. Each of the three lists is sorted by beat, and what begins
on the same beat stays in the order in which it was added.

Events are collected in a draft, whose `build` sorts them. The shift of a note in milliseconds is kept
beside its time, so that whoever plays the timeline decides whether to follow it.
-/

namespace Partitura

structure NoteEvent (α : Type) where
  instrument : String
  pitch : String
  beat : α
  /-- The length in beats. -/
  beats : α
  time : α
  /-- The length in seconds. -/
  seconds : α
  velocity : α
  timing : Option Int := none
  glide : Bool := false
  /-- The name of the section that the note comes from. -/
  origin : String := ""

/-- Where a section begins, and the tempo and key it is played in. -/
structure SectionMarker (α : Type) where
  name : String
  index : Int
  beat : α
  time : α
  bars : α
  beats : α
  seconds : α
  tempo : α
  key : String

/-- One sample of an automation. -/
structure AutomationEvent (α : Type) where
  path : String
  beat : α
  time : α
  value : α

structure Timeline (α : Type) where
  notes : List (NoteEvent α) := []
  totalBeats : α
  totalSeconds : α
  instruments : List String := []
  settings : Settings α
  sections : List (SectionMarker α) := []
  automation : List (AutomationEvent α) := []

/-- Events in the order in which they are added. -/
structure TimelineDraft (α : Type) where
  settings : Settings α
  notes : List (NoteEvent α) := []
  sections : List (SectionMarker α) := []
  automation : List (AutomationEvent α) := []

variable {α : Type} [Scalar α]

/-! ## Notes -/

namespace NoteEvent

def isDrum (n : NoteEvent α) : Bool :=
  Drum.isDrum n.pitch

/-- When the note ends, in seconds. -/
def finish (n : NoteEvent α) : α :=
  n.time + n.seconds

end NoteEvent

/-! ## Sorting -/

/-- Events in the order of their beats, those of one beat in the order given. -/
def sortByBeat {β : Type} (beat : β → α) (events : List β) : List β :=
  events.mergeSort fun a b => !decide (beat b < beat a)

namespace TimelineDraft

def addNote (d : TimelineDraft α) (n : NoteEvent α) : TimelineDraft α :=
  { d with notes := d.notes ++ [n] }

def addSection (d : TimelineDraft α) (m : SectionMarker α) : TimelineDraft α :=
  { d with sections := d.sections ++ [m] }

def addAutomation (d : TimelineDraft α) (e : AutomationEvent α) : TimelineDraft α :=
  { d with automation := d.automation ++ [e] }

/-- The timeline of the events. Its instruments are in the order of their first notes here. -/
def build (d : TimelineDraft α) (totalBeats totalSeconds : α) : Timeline α :=
  { notes := sortByBeat (·.beat) d.notes
    totalBeats, totalSeconds
    instruments := Ordered.distinct (d.notes.map (·.instrument))
    settings := d.settings
    sections := sortByBeat (·.beat) d.sections
    automation := sortByBeat (·.beat) d.automation }

end TimelineDraft

namespace Timeline

/-- The notes of one instrument. -/
def notesFor (t : Timeline α) (instrument : String) : List (NoteEvent α) :=
  t.notes.filter (·.instrument = instrument)

/-- The timeline with the notes of one instrument alone. Markers and totals stay. -/
def filterByInstrument (t : Timeline α) (instrument : String) : Timeline α :=
  { t with
    notes := t.notesFor instrument
    instruments := t.instruments.filter (· = instrument) }

/-- The timeline moved later; the totals grow by as much. -/
def offset (t : Timeline α) (beats seconds : α) : Timeline α :=
  { t with
    notes := t.notes.map fun n => { n with beat := n.beat + beats, time := n.time + seconds }
    sections := t.sections.map fun m =>
      { m with beat := m.beat + beats, time := m.time + seconds }
    automation := t.automation.map fun e =>
      { e with beat := e.beat + beats, time := e.time + seconds }
    totalBeats := t.totalBeats + beats
    totalSeconds := t.totalSeconds + seconds }

/-- The greatest of a first value and more. -/
def greatest (first : α) (more : List α) : α :=
  more.foldl Scalar.max first

/-- Lays timelines over each other. The whole lasts as long as the longest of them and has the settings
of the first. -/
def merge (timelines : List (Timeline α)) : Outcome (Timeline α) :=
  match timelines with
  | [] => .error (.rejected .noTimelines)
  | first :: rest =>
    .ok
      { notes := sortByBeat (·.beat) (timelines.flatMap (·.notes))
        totalBeats := greatest first.totalBeats (rest.map (·.totalBeats))
        totalSeconds := greatest first.totalSeconds (rest.map (·.totalSeconds))
        instruments := Ordered.distinct (timelines.flatMap (·.instruments))
        settings := first.settings
        sections := sortByBeat (·.beat) (timelines.flatMap (·.sections))
        automation := sortByBeat (·.beat) (timelines.flatMap (·.automation)) }

end Timeline

end Partitura

import Partitura.Curve.AutomationPath
import Partitura.Midi.Message
import Partitura.Notation.Pitch
import Partitura.Number.Checked
import Partitura.Timeline.Basic

/-!
# A timeline as MIDI

The first track carries the tempo of every section, the markers and the samples of an automated
tempo. Every instrument has a track of its own after it, and a channel that is not that of the drums;
drums are played on theirs wherever they occur.
-/

namespace Partitura.Midi

/-! ## Percussion

In General MIDI all drums share one channel, and each has a note number. The kit a drum belongs to
makes no difference.
-/

/-- The channel of the drums. -/
def drumChannel : Nat :=
  9

/-- The note numbers of the drums by name. -/
def drumNotes : List (String × Int) :=
  [("kick", 36), ("snare", 38), ("clap", 39), ("hihat", 42), ("closedhat", 42),
   ("hihat_open", 46), ("openhat", 46), ("tom_hi", 50), ("tom_mid", 47), ("tom_lo", 41),
   ("crash", 49), ("ride", 51), ("rim", 37), ("cowbell", 56), ("shaker", 82), ("perc", 60)]

/-- The name of a drum without its kit. -/
def drumName (pitch : String) : String :=
  String.ofList ((pitch.toList.drop Drum.marker.length).takeWhile (· ≠ '@'))

/-- The note number of a pitch. A drum may have none. -/
def noteNumber? (pitch : String) : Outcome (Option Int) :=
  if Drum.isDrum pitch then .ok (drumNotes.lookup (drumName pitch))
  else some <$> Pitch.midiOf pitch

end Partitura.Midi

namespace Partitura.Midi

variable {α : Type} [Scalar α]

/-! ## Units -/

/-- A velocity from 0 to 1 on the scale of MIDI. Zero is avoided, since a note that is struck with no
velocity counts as one that ends. -/
def velocity (v : α) : Outcome Nat := do
  return (max 1 (min 127 (← roundOf (v * 127.0)))).toNat

/-- The tick of a beat; none lies before the start. -/
def ticks (beats : α) : Outcome Nat := do
  return (← roundOf (beats * Scalar.ofNat ticksPerBeat)).toNat

/-- The greatest number of microseconds that a tempo message can hold. -/
def maxTempo : Int :=
  16777215

/-- The message that sets a tempo in beats per minute, which it holds as the microseconds of a beat. -/
def tempoMessage (bpm : α) : Outcome Message := do
  let microseconds ← roundOf (← divide 60000000.0 bpm)
  if 0 ≤ microseconds ∧ microseconds ≤ maxTempo then return .setTempo microseconds.toNat
  else throw (.rejected .midiTempo)

/-! ## The tempo track -/

/-- The tempo and the name of a section, where it begins. -/
def markerEvents (m : SectionMarker α) : Outcome (List Event) := do
  let tick ← ticks m.beat
  return [⟨tick, 0, ← tempoMessage m.tempo⟩, ⟨tick, 1, .marker m.name⟩]

/-- The tempo at one sample. -/
def sampleEvent (e : AutomationEvent α) : Outcome Event := do
  let tick ← ticks e.beat
  return ⟨tick, 2, ← tempoMessage (Scalar.max Automation.minTempo e.value)⟩

/-- The tempo of a timeline without sections. -/
def standingTempo (t : Timeline α) : Outcome (List Event) := do
  if t.sections.isEmpty then return [⟨0, 0, ← tempoMessage t.settings.tempo⟩] else return []

def tempoEvents (t : Timeline α) : Outcome (List Event) := do
  let standing ← standingTempo t
  let markers ← t.sections.mapM markerEvents
  let samples ← (t.automation.filter (·.path = AutomationPath.tempoPath)).mapM sampleEvent
  return standing ++ markers.flatten ++ samples

/-- The name of the first track: the title of the score, if it has one. -/
def titleOf (title : Value α) : Outcome String :=
  if title.truthy then
    match title with
    | .text s => .ok s
    | _ => .error .wrongKind
  else .ok "tempo"

def tempoTrack (t : Timeline α) : Outcome Track := do
  let events ← tempoEvents t
  return Track.ofEvents (← titleOf t.settings.title) events

/-! ## Instruments -/

/-- The channels that instruments are given in turn. -/
def freeChannels : List Nat :=
  (List.range 16).filter (· ≠ drumChannel)

/-- The channel of the `i`-th instrument. -/
def channelOf (i : Nat) : Nat :=
  freeChannels.getD (i % freeChannels.length) 0

/-- A note number as the data of a message. -/
def dataByte (n : Int) : Outcome Nat :=
  if 0 ≤ n ∧ n ≤ 127 then .ok n.toNat else .error (.rejected .midiDataByte)

/-- The start and the end of a note of a number. The end lies at least one tick later, and comes
before whatever starts on its tick, so that a repeated note is struck again. -/
def strikeEvents (channel : Nat) (n : NoteEvent α) (number : Int) : Outcome (List Event) := do
  let channel := if n.isDrum then drumChannel else channel
  let start ← ticks n.beat
  let finish ← ticks (n.beat + n.beats)
  let velocity ← velocity n.velocity
  let note ← dataByte number
  return [⟨start, 1, .noteOn channel note velocity⟩,
    ⟨max (start + 1) finish, 0, .noteOff channel note⟩]

/-- The events of a note. A drum without a number has none. -/
def noteEvents (channel : Nat) (n : NoteEvent α) : Outcome (List Event) := do
  match ← noteNumber? n.pitch with
  | some number => strikeEvents channel n number
  | none => return []

def instrumentTrack (t : Timeline α) (instrument : String) (channel : Nat) : Outcome Track := do
  let events ← (t.notesFor instrument).mapM (noteEvents channel)
  return Track.ofEvents instrument events.flatten

/-! ## Files -/

/-- A timeline as a MIDI file. -/
def ofTimeline (t : Timeline α) : Outcome File := do
  let first ← tempoTrack t
  let others ← t.instruments.zipIdx.mapM fun (name, i) => instrumentTrack t name (channelOf i)
  return { tracks := first :: others }

end Partitura.Midi

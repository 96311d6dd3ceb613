import Partitura.Arpeggio.Order
import Partitura.Harmony.Chord
import Partitura.Harmony.DegreeEntry
import Partitura.Notation.Token
import Partitura.Phrase.Context
import Partitura.Voicing.Progression

/-!
# Phrases from keys and chords

What is not written out note by note: degrees of the key, the tones of a chord one after the other, and
chords whose voices are searched for.
-/

namespace Partitura.Phrase

variable {α : Type} [Scalar α]

/-! ## Scale degrees

Degrees of the key one after the other. An entry that names no length takes the next one of the
rhythm, which begins again when it is through.
-/

/-- The length of an entry; `index` counts the entries before it that took one of the rhythm. -/
def entryLength (rhythm : List String) (index : Nat) (e : DegreeEntry) : Outcome α := do
  return (← Length.ofText (e.duration.getD (rhythm.getD (index % rhythm.length) ""))).beats

/-- The note that an entry plays, if it is not a rest. -/
def entryNote? (c : Context α) (start length : α) (e : DegreeEntry) :
    Outcome (Option (Note α)) :=
  match e.degree with
  | none => .ok none
  | some d => do
    let midi ← c.key.degreeMidi e.shown d defaultOctave
    let pitch ← c.place (Pitch.textOfMidi midi)
    return some { pitch, start, duration := length, velocity := c.velocity }

/-- Entries from `start` on, and where they end. -/
def ofDegreesFrom (c : Context α) (rhythm : List String) :
    α → Nat → List (Value α) → Outcome (List (Note α) × α)
  | start, _, [] => .ok ([], start)
  | start, index, v :: rest => do
    let e ← DegreeEntry.parse v
    let length ← entryLength rhythm index e
    let note? ← entryNote? c start length e
    let index := if e.duration.isNone then index + 1 else index
    let (notes, finish) ← ofDegreesFrom c rhythm (start + length) index rest
    return (note?.toList ++ notes, finish)

/-- Degrees with a rhythm, which is quarter notes when it is empty. -/
def ofDegrees (c : Context α) (degrees : List (Value α)) (rhythm : List String) :
    Outcome (Phrase α) := do
  let rhythm := if rhythm.isEmpty then ["q"] else rhythm
  let (notes, beats) ← ofDegreesFrom c rhythm 0.0 0 degrees
  return { notes, beats }

/-! ## Broken chords

The tones of a chord one after the other: in an order that is written out, in one of the known modes,
or simply upward.
-/

/-- The mode of an arpeggio. An unknown one is reported and goes upward. -/
def arpeggioMode (mode : Value α) : Run Arpeggio.Mode :=
  match Arpeggio.Mode.ofValue? mode with
  | some m => return m
  | none => do
    Run.warn ("Unknown arpeggio mode " ++ mode.shown ++ ", using 'up'")
    return .up

/-- In which order the tones of an arpeggio are played. -/
def arpeggioOrder (a : ArpeggioContent α) (toneCount : Nat) : Run (List Int) :=
  match a.order with
  | some (i :: is) => return i :: is
  | _ =>
    if a.mode.truthy then do
      let mode ← arpeggioMode a.mode
      if a.octaves < 1 then throw (.rejected (.arpeggioOctaves a.octaves))
      Run.ofDraw (mode.order (toneCount * a.octaves.toNat) a.steps)
    else return Arpeggio.ascending toneCount

/-- The pitch of a tone by its number. Numbers beyond the chord go on in the octaves above. -/
def arpeggioTone (tones : List String) (number : Int) : Outcome String :=
  let count : Int := tones.length
  if count = 0 then .error .divisionByZero
  else
    Pitch.shiftOctaveText (tones.getD ((number - 1) % count).toNat "")
      ((number - 1).fdiv count)

/-- Tones from `start` on, and where they end. -/
def ofTonesFrom (c : Context α) (tones : List String) (length gate : α) :
    α → List Int → Outcome (List (Note α) × α)
  | start, [] => .ok ([], start)
  | start, number :: rest => do
    let pitch ← c.place (← arpeggioTone tones number)
    let note : Note α := { pitch, start, duration := length * gate, velocity := c.velocity }
    let (notes, finish) ← ofTonesFrom c tones length gate (start + length) rest
    return (note :: notes, finish)

def ofArpeggio (c : Context α) (a : ArpeggioContent α) : Run (Phrase α) := do
  let tones ← ChordToken.notesOf a.chord ChordToken.defaultOctave
  let length : α := (← Length.ofText a.duration).beats
  let order ← arpeggioOrder a tones.length
  let (notes, beats) ← ofTonesFrom c tones length a.gate 0.0 order
  return { notes, beats }

/-! ## Voiced progressions

A chord progression voiced by search; each chord is held for one bar.
-/

/-- How long each chord is held. -/
def chordBeats : α :=
  4.0

/-- Voicings from `start` on, and where they end. -/
def ofVoicingsFrom (c : Context α) : α → List (List String) → Outcome (List (Note α) × α)
  | start, [] => .ok ([], start)
  | start, voicing :: rest => do
    let notes ← voicing.mapM fun pitch => do
      let note : Note α :=
        { pitch := ← c.place pitch, start, duration := chordBeats, velocity := c.velocity }
      return note
    let (more, finish) ← ofVoicingsFrom c (start + chordBeats) rest
    return (notes ++ more, finish)

def ofVoiceLead (c : Context α) (v : VoiceLeadContent α) : Run (Phrase α) := do
  Run.warnAll (Voicing.leadWarnings v.progression v.voices v.style)
  let given : Fields α := (v.voiceRanges.getD []).map fun (name, bounds) => (name, .list bounds)
  let led ← Voicing.lead v.progression v.voices v.style v.constraints given
  Run.warnAll led.warnings
  let (notes, beats) ← ofVoicingsFrom c 0.0 led.voicings
  return { notes, beats }

end Partitura.Phrase

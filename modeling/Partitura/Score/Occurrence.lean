import Partitura.Performance.Playing
import Partitura.Phrase.Expansion
import Partitura.Tempo.Seconds

/-!
# Sections as they occur

Each entry of an arrangement is an occurrence of its section, in the tempo and the key that hold
there. An occurrence is played track by track on one random stream: a track expands its patterns one
after the other, as often as it repeats them, and performs the notes.

Everything in this module is counted from the start of the section.
-/

namespace Partitura

variable {α : Type} [Scalar α]

/-! ## Tracks -/

/-- The notes of patterns one after the other from a beat on, and the beat where the last one ends. A
name that is no pattern is reported and takes no time. -/
def expandNames (c : Context α) : α → List String → Run (List (Note α) × α)
  | cursor, [] => return ([], cursor)
  | cursor, name :: rest => do
    match c.pattern? name with
    | none =>
      Run.warn ("Pattern \"" ++ name ++ "\" not found")
      expandNames c cursor rest
    | some p =>
      let phrase ← p.expand c
      let (notes, finish) ← expandNames c (cursor + phrase.beats) rest
      return (phrase.notes.map (·.delay cursor) ++ notes, finish)

/-- The notes of `count` passes through the patterns of a track. -/
def expandPasses (c : Context α) (names : List String) : Nat → α → Run (List (Note α))
  | 0, _ => return []
  | count + 1, cursor => do
    let (notes, cursor) ← expandNames c cursor names
    return notes ++ (← expandPasses c names count cursor)

/-- The notes of a track. Every repeat expands the patterns again, so what is left to chance varies. -/
def Track.expand (t : Track α) (c : Context α) : Run (List (Note α)) :=
  expandPasses c t.patterns t.repeats.toNat 0.0

/-! ## Occurrences -/

/-- A section at its place in the arrangement. -/
structure Occurrence (α : Type) where
  name : String
  /-- The place in the arrangement, from 0. -/
  index : Int
  body : Section α
  beats : α
  tempo : α
  key : Key

/-- The seconds from the start of a section to one of its beats: at its tempo, or through its own
tempo automation. -/
def Section.secondsAt (s : Section α) (sectionBeats tempo beat : α) : Outcome α :=
  match s.automation.lookup AutomationPath.tempoPath with
  | some a => a.seconds sectionBeats beat
  | none => beatsToSeconds beat tempo

namespace Occurrence

def secondsAt (o : Occurrence α) (beat : α) : Outcome α :=
  o.body.secondsAt o.beats o.tempo beat

/-- The context that the patterns of a track are expanded in. -/
def context (o : Occurrence α) (patterns : PatternTable α) (density : Option α) (t : Track α) :
    Context α :=
  { key := o.key, tempo := o.tempo, patterns, velocity := t.velocity.getD defaultVelocity
    octaveOffset := t.octave, transpose := t.transpose, density, sectionIndex := o.index }

/-- Whether a fault is reported with the section and the track that it arose in. -/
def isReported (why : Fault) : Bool :=
  why.isInput || why = .tooDeep

/-- Adds the place to a fault that is reported with it. -/
def inTrack {β : Type} (o : Occurrence α) (track : String) (r : Run β) : Run β :=
  fun s =>
    match r s with
    | .error why => .error (if isReported why then .inTrack o.name track why else why)
    | .ok result => .ok result

/-- Plays one track. -/
def playTrack (o : Occurrence α) (patterns : PatternTable α) (swing : α) (density : Option α)
    (name : String) (t : Track α) : Run (List (PlayedNote α)) := do
  if t.mute then return []
  if t.patterns.isEmpty then
    Run.warn ("Section \"" ++ o.name ++ "\" track \"" ++ name ++ "\" has no pattern")
    return []
  let notes ← o.inTrack name (t.expand (o.context patterns density t))
  let performance ← t.performance
  performance.play name o.beats swing o.body.density notes

/-- The density at the start of the section, after what is questionable about it is reported. -/
def startDensity (o : Occurrence α) : Run (Option α) :=
  match o.body.density with
  | none => return none
  | some d => do
    Run.warnAll d.warnings
    some <$> (d.atPosition 0.0 : Outcome α)

/-- Plays all tracks, in the order of the section. -/
def play (o : Occurrence α) (patterns : PatternTable α) (swing : α) :
    Run (List (PlayedNote α)) := do
  let density ← o.startDensity
  let parts ← o.body.tracks.mapM fun (name, t) => o.playTrack patterns swing density name t
  return parts.flatten

end Occurrence

end Partitura

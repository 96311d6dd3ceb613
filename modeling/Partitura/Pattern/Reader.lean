import Partitura.Document.Expect
import Partitura.Document.Value
import Partitura.Pattern.Basic

/-!
# Reading patterns

A pattern is a mapping with one kind of content, or with one reference to another pattern. Field names
may be written in snake case or in camel case, except inside conditions, transforms and overrides,
where only the plain name counts.
-/

namespace Partitura

variable {α : Type} [Scalar α]

/-! ## Kinds of content -/

/-- The kinds of content that a pattern may have. -/
inductive ContentKind where
  | notes | chords | degrees | arpeggio | drums | euclidean | markov | continuation | voiceLead
  | tuplet | rest
  deriving DecidableEq, Repr

/-- The ways in which a pattern may refer to others. -/
inductive ReferenceKind where
  | conditional | extension | transform
  deriving DecidableEq, Repr

namespace ContentKind

def all : List ContentKind :=
  [notes, chords, degrees, arpeggio, drums, euclidean, markov, continuation, voiceLead, tuplet,
   rest]

/-- The field that holds the content. -/
def field : ContentKind → String
  | notes => "notes"
  | chords => "chords"
  | degrees => "degrees"
  | arpeggio => "arpeggio"
  | drums => "drums"
  | euclidean => "euclidean"
  | markov => "markov"
  | continuation => "continuation"
  | voiceLead => "voice_lead"
  | tuplet => "tuplet"
  | rest => "rest"

end ContentKind

namespace ReferenceKind

def all : List ReferenceKind :=
  [conditional, extension, transform]

def field : ReferenceKind → String
  | conditional => "conditional"
  | extension => "extends"
  | transform => "transform"

end ReferenceKind

/-- What a pattern can be, references first. -/
inductive PatternKind where
  | reference (k : ReferenceKind)
  | content (k : ContentKind)
  deriving DecidableEq, Repr

namespace PatternKind

def all : List PatternKind :=
  ReferenceKind.all.map reference ++ ContentKind.all.map content

def field : PatternKind → String
  | reference k => k.field
  | content k => k.field

/-- The kinds that a mapping has a value for that is not null. -/
def present (data : Fields α) : List PatternKind :=
  all.filter fun k => !(Expect.orNull (data.find? k.field)).isNull

end PatternKind

namespace Pattern.Reader

open Expect

/-! ## Common fields -/

/-- The levels or the name of an envelope; a mapping holds them in its velocity. -/
def envelope (path : String) (v : Value α) : Outcome (Option (Envelope α)) :=
  let inner : Value α :=
    match v with
    | .mapping fields => orNull (Fields.get? fields "velocity")
    | v => v
  match v, inner with
  | .null, _ => .ok none
  | _, .text s => .ok (some (.named s))
  | _, .list vs => do return some (.levels (← each (fun i x => number (item path i) x) vs))
  | _, _ => malformed (.notEnvelope path)

def constrains (data : Fields α) : Bool :=
  (orNull (data.find? "constrain_to_scale")).truthy

/-- The fields that all base patterns share. -/
def finish (path : String) (data : Fields α) : Outcome (Finish α) := do
  let velocity ← optionalNumber (path ++ ".velocity") (orNull (data.find? "velocity"))
  let envelope ← envelope (path ++ ".envelope") (orNull (data.find? "envelope"))
  return { velocity, envelope, constrainToScale := constrains data }

/-! ## Drums -/

/-- The names of drums, which may stand in a drums mapping for themselves. -/
def drumNames : List String :=
  ["kick", "snare", "clap", "hihat", "closedhat", "hihat_open", "openhat", "tom_hi", "tom_mid",
   "tom_lo", "crash", "ride", "rim", "cowbell", "shaker", "perc"]

def defaultKit : String :=
  "909"

def defaultStep : String :=
  "16"

/-- One item of a list that is read as a mapping: a name and a value. -/
def pairOf (i : Nat) (v : Value α) : Outcome (Value α × Value α) := do
  match ← v.items with
  | [.list _, _] | [.mapping _, _] => throw .wrongKind
  | [k, x] => return (k, x)
  | vs => throw (.rejected (.badUpdate i vs.length))

/-- The fields of pairs written one after the other. Names that are no texts are told apart as they
are, and only then become texts. -/
def fieldsOfPairs (pairs : List (Value α × Value α)) : Fields α :=
  let _ : BEq (Value α) := ⟨Value.sameName⟩
  (Ordered.ofPairs pairs).map fun (k, x) => (k.plain, x)

/-- A raw value as a mapping: one already, or a list of pairs. -/
def fieldsOf (v : Value α) : Outcome (Fields α) :=
  match v with
  | .mapping fields => .ok fields
  | v => do return fieldsOfPairs (← each pairOf (← v.items))

/-- The lines of a drums mapping: those given as lines, else those given under the names of drums. -/
def drumLines (data : Fields α) : Outcome (Fields α) := do
  let lines ← fieldsOf (orElse (data.find? "lines") (.mapping []))
  if !lines.isEmpty then return lines
  return data.filter fun (name, line) =>
    drumNames.contains name &&
      match line with
      | .text _ => true
      | _ => false

def drumHit (path : String) (i : Nat) (v : Value α) : Outcome (DrumHit α) := do
  let where_ := item (path ++ ".hits") i
  let hit ← mapping where_ v
  let drum ← string (where_ ++ ".drum") (orNull (hit.get? "drum"))
  let time := ((hit.get? "time").getD (.text "0")).plain
  let velocity ← optionalNumber (where_ ++ ".velocity") (orNull (hit.get? "velocity"))
  return { drum, time, velocity }

def drums (path : String) (data : Fields α) : Outcome (DrumsContent α) := do
  let lines ← (← drumLines data).mapM fun (name, line) => do
    return (name, ← string (path ++ ".lines." ++ name) line)
  let hits ← each (drumHit path) (← (orElse (data.find? "hits") (.list [])).items)
  let bars ← optionalNumber (path ++ ".bars") (orNull (data.find? "bars"))
  let step := (data.find? "step_duration").getD ((data.find? "step").getD (.text defaultStep))
  return { lines
           kit := ((data.find? "kit").getD (.text defaultKit)).plain
           step := step.plain
           steps := orNull (data.find? "steps")
           hits, bars }

/-! ## Contents with a mapping of their own -/

def arpeggio (path : String) (config : Fields α) : Outcome (ArpeggioContent α) := do
  let order := orNull (config.find? "pattern")
  let chord ← string (path ++ ".chord") (orNull (config.find? "chord"))
  let octaves ← whole (path ++ ".octaves") ((config.find? "octaves").getD (.int 1))
  let octaves ← atLeast 1 (path ++ ".octaves") octaves
  let gate ← number (path ++ ".gate") ((config.find? "gate").getD (.real 0.8))
  let steps ← optionalWhole (path ++ ".steps") (orNull (config.find? "steps"))
  let order ←
    match order with
    | .null => pure none
    | v => do some <$> (← v.items).mapM (whole (path ++ ".pattern"))
  return { chord
           duration := ((config.find? "duration").getD (.text "16")).plain
           mode := orNull (config.find? "mode")
           octaves, gate, steps, order }

def euclidean (path : String) (config : Fields α) : Outcome (EuclideanContent α) := do
  let hits ← whole (path ++ ".hits") (orNull (config.find? "hits"))
  let steps ← whole (path ++ ".steps") (orNull (config.find? "steps"))
  let rotation ← whole (path ++ ".rotation") ((config.find? "rotation").getD (.int 0))
  return { hits, steps
           duration := ((config.find? "duration").getD (.text "16")).plain
           rotation
           pitch := orNull (config.find? "pitch")
           drum := orNull (config.find? "drum")
           kit := ((config.find? "kit").getD (.text defaultKit)).plain }

/-- The lengths of a walk: one text, or a list of texts, but not nothing. -/
def durations (path : String) (v : Value α) : Outcome DurationCycle := do
  let cycle : DurationCycle ←
    match v with
    | .text s => pure (.one s)
    | v => .many <$> strings path v
  match cycle with
  | .one "" | .many [] => malformed (.noDurations path)
  | c => return c

def markov (path : String) (config : Fields α) : Outcome (MarkovContent α) := do
  let duration ← durations (path ++ ".duration") ((config.find? "duration").getD (.text "q"))
  let states ← (orElse (config.find? "states") (.list [])).items
  let steps ← whole (path ++ ".steps") (orNull (config.find? "steps"))
  let octave ← whole (path ++ ".octave") ((config.find? "octave").getD (.int 3))
  let seed ← optionalWhole (path ++ ".seed") (orNull (config.find? "seed"))
  return { states := states.map Value.plain
           steps, duration
           transitions := orNull (config.find? "transitions")
           preset := orNull (config.find? "preset")
           initialState := orNull (config.find? "initial_state")
           octave, seed
           constrainStates := constrains config
           chordScale := orNull (config.find? "chord_scale") }

def continuation (path : String) (config : Fields α) : Outcome ContinuationContent := do
  let source ← string (path ++ ".source") (orNull (config.find? "source"))
  let technique ← string (path ++ ".technique") (orNull (config.find? "technique"))
  let steps ← whole (path ++ ".steps") ((config.find? "steps").getD (.int 3))
  let interval ← whole (path ++ ".interval") ((config.find? "interval").getD (.int (-2)))
  return { source, technique, steps, interval }

def voiceLead (path : String) (config : Fields α) : Outcome (VoiceLeadContent α) := do
  let progression ←
    strings (path ++ ".progression") ((config.find? "progression").getD (.list []))
  let voices ← whole (path ++ ".voices") ((config.find? "voices").getD (.int 4))
  let constraints ←
    strings (path ++ ".constraints") ((config.find? "constraints").getD (.list []))
  let voiceRanges ←
    match orNull (config.find? "voice_ranges") with
    | .null => pure none
    | v => do
      let given ← mapping (path ++ ".voice_ranges") v
      some <$> given.mapM fun (name, bounds) => do return (name, ← bounds.items)
  return { progression, voices
           style := ((config.find? "style").getD (.text "jazz")).plain
           constraints, voiceRanges }

/-- The ratio and the notes of a tuplet. -/
def tuplet (path : String) (config : Fields α) : Outcome (List (Value α) × List String) := do
  match orNull (config.find? "ratio") with
  | .list [actual, normal] =>
    let notes ← strings (path ++ ".notes") ((config.find? "notes").getD (.list []))
    return ([actual, normal], notes)
  | _ => malformed (.notRatio (path ++ ".ratio"))

/-! ## Contents -/

def degrees (path where_ : String) (data : Fields α) : Value α → Outcome (Content α)
  | .list vs => do
    let rhythm ←
      match data.find? "rhythm" with
      | some v => if v.truthy then strings (path ++ ".rhythm") v else pure ["q"]
      | none => pure ["q"]
    return .degrees vs rhythm
  | _ => malformed (.notList where_)

/-- The content of a kind, from the value of its field. -/
def content (path : String) (data : Fields α) (v : Value α) (k : ContentKind) :
    Outcome (Content α) :=
  let where_ := path ++ "." ++ k.field
  match k with
  | .notes => .notes <$> strings where_ v
  | .chords => .chords <$> strings where_ v
  | .degrees => degrees path where_ data v
  | .rest => .rest <$> string where_ v
  | .drums => do return .drums (← drums where_ (← mapping where_ v))
  | .arpeggio => do return .arpeggio (← arpeggio where_ (← mapping where_ v))
  | .euclidean => do return .euclidean (← euclidean where_ (← mapping where_ v))
  | .markov => do return .markov (← markov where_ (← mapping where_ v))
  | .continuation => do return .continuation (← continuation where_ (← mapping where_ v))
  | .voiceLead => do return .voiceLead (← voiceLead where_ (← mapping where_ v))
  | .tuplet => do
    let (ratio, notes) ← tuplet where_ (← mapping where_ v)
    return .tuplet ratio notes

/-! ## References -/

def conditional (path : String) (v : Value α) : Outcome (Conditional α) := do
  let where_ := path ++ ".conditional"
  let config ← mapping where_ v
  let condition ← string (where_ ++ ".condition") (orNull (config.get? "condition"))
  let operator ← string (where_ ++ ".operator") (orNull (config.get? "operator"))
  let value ← number (where_ ++ ".value") (orNull (config.get? "value"))
  let thenName ← string (where_ ++ ".then") (orNull (config.get? "then"))
  return { condition, operator, value, thenName, elseName := orNull (config.get? "else") }

def inheritance (path : String) (data : Fields α) (v : Value α) : Outcome (Inheritance α) := do
  let where_ := path ++ ".overrides"
  let overrides ← mapping where_ (orElse (data.find? "overrides") (.mapping []))
  let parent ← string (path ++ ".extends") v
  let notes ←
    match orNull (overrides.get? "notes") with
    | .null => pure none
    | ns => some <$> strings (where_ ++ ".notes") ns
  let transpose ← whole (where_ ++ ".transpose") ((overrides.get? "transpose").getD (.int 0))
  let octave ← whole (where_ ++ ".octave") ((overrides.get? "octave").getD (.int 0))
  let velocity ← optionalNumber (where_ ++ ".velocity")
    ((overrides.get? "velocity").getD (orNull (data.find? "velocity")))
  let envelope ← envelope (path ++ ".envelope") (orNull (data.find? "envelope"))
  let constrainToScale :=
    match orNull (data.find? "constrain_to_scale") with
    | .null => none
    | c => some c.truthy
  return { parent, notes, transpose, octave, velocity, envelope, constrainToScale }

def transformation (path : String) (data : Fields α) (v : Value α) :
    Outcome (Transformation α) := do
  let where_ := path ++ ".transform"
  let config ← mapping where_ v
  let source ← string (where_ ++ ".source") (orNull (config.get? "source"))
  let operation ← string (where_ ++ ".operation") (orNull (config.get? "operation"))
  let params ← fieldsOf (orElse (config.get? "params") (.mapping []))
  return { source, operation, params, finish := ← finish path data }

/-! ## Patterns -/

/-- Whether a mapping is a drums pattern in the short form, with its fields at the top. -/
def isShortDrums (data : Fields α) : Bool :=
  (match data.find? "type" with
    | some (.text "drums") => true
    | _ => false) &&
  (orNull (data.find? ContentKind.drums.field)).isNull

/-- The pattern of a kind, from the value of its field. -/
def ofKind (path : String) (data : Fields α) (v : Value α) : PatternKind → Outcome (Pattern α)
  | .reference .conditional => .conditional <$> conditional path v
  | .reference .extension => .inheritance <$> inheritance path data v
  | .reference .transform => .transformation <$> transformation path data v
  | .content k => do
    let finish ← finish path data
    return .base { content := ← content path data v k, finish }

end Pattern.Reader

open Pattern.Reader in
/-- Reads the pattern of a name. -/
def Pattern.read (name : String) (v : Value α) : Outcome (Pattern α) := do
  let path := "patterns." ++ name
  let data ← Expect.mapping path v
  if isShortDrums data then
    let finish ← finish path data
    return .base { content := .drums (← drums path data), finish }
  match PatternKind.present data with
  | [] =>
    throw (.malformed (.noContent name
      (ContentKind.all.map ContentKind.field ++ ReferenceKind.all.map ReferenceKind.field)))
  | [k] => ofKind path data (Expect.orNull (data.find? k.field)) k
  | ks => throw (.malformed (.mixedContent name (ks.map PatternKind.field)))

end Partitura

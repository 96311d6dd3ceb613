import Partitura.Harmony.TimeSignature
import Partitura.Score.Occurrence
import Partitura.Timeline.Basic

/-!
# Compiling a score

The arrangement is walked in order. Every entry takes a seed from the master stream, whether or not
its section exists, so that each occurrence is played on a stream of its own and leaving one out
changes no other. A section that does not exist is reported and skipped.

First each occurrence is compiled by itself, counted from its own start. Then the compiled sections
are laid one after the other.
-/

namespace Partitura

/-! ## Options -/

/-- What a single compilation changes or leaves out. -/
structure CompileOptions (α : Type) where
  /-- The first section of the arrangement to be compiled. -/
  startSection : Option String := none
  /-- The last section to be compiled. -/
  endSection : Option String := none
  tempo : Option α := none
  key : Option String := none
  /-- What the master stream starts from. A compilation without a seed is one with some seed, so what
  holds for every seed holds for it too. -/
  seed : Int := 0

variable {α : Type} [Scalar α]

/-- A tempo that is given and not zero. -/
def givenTempo? (tempo : Option α) : Option α :=
  tempo.filter fun x => !(x == 0)

/-- The settings of the score with those of the options in their place. -/
def Score.effectiveSettings (s : Score α) (options : CompileOptions α) : Settings α :=
  { s.settings with
    tempo := (givenTempo? options.tempo).getD s.settings.tempo
    key := (options.key.filter (!·.isEmpty)).getD s.settings.key }

/-- The place of the first entry with a name, or `standard` if there is no such name or entry. -/
def firstPlace (arrangement : List String) (name : Option String) (found : Nat → Nat)
    (standard : Nat) : Nat :=
  match name.bind fun n => arrangement.idxOf? n with
  | some i => found i
  | none => standard

/-- The entries to be compiled with their places: from the first entry of the start section to the
first entry of the end section. A name that is not in the arrangement bounds nothing. -/
def Score.selection (s : Score α) (options : CompileOptions α) : List (Nat × String) :=
  let first := firstPlace s.arrangement options.startSection id 0
  let past := firstPlace s.arrangement options.endSection (· + 1) s.arrangement.length
  ((s.arrangement.zipIdx.map fun (name, i) => (i, name)).take past).drop first

/-! ## Seeds -/

/-- Seeds lie between 0 and this number, both included. -/
def greatestSeed : Nat :=
  Nat.pow 2 63

/-- The next `count` seeds of a master stream. -/
def nextSeeds : Nat → Twister → List Nat
  | 0, _ => []
  | count + 1, t =>
    let drawn := t.below (greatestSeed + 1)
    drawn.1 :: nextSeeds count drawn.2

/-! ## One occurrence -/

/-- A note of an occurrence with its time, counted from the start of the section. -/
structure TimedNote (α : Type) where
  note : PlayedNote α
  time : α
  seconds : α

/-- An occurrence with all that it plays, counted from the start of the section. -/
structure CompiledSection (α : Type) where
  occurrence : Occurrence α
  notes : List (TimedNote α)
  automation : List (AutomationEvent α)
  seconds : α

/-- The tempo of a section, or that of the settings. -/
def Section.tempoIn (s : Section α) (settings : Settings α) : α :=
  (givenTempo? s.tempo).getD settings.tempo

/-- The key of a section as written, or that of the settings. -/
def Section.keyIn (s : Section α) (settings : Settings α) : Value α :=
  if s.key.truthy then s.key else .text settings.key

/-- The beats of a section. -/
def Section.beats (s : Section α) (beatsPerBar : α) : α :=
  s.bars * beatsPerBar

/-- The occurrence of a section at a place of the arrangement. -/
def Section.occur (s : Section α) (name : String) (index : Int) (settings : Settings α)
    (beatsPerBar : α) : Outcome (Occurrence α) := do
  let key ← Key.parse (s.keyIn settings)
  return { name, index, body := s, beats := s.beats beatsPerBar, tempo := s.tempoIn settings, key }

namespace Occurrence

/-- A played note with its time. -/
def timeNote (o : Occurrence α) (n : PlayedNote α) : Outcome (TimedNote α) := do
  let time ← o.secondsAt n.beat
  let finish ← o.secondsAt (n.beat + n.duration)
  return { note := n, time, seconds := finish - time }

/-- The samples of one automation. -/
def sample (o : Occurrence α) (path : String) (a : Automation α) :
    Outcome (List (AutomationEvent α)) := do
  let samples ← a.samples o.beats Automation.standardResolution
  samples.mapM fun (beat, value) => do
    return { path, beat, time := ← o.secondsAt beat, value }

/-- The samples of one automation, after what is questionable about it is reported. -/
def automate (o : Occurrence α) (path : String) (a : Automation α) :
    Run (List (AutomationEvent α)) := do
  Run.warnAll (a.warnings path)
  liftM (o.sample path a)

/-- Compiles an occurrence: plays it, and times what it plays. -/
def compile (o : Occurrence α) (patterns : PatternTable α) (swing : α) :
    Run (CompiledSection α) := do
  let played ← o.play patterns swing
  let notes ← (played.mapM o.timeNote : Outcome _)
  let events ← o.body.automation.mapM fun (path, a) => o.automate path a
  let seconds ← (o.secondsAt o.beats : Outcome α)
  return { occurrence := o, notes, automation := events.flatten, seconds }

end Occurrence

/-- Compiles one entry of the arrangement on the stream of its seed. Warnings go on from those so
far. -/
def Score.compileEntry (s : Score α) (settings : Settings α) (beatsPerBar : α) (index : Nat)
    (name : String) (seed : Nat) (warnings : Warnings) :
    Outcome (Option (CompiledSection α) × Warnings) :=
  match s.sections.lookup name with
  | none => .ok (none, warnings.add ("Section \"" ++ name ++ "\" in arrangement not found"))
  | some body => do
    let o ← body.occur name index settings beatsPerBar
    let (compiled, session) ←
      (o.compile s.patterns settings.swing).run { stream := Twister.ofSeed seed, warnings }
    return (some compiled, session.warnings)

/-- Compiles entries, each with its seed, one after the other. -/
def Score.compileEntries (s : Score α) (settings : Settings α) (beatsPerBar : α) :
    List ((Nat × String) × Nat) → Warnings → Outcome (List (CompiledSection α) × Warnings)
  | [], warnings => .ok ([], warnings)
  | ((index, name), seed) :: rest, warnings => do
    let (compiled, warnings) ← s.compileEntry settings beatsPerBar index name seed warnings
    let (more, warnings) ← s.compileEntries settings beatsPerBar rest warnings
    return (compiled.toList ++ more, warnings)

/-! ## The whole -/

namespace CompiledSection

/-- The notes of a section that begins at a beat and a time. -/
def notesAt (c : CompiledSection α) (beat time : α) : List (NoteEvent α) :=
  c.notes.map fun n =>
    { instrument := n.note.instrument, pitch := n.note.pitch
      beat := beat + n.note.beat, beats := n.note.duration
      time := time + n.time, seconds := n.seconds
      velocity := n.note.velocity, timing := n.note.timing, glide := n.note.glide
      origin := c.occurrence.name }

/-- The automation of a section that begins at a beat and a time. -/
def automationAt (c : CompiledSection α) (beat time : α) : List (AutomationEvent α) :=
  c.automation.map fun e => { e with beat := beat + e.beat, time := time + e.time }

/-- The marker of a section that begins at a beat and a time. -/
def markerAt (c : CompiledSection α) (beat time : α) : SectionMarker α :=
  { name := c.occurrence.name, index := c.occurrence.index, beat, time
    bars := c.occurrence.body.bars, beats := c.occurrence.beats, seconds := c.seconds
    tempo := c.occurrence.tempo, key := c.occurrence.key.text }

end CompiledSection

/-- Sections laid one after the other, each with the beat and the time at which it begins. -/
def placeSections : α → α → List (CompiledSection α) → List (α × α × CompiledSection α)
  | _, _, [] => []
  | beat, time, c :: rest =>
    (beat, time, c) :: placeSections (beat + c.occurrence.beats) (time + c.seconds) rest

/-- The events of sections laid one after the other. -/
def draftOf (settings : Settings α) (sections : List (CompiledSection α)) : TimelineDraft α :=
  let placed := placeSections 0.0 0.0 sections
  { settings
    notes := placed.flatMap fun (beat, time, c) => c.notesAt beat time
    sections := placed.map fun (beat, time, c) => c.markerAt beat time
    automation := placed.flatMap fun (beat, time, c) => c.automationAt beat time }

/-- The timeline of sections laid one after the other. -/
def timelineOf (settings : Settings α) (sections : List (CompiledSection α)) : Timeline α :=
  (draftOf settings sections).build
    (sections.foldl (fun beat c => beat + c.occurrence.beats) 0.0)
    (sections.foldl (fun time c => time + c.seconds) 0.0)

/-- What a compilation comes to, in numbers. -/
structure CompilationStats (α : Type) where
  totalSections : Nat
  totalBars : α
  totalNotes : Nat
  instruments : List String
  durationSeconds : α
  sections : List String

structure Compilation (α : Type) where
  /-- The compiled sections, in the order of the arrangement. -/
  sections : List (CompiledSection α)
  timeline : Timeline α
  warnings : Warnings

def Compilation.stats (c : Compilation α) : CompilationStats α :=
  { totalSections := c.sections.length
    totalBars := c.sections.foldl (fun bars s => bars + s.occurrence.body.bars) 0.0
    totalNotes := c.timeline.notes.length
    instruments := c.timeline.instruments
    durationSeconds := c.timeline.totalSeconds
    sections := c.sections.map (·.occurrence.name) }

/-- Compiles a score. -/
def Score.compile (s : Score α) (options : CompileOptions α) : Outcome (Compilation α) := do
  let settings := s.effectiveSettings options
  let meter ← TimeSignature.parse (α := α) (.text settings.timeSignature)
  let beatsPerBar ← meter.beatsPerBar
  let entries := s.selection options
  let seeds := nextSeeds entries.length (Twister.ofSeed options.seed)
  let (sections, warnings) ← s.compileEntries settings beatsPerBar (entries.zip seeds) []
  return { sections, timeline := timelineOf settings sections, warnings }

end Partitura

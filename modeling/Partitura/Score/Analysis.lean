import Partitura.Score.Compilation

/-!
# Looking a score over

What can be said about a score without playing it: how long it is and who plays when, and which of
the names in it lead nowhere.
-/

namespace Partitura

structure SectionSummary (α : Type) where
  name : String
  bars : α
  instruments : List String

/-- The statistics of a score that need no expansion of patterns. -/
structure ScoreAnalysis (α : Type) where
  totalSections : Nat
  totalBars : α
  instruments : List String
  durationSeconds : α
  sections : List (SectionSummary α)
  patterns : List String

variable {α : Type} [Scalar α]

/-- The sections of the arrangement in order. Names of none are left out. -/
def Score.arranged (s : Score α) : List (String × Section α) :=
  s.arrangement.filterMap fun name => (s.sections.lookup name).map fun body => (name, body)

/-- The seconds that a section takes. -/
def Section.seconds (s : Section α) (settings : Settings α) (beatsPerBar : α) : Outcome α :=
  let beats := s.beats beatsPerBar
  s.secondsAt beats (s.tempoIn settings) beats

/-- Sums a score up. -/
def Score.analyze (s : Score α) : Outcome (ScoreAnalysis α) := do
  let meter ← TimeSignature.parse (α := α) (.text s.settings.timeSignature)
  let beatsPerBar ← meter.beatsPerBar
  let arranged := s.arranged
  let seconds ← arranged.mapM fun (_, body) => body.seconds s.settings beatsPerBar
  return {
    totalSections := arranged.length
    totalBars := arranged.foldl (fun bars (_, body) => bars + body.bars) 0.0
    instruments := Ordered.distinct (arranged.flatMap fun (_, body) => body.tracks.map (·.1))
    durationSeconds := seconds.foldl (· + ·) 0.0
    sections := arranged.map fun (name, body) =>
      { name, bars := body.bars, instruments := body.tracks.map (·.1) }
    patterns := s.patterns.map (·.1) }

/-! ## References -/

/-- Whether a table has an entry of a name. -/
def hasEntry {β : Type} (table : List (String × β)) (name : String) : Bool :=
  table.any (·.1 = name)

/-- The entries of the arrangement that are no sections. -/
def Score.unknownSections (s : Score α) : List String :=
  (s.arrangement.filter fun name => !hasEntry s.sections name).map fun name =>
    "Arrangement references unknown section: \"" ++ name ++ "\""

/-- The patterns named by tracks that are none. -/
def Score.unknownPatterns (s : Score α) : List String :=
  s.sections.flatMap fun (sectionName, body) =>
    body.tracks.flatMap fun (trackName, track) =>
      (track.patterns.filter fun name => !hasEntry s.patterns name).map fun name =>
        "Section \"" ++ sectionName ++ "\" track \"" ++ trackName
          ++ "\" references unknown pattern: \"" ++ name ++ "\""

/-- The tracks without an instrument, which only a score with a table of instruments can have. -/
def Score.unknownInstruments (s : Score α) : List String :=
  if s.instruments.isEmpty then []
  else
    s.sections.flatMap fun (sectionName, body) =>
      (body.tracks.filter fun (trackName, _) => !s.instruments.contains trackName).map
        fun (trackName, _) =>
          "Section \"" ++ sectionName ++ "\" has track \"" ++ trackName
            ++ "\" with no matching instrument"

/-- Every name of a section, a pattern or an instrument that leads nowhere. -/
def Score.problems (s : Score α) : List String :=
  s.unknownSections ++ s.unknownPatterns ++ s.unknownInstruments

/-! ## Simple scores -/

/-- A score of one section with a track for each list of notes, named after it. -/
def Score.simple (notes : List (String × List String)) (bars tempo : α) (key : String) : Score α :=
  { settings :=
      { tempo, key, timeSignature := Settings.defaultTimeSignature, swing := Settings.defaultSwing }
    patterns := notes.map fun (name, ns) => (name, .base { content := .notes ns })
    sections :=
      [("main", { bars, tracks := notes.map fun (name, _) => (name, { patterns := [name] }) })]
    arrangement := ["main"] }

end Partitura

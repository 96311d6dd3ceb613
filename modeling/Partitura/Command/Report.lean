import Partitura.Command.Arguments
import Partitura.Midi.Bytes
import Partitura.Midi.Export
import Partitura.Score.Analysis
import Partitura.Score.Reader

/-!
# Reports

What a command says and does about a score: the lines that it prints, the file that it writes, and
the code that it ends with. A fault in what the score says is reported as an error; any other fault
stops the program.
-/

namespace Partitura

structure Report where
  exitCode : Nat := 0
  output : List String := []
  errors : List String := []
  /-- A file to be written: its path and its bytes. -/
  file : Option (String × Midi.Bytes) := none

namespace Report

/-- An error, and nothing done. -/
def refusal (message : String) : Report :=
  { exitCode := 1, errors := ["Error: " ++ message] }

/-- Goes on with what an outcome holds. A fault in what the score says becomes an error, in the words
of `phrase`. -/
def attempt {β : Type} (phrase : String → String) (result : Outcome β)
    (next : β → Outcome Report) : Outcome Report :=
  match result with
  | .ok x => next x
  | .error why =>
    if why.isInput then .ok (refusal (phrase (why.message?.getD ""))) else .error why

/-- Names between commas. -/
def listed (names : List String) : String :=
  ", ".intercalate names

end Report

variable {α : Type} [Scalar α]

/-- The lines that give a compilation in numbers. -/
def CompilationStats.lines (s : CompilationStats α) : List String :=
  ["Sections:    " ++ toString s.totalSections ++ " (" ++ Report.listed s.sections ++ ")",
   "Bars:        " ++ Scalar.general s.totalBars,
   "Notes:       " ++ toString s.totalNotes,
   "Duration:    " ++ Scalar.fixed 2 s.durationSeconds ++ "s",
   "Instruments: " ++ Report.listed s.instruments]

/-- The file that a compilation is written to, if any: a path that is empty is none. -/
def Compilation.file (c : Compilation α) (output : Option String) :
    Outcome (Option (String × Midi.Bytes)) :=
  match output.filter (!·.isEmpty) with
  | none => .ok none
  | some path => do
    let file ← Midi.ofTimeline c.timeline
    return some (path, ← file.bytes)

def Compilation.report (c : Compilation α) (output : Option String) : Outcome Report := do
  let file ← c.file output
  return {
    output := c.stats.lines ++ (file.map fun (path, _) => "Wrote " ++ path).toList
    errors := c.warnings.map ("warning: " ++ ·)
    file }

def SectionSummary.line (s : SectionSummary α) : String :=
  "  " ++ s.name ++ ": " ++ Scalar.general s.bars ++ " bars (" ++ Report.listed s.instruments ++ ")"

/-- The lines that sum a score up. -/
def ScoreAnalysis.lines (a : ScoreAnalysis α) (s : Settings α) : List String :=
  (if s.title.truthy then [s.title.plain] else [])
    ++ ["Tempo " ++ Scalar.general s.tempo ++ " BPM, " ++ s.key ++ ", " ++ s.timeSignature,
        toString a.totalSections ++ " sections, " ++ Scalar.general a.totalBars ++ " bars, about "
          ++ Scalar.fixed 1 a.durationSeconds ++ "s"]
    ++ a.sections.map SectionSummary.line
    ++ ["Patterns: " ++ Report.listed a.patterns]

/-- What is wrong with the names in a score. -/
def Score.checkReport (s : Score α) : Report :=
  if s.problems.isEmpty then { output := ["OK"] }
  else { exitCode := 1, output := s.problems }

namespace Command

/-- The name and the version of the program. -/
def versionLine : String :=
  "etherdaw, version 0.1.0"

/-- Reads the score of a path and goes on with it. -/
def withScore (path : String) (document : Value α)
    (next : Score α → Outcome Report) : Outcome Report :=
  Report.attempt (fun why => "Could not load " ++ path ++ ": " ++ why)
    (Score.read document) next

/-- Carries a command out on the document that its path holds. -/
def run (document : Value α) : Command α → Outcome Report
  | version => .ok { output := [versionLine] }
  | compile path output options =>
    withScore path document fun s =>
      Report.attempt id (s.compile options) fun c => c.report output
  | info path =>
    withScore path document fun s => do
      return { output := (← s.analyze).lines s.settings }
  | validate path => withScore path document fun s => .ok s.checkReport

end Command

end Partitura

import Partitura.Command.Report
import Partitura.Document.Reader
import Partitura.Number.Binary64

/-!
# The program

Reads the command line and the score, and prints what the command reports.
-/

namespace Partitura

def usage : String :=
  "Usage: [--version] | compile SCORE [--output PATH] [--seed N] [--start SECTION] [--end SECTION] "
    ++ "[--tempo BPM] [--key KEY] | info SCORE | validate SCORE"

/-- The document of a path. -/
def readDocument (path : String) : IO (Option (Value Float)) := do
  return Document.read? (← IO.FS.readFile path)

/-- Prints a report and writes its file. -/
def Report.emit (r : Report) : IO UInt32 := do
  for line in r.output do IO.println line
  for line in r.errors do IO.eprintln line
  if let some (path, bytes) := r.file then IO.FS.writeBinFile path ⟨bytes.toArray⟩
  return r.exitCode.toUInt32

/-- Prints why there is no report. -/
def emitError (message : String) : IO UInt32 := do
  IO.eprintln ("Error: " ++ message)
  return 1

/-- Carries a command out. -/
def Command.perform (c : Command Float) : IO UInt32 := do
  let document ←
    match c.path? with
    | none => pure (some .null)
    | some path => readDocument path
  match document with
  | none => emitError "The score is no document"
  | some v =>
    match c.run v with
    | .ok report => report.emit
    | .error why => emitError (why.message?.getD "The score asks for what has no result")

end Partitura

def main (arguments : List String) : IO UInt32 :=
  match Partitura.Command.ofArguments? arguments with
  | some c => c.perform
  | none => do
    IO.eprintln Partitura.usage
    return 2

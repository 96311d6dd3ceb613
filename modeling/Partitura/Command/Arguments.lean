import Partitura.Number.Reading
import Partitura.Score.Compilation

/-!
# Commands

What the program is asked to do, and how that is written on a command line: the name of a command,
the path of a score, and options, which may stand on either side of the path.
-/

namespace Partitura

inductive Command (α : Type) where
  | version
  /-- Compiles a score, and writes it to the path `output` if there is one. -/
  | compile (path : String) (output : Option String) (options : CompileOptions α)
  /-- Sums a score up. -/
  | info (path : String)
  /-- Checks the names in a score. -/
  | validate (path : String)

namespace Command

/-! ## Options -/

/-- The options of the `compile` command. -/
inductive Flag where
  | output | seed | start | finish | tempo | key
  deriving DecidableEq, Repr

def Flag.ofText? (s : String) : Option Flag :=
  match s with
  | "--output" | "-o" => some .output
  | "--seed" => some .seed
  | "--start" => some .start
  | "--end" => some .finish
  | "--tempo" => some .tempo
  | "--key" => some .key
  | _ => none

/-- An option and, if it is written into the same argument, its value: after an equals sign, or right
behind the letter of a short option. -/
def splitFlag (argument : String) : String × Option String :=
  match argument.toList with
  | '-' :: '-' :: name =>
    match name.dropWhile (· ≠ '=') with
    | '=' :: value =>
      ("--" ++ String.ofList (name.takeWhile (· ≠ '=')), some (String.ofList value))
    | _ => (argument, none)
  | '-' :: letter :: c :: value =>
    (String.ofList ['-', letter], some (String.ofList (c :: value)))
  | _ => (argument, none)

/-- What has been read of a command line. -/
structure Reading (α : Type) where
  paths : List String := []
  output : Option String := none
  options : CompileOptions α := {}

variable {α : Type} [Scalar α]

/-- The slowest tempo that may be asked for. -/
def slowestTempo : α :=
  1.0

def readTempo? (value : String) : Option α :=
  (Decimal.readScalar? value).filter fun x => !decide (x < slowestTempo)

/-- Takes an option and its value over. -/
def Reading.set? (r : Reading α) (flag : Flag) (value : String) : Option (Reading α) :=
  match flag with
  | .output => some { r with output := value }
  | .seed =>
    (Decimal.readInt? value).map fun n => { r with options := { r.options with seed := n } }
  | .start => some { r with options := { r.options with startSection := value } }
  | .finish => some { r with options := { r.options with endSection := value } }
  | .tempo =>
    (readTempo? value).map fun x => { r with options := { r.options with tempo := some x } }
  | .key => some { r with options := { r.options with key := value } }

/-- Reads paths and options. Behind two dashes there are only paths. -/
def readArguments (r : Reading α) : List String → Option (Reading α)
  | [] => some r
  | "--" :: rest => some { r with paths := r.paths ++ rest }
  | argument :: rest =>
    let (name, inner) := splitFlag argument
    match Flag.ofText? name, inner, rest with
    | some flag, some value, rest => do readArguments (← r.set? flag value) rest
    | some flag, none, value :: rest => do readArguments (← r.set? flag value) rest
    | some _, none, [] => none
    | none, _, rest =>
      if "-".toList.isPrefixOf argument.toList then none
      else readArguments { r with paths := r.paths ++ [argument] } rest

/-- The path of a command that takes nothing but a path. -/
def onlyPath? : List String → Option String
  | [path] => if "-".toList.isPrefixOf path.toList then none else some path
  | ["--", path] => some path
  | _ => none

def readCompile? (arguments : List String) : Option (Command α) := do
  let r : Reading α ← readArguments {} arguments
  match r.paths with
  | [path] => return compile path r.output r.options
  | _ => none

/-- Reads a command line. The program has nothing more to tell when it is asked to be verbose. -/
def ofArguments? : List String → Option (Command α)
  | "-v" :: rest | "--verbose" :: rest => ofArguments? rest
  | "--version" :: _ => some version
  | "compile" :: rest => readCompile? rest
  | "info" :: rest => info <$> onlyPath? rest
  | "validate" :: rest => validate <$> onlyPath? rest
  | _ => none

/-- The path of the score that a command is about. -/
def path? : Command α → Option String
  | version => none
  | compile path .. | info path | validate path => some path

end Command

end Partitura

import Partitura.Curve.Automation
import Partitura.Text.Quoted

/-!
# Automation paths

What an automation moves, written with points between the parts: the tempo (`tempo`), the volume or
the panorama of an instrument (`bass.volume`), a named parameter of its sound
(`pad.params.brightness`), or a parameter of an effect (`lead.filter.frequency`).
-/

namespace Partitura

/-- What part of an instrument an automation moves. -/
inductive AutomationTarget where
  | tempo | params | channel | effects
  deriving DecidableEq, Repr

def AutomationTarget.name : AutomationTarget → String
  | .tempo => "tempo"
  | .params => "params"
  | .channel => "channel"
  | .effects => "effects"

structure AutomationPath where
  instrument : String
  target : AutomationTarget
  param : Option String := none
  effect : Option String := none
  deriving DecidableEq, Repr

namespace AutomationPath

/-- The path of the tempo. -/
def tempoPath : String :=
  "tempo"

/-- The parts of a text between the points; `part` holds the characters of the present one in
reverse. -/
def splitFrom (part : List Char) : List Char → List String
  | [] => [String.ofList part.reverse]
  | c :: rest =>
    if c = '.' then String.ofList part.reverse :: splitFrom [] rest
    else splitFrom (c :: part) rest

/-- Reads a path, if it has a meaning. -/
def ofText? (path : String) : Option AutomationPath :=
  if path = tempoPath then some { instrument := "_global", target := .tempo }
  else
    match splitFrom [] path.toList with
    | instrument :: second :: rest =>
      if instrument = "" then none
      else
        match second, rest with
        | "params", param :: _ => some { instrument, target := .params, param }
        | "volume", [] | "pan", [] => some { instrument, target := .channel, param := second }
        | effect, param :: _ => some { instrument, target := .effects, param, effect }
        | _, [] => none
    | _ => none

end AutomationPath

/-! ## Named parameters of a sound -/

/-- Parameters that describe a sound in everyday words, each from 0 to 1. -/
inductive SemanticParam where
  | brightness | warmth | attack | decay | sustain | release
  deriving DecidableEq, Repr

namespace SemanticParam

def all : List SemanticParam :=
  [brightness, warmth, attack, decay, sustain, release]

def name : SemanticParam → String
  | brightness => "brightness"
  | warmth => "warmth"
  | attack => "attack"
  | decay => "decay"
  | sustain => "sustain"
  | release => "release"

/-- The parameter of the synthesizer behind it. -/
def synthParam : SemanticParam → String
  | brightness => "modulationIndex"
  | warmth => "harmonicity"
  | attack => "envelope.attack"
  | decay => "envelope.decay"
  | sustain => "envelope.sustain"
  | release => "envelope.release"

def ofName? (s : String) : Option SemanticParam :=
  all.find? (·.name = s)

variable {α : Type} [Scalar α]

/-- A value from 0 to 1 in the units of the synthesizer. -/
def toSynth : SemanticParam → α → α
  | brightness, v => v * 20.0
  | warmth, v => 0.5 + (1.0 - v) * 7.5
  | attack, v => 0.001 + v * 1.999
  | decay, v => 0.05 + v * 3.95
  | sustain, v => v
  | release, v => 0.1 + v * 3.9

/-- The parameter behind a name and both ends of a ramp in its units. -/
def resolve? (name : String) (start finish : α) : Option (String × α × α) :=
  (ofName? name).map fun p => (p.synthParam, p.toSynth start, p.toSynth finish)

end SemanticParam

/-! ## Checks -/

namespace Automation

variable {α : Type} [Scalar α]

/-- The slowest tempo that an automation leads to. -/
def minTempo : α :=
  1.0

/-- The values that a ramp is given by. -/
def givenValues (a : Automation α) : List α :=
  if a.points.isEmpty then [a.start, a.finish] else a.points.map (·.value)

/-- The least of a list of values, the first of equal ones. -/
def least? : List α → Option α
  | [] => none
  | x :: rest => some (rest.foldl Scalar.min x)

/-- What is questionable about an automation of a path. -/
def warnings (path : String) (a : Automation α) : List String :=
  match AutomationPath.ofText? path with
  | none => ["Invalid automation path: " ++ path]
  | some p =>
    let param := p.param.getD ""
    let unknownParam : List String :=
      if p.target = .params && (SemanticParam.ofName? param).isNone then
        ["Unknown semantic parameter: " ++ param ++ " (in automation " ++ Text.quoted path ++ ")"]
      else []
    let unknownCurve : List String :=
      if a.points.isEmpty && !curveNames.contains a.curve then
        ["Unknown automation curve: " ++ a.curve ++ ". Valid curves: "
          ++ ", ".intercalate curveNames]
      else []
    let slow : List String :=
      if p.target = .tempo && (least? a.givenValues).any (fun x => decide (x ≤ 0)) then
        ["Tempo automation values must be positive; values below "
          ++ Scalar.shortest (minTempo : α) ++ " BPM are clamped"]
      else []
    unknownParam ++ unknownCurve ++ slow

end Automation

end Partitura

import Partitura.Markov.Table

/-!
# Preset tables

Tables that are built from a list of states alone. Some take the states to be in the order of their
pitch, so that neighbours in the list are neighbours in sound.
-/

namespace Partitura.Markov

inductive Preset where
  | uniform | neighborWeighted | walkingBass | melodyStepwise | rootHeavy
  deriving DecidableEq, Repr

namespace Preset

def all : List Preset :=
  [uniform, neighborWeighted, walkingBass, melodyStepwise, rootHeavy]

def name : Preset → String
  | uniform => "uniform"
  | neighborWeighted => "neighbor_weighted"
  | walkingBass => "walking_bass"
  | melodyStepwise => "melody_stepwise"
  | rootHeavy => "root_heavy"

def ofName? (s : String) : Option Preset :=
  all.find? (·.name = s)

variable {α : Type} [Scalar α]

/-- A state and its place in the list. -/
abbrev Place :=
  String × Nat

/-- The table with a weight for each pair of states. A state that is listed twice has the weights of
its last place. -/
def tableOf (states : List String) (weight : Place → Place → α) : Table α :=
  let places := states.zipIdx
  Ordered.ofPairs (places.map fun p =>
    (p.1, Ordered.ofPairs (places.map fun q => (q.1, .real (weight p q)))))

def distance (p q : Place) : Nat :=
  ((p.2 : Int) - q.2).natAbs

/-- `x` shared by `n`, or by one if there are none. -/
def share (x : α) (n : Nat) : α :=
  x / Scalar.ofNat (max 1 n)

/-- States other than the given ones. -/
def countOthers (states excluded : List String) : Nat :=
  (states.filter fun s => !excluded.contains s).length

def evenWeight (states : List String) : α :=
  1.0 / Scalar.ofNat states.length

/-- The nearer a state, the likelier. -/
def nearWeight (p q : Place) : α :=
  1.0 / Scalar.ofNat (distance p q + 1)

/-- Favours the root, tones that lead into the root or the fifth, and few rests. -/
def bassWeight (states : List String) (p q : Place) : α :=
  let spread := states.length - 2
  let state := p.1
  let target := q.1
  if state = "1" then
    let base := share 0.85 (countOthers states ["1", rest])
    if target = "1" then 0.1
    else if target = "5" then base + 0.05
    else if target = rest then 0.05
    else base
  else if state = approach then
    if target = "1" then 0.6
    else if target = "5" then 0.3
    else share 0.1 spread
  else if state = rest then
    if target = "1" then 0.5
    else if target = rest then 0.1
    else share 0.4 spread
  else if target = "1" then 0.35
  else if target = approach then 0.2
  else if target = state then 0.05
  else
    let remaining := if states.contains approach then 0.4 else 0.6
    share remaining (countOthers states ["1", approach, state])

/-- Favours steps to the neighbours. -/
def stepWeight (p q : Place) : α :=
  match distance p q with
  | 0 => 0.05
  | 1 => 0.35
  | 2 => 0.15
  | d => 0.05 / Scalar.ofNat d

/-- Comes back to the root all the time. -/
def rootWeight (states : List String) (p q : Place) : α :=
  let spread := states.length - 2
  if p.1 = "1" then
    if q.1 = "1" then 0.3
    else if q.1 = "5" then 0.25
    else share 0.45 spread
  else if q.1 = "1" then 0.5
  else if q.1 = p.1 then 0.1
  else share 0.4 spread

/-- The table of a preset over a list of states that is not empty. -/
def table (states : List String) : Preset → Outcome (Table α)
  | uniform => .ok (tableOf states fun _ _ => evenWeight states)
  | neighborWeighted => (tableOf states nearWeight).normalize
  | walkingBass => (tableOf states (bassWeight states)).normalize
  | melodyStepwise => (tableOf states stepWeight).normalize
  | rootHeavy => (tableOf states (rootWeight states)).normalize

/-- The table of the preset of a name. -/
def tableOfName (preset : String) (states : List String) : Outcome (Table α) :=
  if states.isEmpty then .error (.rejected .noStates)
  else
    match ofName? preset with
    | some p => p.table states
    | none =>
      .error (.rejected (.unknownName .markovPreset (Text.quoted preset) (all.map name)))

end Preset

end Partitura.Markov

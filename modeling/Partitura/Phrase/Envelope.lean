import Partitura.Curve.Easing
import Partitura.Number.Scalar
import Partitura.Session
import Partitura.Text.Quoted

/-!
# Phrases and envelopes

A phrase is what a pattern plays: notes, each with its start in beats from the beginning of the
phrase, and the length of the phrase, which is where whatever follows begins.

An envelope gives the notes of a phrase new velocities, in note order: a named shape around a base
velocity, or a list of levels that is stretched over the notes.
-/

namespace Partitura

/-! ## Phrases -/

/-- One note of a phrase. -/
structure Note (α : Type) where
  /-- The text of a pitch or of a drum. -/
  pitch : String
  start : α
  duration : α
  velocity : α
  /-- Milliseconds by which the note is played late. -/
  timing : Option Int := none
  probability : Option α := none
  glide : Bool := false

structure Phrase (α : Type) where
  notes : List (Note α) := []
  beats : α

variable {α : Type} [Scalar α]

/-- Where a note ends. -/
def Note.finish (n : Note α) : α :=
  n.start + n.duration

/-- The same note, later. -/
def Note.delay (n : Note α) (beats : α) : Note α :=
  { n with start := n.start + beats }

namespace Phrase

/-- No notes and no time. -/
def silence : Phrase α :=
  { beats := 0.0 }

end Phrase

/-! ## Envelopes -/

inductive Envelope (α : Type) where
  | named (name : String)
  | levels (values : List α)

namespace Envelope

inductive Shape where
  | crescendo | diminuendo | swell | accentFirst | accentDownbeats
  deriving DecidableEq, Repr

namespace Shape

def all : List Shape :=
  [crescendo, diminuendo, swell, accentFirst, accentDownbeats]

def name : Shape → String
  | crescendo => "crescendo"
  | diminuendo => "diminuendo"
  | swell => "swell"
  | accentFirst => "accent_first"
  | accentDownbeats => "accent_downbeats"

def ofName? (s : String) : Option Shape :=
  all.find? (·.name = s)

end Shape

/-- The soft end of a shape. -/
def low (base : α) : α :=
  Scalar.max 0.1 (base * 0.3)

/-- The loud end of a shape. -/
def high (base : α) : α :=
  Scalar.min 1.0 (base * 1.2)

/-- How loud the notes between the accented ones are, as a part of the base. -/
def offbeatRatio : α :=
  0.7

/-- A shape over any number of notes but one. -/
def Shape.over (count : Int) (base : α) (s : Shape) : Outcome (List α) :=
  let low := low base
  let high := high base
  let indices := List.range count.toNat
  let position (i : Nat) : α := Scalar.ofNat i / Scalar.ofInt (count - 1)
  match s with
  | .crescendo => .ok (indices.map fun i => low + position i * (high - low))
  | .diminuendo => .ok (indices.map fun i => high - position i * (high - low))
  | .swell =>
    indices.mapM fun i => do
      return low + (← angular Scalar.sine (position i * Easing.halfTurn)) * (high - low)
  | .accentFirst => .ok (high :: List.replicate (count - 1).toNat base)
  | .accentDownbeats =>
    .ok (indices.map fun i => if i % 2 = 0 then high else base * offbeatRatio)

/-- The velocities that a shape gives to a number of notes. A single note keeps the base. -/
def Shape.velocities (count : Int) (base : α) (s : Shape) : Outcome (List α) :=
  if count = 0 then .ok []
  else if count = 1 then .ok [base]
  else s.over count base

/-- The velocities of the shape of a name. -/
def velocitiesOfName (name : String) (count : Int) (base : α) : Outcome (List α) :=
  match Shape.ofName? name with
  | some s => s.velocities count base
  | none =>
    .error (.rejected (.unknownName .envelope (Text.quoted name) (Shape.all.map Shape.name)))

/-- Where in a list of levels a note takes its velocity, for the `i`-th of `count` notes. -/
def levelPosition (size count i : Nat) : α :=
  if count = 1 then 0.0
  else Scalar.ofNat i / Scalar.ofNat (count - 1) * Scalar.ofNat (size - 1)

/-- The value of a list of levels at a position, on the straight line between its neighbours and held
between 0 and 1. -/
def levelAt (values : List α) (position : α) : Outcome α := do
  let lower ← floorOf position
  let upper := min (lower + 1) (values.length - 1)
  let fraction := position - Scalar.ofInt lower
  match values[lower.toNat]?, values[upper.toNat]? with
  | some a, some b =>
    return Scalar.min 1.0 (Scalar.max 0.0 (a * (1 - fraction) + b * fraction))
  | _, _ => throw .emptyChoice

/-- A list of levels stretched over a number of notes. -/
def stretch (values : List α) (count : Nat) : Outcome (List α) :=
  if values.isEmpty then .ok []
  else (List.range count).mapM fun i => levelAt values (levelPosition values.length count i)

/-- Gives notes new velocities, one each. -/
def withVelocities (notes : List (Note α)) (velocities : List α) : List (Note α) :=
  List.zipWith (fun n v => { n with velocity := v }) notes velocities

/-- Applies an envelope to notes. An unknown shape and an empty list of levels change nothing. -/
def apply (e : Envelope α) (notes : List (Note α)) (base : α) : Run (List (Note α)) :=
  if notes.isEmpty then return []
  else
    match e with
    | named name =>
      match Shape.ofName? name with
      | none => do
        Run.warn ("Unknown envelope " ++ Text.quoted name ++ ", velocities left unchanged")
        return notes
      | some s => do return withVelocities notes (← s.velocities notes.length base)
    | levels values =>
      if values.isEmpty then return notes
      else do return withVelocities notes (← stretch values notes.length)

end Envelope

end Partitura

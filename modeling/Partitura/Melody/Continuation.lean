import Partitura.Melody.Transform

/-!
# Continuations

Ways to go on from a motif: to repeat it higher or lower (a sequence), to let its intervals run
backwards from its last note (an extension), to break it into ever shorter pieces (fragmentation),
and a mixture of these (development).
-/

namespace Partitura.Melody

variable (α : Type) [Scalar α]

inductive Technique where
  | ascendingSequence | descendingSequence | extension | fragmentation | development
  deriving DecidableEq, Repr

namespace Technique

def all : List Technique :=
  [ascendingSequence, descendingSequence, extension, fragmentation, development]

def name : Technique → String
  | ascendingSequence => "ascending_sequence"
  | descendingSequence => "descending_sequence"
  | extension => "extension"
  | fragmentation => "fragmentation"
  | development => "development"

def ofName? (s : String) : Option Technique :=
  all.find? (·.name = s)

end Technique

/-- The motif `repetitions` times, each copy `interval` semitones further than the one before. -/
def sequence (motif : List String) (repetitions interval : Int) : Outcome (List String) := do
  let copies ← (List.range repetitions.toNat).mapM fun (i : Nat) => transpose α motif (i * interval)
  return copies.flatten

/-- The semitones from each token to the next, where both are notes. -/
def intervalsBetween {α : Type} : List (Token α) → List Int
  | .note a :: .note b :: rest =>
    (b.pitch.midi - a.pitch.midi) :: intervalsBetween (.note b :: rest)
  | _ :: rest => intervalsBetween rest
  | [] => []

/-- The intervals between neighbouring notes. -/
def intervals (notes : List String) : Outcome (List Int) := do
  return intervalsBetween (← notes.mapM (Token.parse (α := α)))

/-- `more` further notes after `last`, each a step away from the one before it. The steps are taken
from the end of the list, over and over; `index` counts the notes already added. -/
def extendFrom (steps : List Int) (last : String) (index : Nat) : Nat → Outcome (List String)
  | 0 => .ok []
  | more + 1 => do
    let step := steps.getD (steps.length - 1 - index % steps.length) 0
    let notes ← transpose α [last] step
    match notes with
    | next :: _ => return next :: (← extendFrom steps next (index + 1) more)
    | [] => .error .emptyChoice

/-- The motif and `additional` notes that repeat its intervals backwards from its last note. -/
def extend (motif : List String) (additional : Int) : Outcome (List String) := do
  if motif.length < 2 then return motif
  let steps ← intervals α motif
  match motif.getLast? with
  | some last =>
    if steps.isEmpty then return motif
    return motif ++ (← extendFrom α steps last 0 additional.toNat)
  | none => return motif

/-- The part of a piece that the next shorter piece keeps. -/
def fragmentRatio : α :=
  0.7

/-- Semitones by which each piece lies higher than the one before. -/
def fragmentStep : Int :=
  2

/-- The size of the piece after one of `size` notes. -/
def nextFragmentSize (size : Nat) : Outcome Nat := do
  let n : Int ← truncateOf (Scalar.ofNat size * fragmentRatio α)
  return (max 1 n).toNat

/-- `more` ever shorter pieces of the motif, in turn from its beginning and from its end. The last
piece had `size` notes and was number `index - 1`. -/
def fragmentsFrom (motif : List String) (size index : Nat) : Nat → Outcome (List String)
  | 0 => .ok []
  | more + 1 => do
    let size ← nextFragmentSize α size
    let piece := if index % 2 = 0 then motif.take size else motif.drop (motif.length - size)
    let moved ← transpose α piece (index * fragmentStep)
    return moved ++ (← fragmentsFrom motif size (index + 1) more)

/-- Ever shorter pieces of the motif, each raised a whole tone more than the last. -/
def fragment (motif : List String) (repetitions : Int) : Outcome (List String) :=
  fragmentsFrom α motif motif.length 0 repetitions.toNat

/-- The motif, one step of a sequence, then fragmentation. -/
def develop (motif : List String) (steps interval : Int) : Outcome (List String) := do
  let copies ← sequence α motif 2 interval
  let pieces ← if 2 < steps then fragment α motif (steps - 2) else pure []
  return motif ++ copies.drop motif.length ++ pieces

/-- Continues a motif, whose notes stand one a text. -/
def continueWith (motif : List String) (steps interval : Int) :
    Technique → Outcome (List String)
  | .ascendingSequence => sequence α motif steps interval.natAbs
  | .descendingSequence => sequence α motif steps (-(interval.natAbs : Int))
  | .extension => extend α motif steps
  | .fragmentation => fragment α motif steps
  | .development => develop α motif steps interval

/-- Continues a motif by the technique of a name. -/
def continueMotif (motif : List String) (technique : String) (steps interval : Int) :
    Outcome (List String) :=
  match Technique.ofName? technique with
  | some t => continueWith α (Compact.expand motif) steps interval t
  | none =>
    .error (.rejected (.unknownName .technique (Text.quoted technique)
      (Technique.all.map Technique.name)))

end Partitura.Melody

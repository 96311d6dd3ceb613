import Partitura.Notation.Pitch
import Partitura.Number.Checked
import Partitura.Document.Value

/-!
# Motion between voicings

A voicing is a pitch number for each voice, the bass first. A step from one voicing to the next may be
forbidden by the rules in force, and is otherwise the better the less it costs.
-/

namespace Partitura

/-- One pitch number a voice, from the bass upward. -/
abbrev Voicing :=
  List Int

namespace Voicing

/-- The rules that a progression may be put under. The last two are named in styles but do not count
in the score. -/
inductive Constraint where
  | noParallelFifths | noParallelOctaves | smoothMotion | contraryOuterMotion
  | avoidVoiceCrossing | resolveLeadingTones | resolveSevenths
  deriving DecidableEq, Repr

def Constraint.name : Constraint → String
  | .noParallelFifths => "no_parallel_fifths"
  | .noParallelOctaves => "no_parallel_octaves"
  | .smoothMotion => "smooth_motion"
  | .contraryOuterMotion => "contrary_outer_motion"
  | .avoidVoiceCrossing => "avoid_voice_crossing"
  | .resolveLeadingTones => "resolve_leading_tones"
  | .resolveSevenths => "resolve_sevenths"

/-- The rules in force, out of a list of names that may hold others too. -/
structure Rules where
  noParallelFifths : Bool
  noParallelOctaves : Bool
  avoidVoiceCrossing : Bool
  contraryOuterMotion : Bool
  smoothMotion : Bool
  deriving DecidableEq, Repr

def Rules.ofNames (names : List String) : Rules :=
  { noParallelFifths := names.contains Constraint.noParallelFifths.name
    noParallelOctaves := names.contains Constraint.noParallelOctaves.name
    avoidVoiceCrossing := names.contains Constraint.avoidVoiceCrossing.name
    contraryOuterMotion := names.contains Constraint.contraryOuterMotion.name
    smoothMotion := names.contains Constraint.smoothMotion.name }

/-! ## Styles -/

/-- The constraints of each style. -/
def styles : List (String × List Constraint) :=
  [("bach",
     [.noParallelFifths, .noParallelOctaves, .resolveLeadingTones, .resolveSevenths,
      .smoothMotion, .contraryOuterMotion, .avoidVoiceCrossing]),
   ("jazz", [.smoothMotion, .avoidVoiceCrossing]),
   ("pop", [.smoothMotion]),
   ("custom", [])]

/-- The names of the constraints of a style, and of further ones, each once. An unknown style has
none. -/
def effectiveConstraints (style : String) (extra : List String) : List String :=
  Ordered.distinct (((styles.lookup style).getD []).map Constraint.name ++ extra)

/-! ## Checks -/

/-- How one voice moves: where it comes from and where it goes. -/
abbrev Move :=
  Int × Int

/-- The moves of all voices. -/
def moves (previous current : Voicing) : List Move :=
  previous.zip current

/-- Whether two voices move the same way from an interval to the same interval, octaves not counting. -/
def parallel (interval : Int) (a b : Move) : Bool :=
  (((b.1 - a.1).natAbs : Int) % octaveSize == interval) &&
  (((b.2 - a.2).natAbs : Int) % octaveSize == interval) &&
  a.2 != a.1 && b.2 != b.1 && (a.2 - a.1).sign == (b.2 - b.1).sign

/-- Whether any two of the voices move in parallel at an interval. -/
def anyParallel (interval : Int) : List Move → Bool
  | [] => false
  | a :: rest => rest.any (parallel interval a) || anyParallel interval rest

/-- Semitones of a fifth. -/
def fifth : Int :=
  7

def hasParallelFifths (previous current : Voicing) : Bool :=
  anyParallel fifth (moves previous current)

def hasParallelOctaves (previous current : Voicing) : Bool :=
  anyParallel 0 (moves previous current)

/-- Whether a voice is at or above the voice above it. -/
def hasCrossing : Voicing → Bool
  | a :: b :: rest => b ≤ a || hasCrossing (b :: rest)
  | _ => false

/-- The semitones that all voices move, together. -/
def totalMotion (previous current : Voicing) : Int :=
  ((moves previous current).map fun (a, b) => ((b - a).natAbs : Int)).foldl (· + ·) 0

/-- Whether the outer voices move in opposite directions; a single voice counts as doing so. -/
def hasContraryOuterMotion (previous current : Voicing) : Bool :=
  match previous, current, previous.getLast?, current.getLast? with
  | bass :: _ :: _, bass' :: _, some top, some top' =>
    bass' != bass && top' != top && (bass' - bass).sign != (top' - top).sign
  | _, _, _, _ => true

/-- What it costs when the outer voices do not move in opposite directions. -/
def contraryPenalty : Int :=
  10

/-- Whether the rules allow a step. -/
def allowed (r : Rules) (previous current : Voicing) : Bool :=
  !(r.noParallelFifths && hasParallelFifths previous current) &&
  !(r.noParallelOctaves && hasParallelOctaves previous current) &&
  !(r.avoidVoiceCrossing && hasCrossing current)

/-- The score of a step, which is zero at best. -/
def stepScore (r : Rules) (previous current : Voicing) : Int :=
  (if r.contraryOuterMotion && !hasContraryOuterMotion previous current then -contraryPenalty
   else 0)
  - (if r.smoothMotion then totalMotion previous current else 0)

/-! ## Comparing voicings of any size

Voicings found by a search have the same voices. Two voicings from elsewhere may not: a voice of the
first one that goes nowhere is a fault as soon as it is to be followed, and the scores, which are
small whole numbers otherwise, are summed up as scalars. -/

/-- Follows the pairs of voices of the first voicing, until two move in parallel at an interval. -/
def findParallel (interval : Int) (previous current : Voicing) : Outcome Bool :=
  let ms := moves previous current
  let foundFirst :=
    match ms with
    | bass :: rest => rest.any (parallel interval bass)
    | [] => false
  if foundFirst || previous.length ≤ 1 || previous.length ≤ current.length then
    .ok (anyParallel interval ms)
  else .error .emptyChoice

/-- All that is said about a step from one voicing to the next. -/
structure Comparison (α : Type) where
  parallelFifths : Bool
  parallelOctaves : Bool
  /-- Whether voices cross in the second voicing. -/
  crossing : Bool
  motion : Int
  contrary : Bool
  allowed : Bool
  score : α
  deriving DecidableEq, Repr

variable {α : Type} [Scalar α]

/-- The score of a step as a scalar. -/
def scalarScore (r : Rules) (previous current : Voicing) : Outcome α := do
  let contrary : α :=
    if r.contraryOuterMotion && !hasContraryOuterMotion previous current then
      0.0 - Scalar.ofInt contraryPenalty
    else 0.0
  if r.smoothMotion then return contrary - (← scalarOf (totalMotion previous current))
  return contrary

/-- Compares two voicings. -/
def compare (r : Rules) (previous current : Voicing) : Outcome (Comparison α) := do
  return {
    parallelFifths := ← findParallel fifth previous current
    parallelOctaves := ← findParallel 0 previous current
    crossing := hasCrossing current
    motion := totalMotion previous current
    contrary := hasContraryOuterMotion previous current
    allowed := allowed r previous current
    score := ← scalarScore r previous current }

end Voicing

end Partitura

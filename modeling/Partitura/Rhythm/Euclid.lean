/-!
# Euclidean rhythms

A number of pulses spread over a number of steps as evenly as possible. The rhythm is a word over
rests (`false`) and pulses (`true`), built as the Euclidean algorithm runs on the two numbers: a level
repeats the word of the level before it and, unless the division came out even, puts the word before
that behind it.
-/

namespace Partitura.Rhythm

/-- One level of the construction: how often the last word is repeated, and whether the word before
it follows. -/
structure Level where
  count : Nat
  follows : Bool
  deriving DecidableEq, Repr

/-- The levels for dividing `divisor` by `remainder`. The algorithm ends with the first remainder
that is at most 1. -/
def levels (divisor remainder : Nat) : List Level :=
  if _h : 0 < remainder ∧ 1 < divisor % remainder then
    ⟨divisor / remainder, true⟩ :: levels remainder (divisor % remainder)
  else
    [⟨divisor / remainder, true⟩, ⟨remainder, divisor % remainder ≠ 0⟩]
termination_by remainder
decreasing_by exact Nat.mod_lt _ _h.1

/-- `n` copies of a word, one behind the other. -/
def repeatWord (n : Nat) (word : List Bool) : List Bool :=
  (List.replicate n word).flatten

/-- The last two words after one more level. -/
def grow (words : List Bool × List Bool) (l : Level) : List Bool × List Bool :=
  (repeatWord l.count words.1 ++ (if l.follows then words.2 else []), words.1)

/-- The word that the levels build from a rest and a pulse. -/
def build (ls : List Level) : List Bool :=
  (ls.foldl grow ([false], [true])).1

/-- A rhythm turned until it begins with a pulse. -/
def fromFirstPulse (word : List Bool) : List Bool :=
  word.dropWhile (!·) ++ word.takeWhile (!·)

/-- `pulses` spread over `steps` as evenly as possible, from a pulse on. With at least as many pulses
as steps every step is one, without pulses none is. -/
def spread (steps pulses : Int) : List Bool :=
  if steps ≤ 0 then []
  else if pulses ≤ 0 then List.replicate steps.toNat false
  else if steps ≤ pulses then List.replicate steps.toNat true
  else fromFirstPulse (build (levels (steps - pulses).toNat pulses.toNat))

variable {β : Type}

/-- A sequence turned to the right by `rotation` places, to the left when it is negative. -/
def rotate (xs : List β) (rotation : Int) : List β :=
  let shift := (rotation % (xs.length : Int)).toNat
  xs.drop (xs.length - shift) ++ xs.take (xs.length - shift)

/-- A Euclidean rhythm turned to the right. -/
def euclidean (pulses steps rotation : Int) : List Bool :=
  rotate (spread steps pulses) rotation

/-- The positions of the pulses, from `start` on. -/
def pulsesFrom (start : Nat) : List Bool → List Nat
  | [] => []
  | b :: rest => if b then start :: pulsesFrom (start + 1) rest else pulsesFrom (start + 1) rest

/-- The positions of the pulses of a rhythm. -/
def pulsePositions (word : List Bool) : List Nat :=
  pulsesFrom 0 word

end Partitura.Rhythm

import Partitura.Number.Scalar

/-!
# Articulations and dynamics

The marks that say how a note is played: how much of its written length it sounds for, how much
louder than its neighbours it is, and the named levels of loudness.
-/

namespace Partitura

/-- How a note is attacked and held. -/
inductive Articulation where
  | plain | staccato | legato | accent | marcato
  deriving DecidableEq, Repr

namespace Articulation

def text : Articulation → String
  | plain => ""
  | staccato => "*"
  | legato => "~"
  | accent => ">"
  | marcato => "^"

def ofChar? : Char → Option Articulation
  | '*' => some staccato
  | '~' => some legato
  | '>' => some accent
  | '^' => some marcato
  | _ => none

variable {α : Type} [Scalar α]

/-- The part of its written length for which a note sounds. -/
def gate : Articulation → α
  | plain | accent => 1.0
  | staccato | marcato => 0.3
  | legato => 1.1

/-- What is added to the velocity. -/
def boost : Articulation → α
  | plain | staccato | legato => 0.0
  | accent | marcato => 0.2

end Articulation

/-- The named levels of loudness. -/
inductive Dynamic where
  | ppp | pp | p | mp | mf | f | ff | fff
  deriving DecidableEq, Repr

def Dynamic.velocity {α : Type} [Scalar α] : Dynamic → α
  | .ppp => 0.10
  | .pp => 0.20
  | .p => 0.35
  | .mp => 0.50
  | .mf => 0.65
  | .f => 0.80
  | .ff => 0.95
  | .fff => 1.0

end Partitura

import Partitura.Document.Value
import Partitura.Random.Draw

/-!
# Arpeggio orders

In which order the tones of a broken chord are played. Tones are counted from 1 and run on through
copies of the chord in the octaves above.
-/

namespace Partitura.Arpeggio

inductive Mode where
  | up | down | upDown | downUp | random
  deriving DecidableEq, Repr

namespace Mode

def all : List Mode :=
  [up, down, upDown, downUp, random]

def name : Mode → String
  | up => "up"
  | down => "down"
  | upDown => "updown"
  | downUp => "downup"
  | random => "random"

def ofName? (s : String) : Option Mode :=
  all.find? (·.name = s)

end Mode

/-- All tones in ascending order. -/
def ascending (count : Nat) : List Int :=
  (List.range count).map fun (i : Nat) => (i : Int) + 1

/-- What lies between the first and the last member. -/
def inner {β : Type} (xs : List β) : List β :=
  xs.tail.dropLast

/-- One round of a mode that knows no chance. The tones at which the direction turns are played once. -/
def Mode.round (tones : List Int) : Mode → List Int
  | up | random => tones
  | down => tones.reverse
  | upDown => tones ++ (inner tones).reverse
  | downUp => tones.reverse ++ inner tones

/-- The first `count` members of an order that is repeated as often as it takes. -/
def cycle {β : Type} (order : List β) (count : Nat) : Outcome (List β) :=
  (List.range count).mapM fun (i : Nat) =>
    match order[i % order.length]? with
    | some x => .ok x
    | none => .error .divisionByZero

/-- The order of a mode over `count` tones: one round, or as many tones as `steps` says. A random
order draws every tone by itself. -/
def Mode.order (count : Nat) (steps : Option Int) (m : Mode) : Draw (List Int) :=
  let tones := ascending count
  let wanted := steps.filter (· ≠ 0)
  match m with
  | .random =>
    (List.range ((wanted.getD count).toNat)).mapM fun _ => Draw.choice tones
  | _ =>
    let round := m.round tones
    match wanted with
    | some n => liftM (cycle round n.toNat)
    | none => return round

variable {α : Type} [Scalar α]

/-- The mode that a raw value names. -/
def Mode.ofValue? : Value α → Option Mode
  | .text s => ofName? s
  | _ => none

/-- The order of the mode that a raw value names, over a chord and its copies in the octaves above. -/
def indices (toneCount : Int) (mode : Value α) (octaves : Int) (steps : Option Int) :
    Draw (List Int) :=
  if octaves < 1 then throw (.rejected (.arpeggioOctaves octaves))
  else
    match Mode.ofValue? mode with
    | some m => m.order (toneCount * octaves).toNat steps
    | none =>
      throw (.rejected (.unknownName .arpeggioMode mode.shown (Mode.all.map Mode.name)))

end Partitura.Arpeggio

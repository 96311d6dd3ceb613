import Partitura.Number.Checked
import Partitura.Text.Quoted

/-!
# Grooves

A groove gives notes a feel: it moves every note by an offset that depends on the part of the beat in
which the note falls, and may change its velocity as well. Swing delays every other subdivision of the
beat. Neither knows chance.
-/

namespace Partitura

structure Groove (α : Type) where
  /-- Beats by which the notes of each slot are late, or early when negative. -/
  offsets : List α
  /-- The length of a slot in beats. -/
  grid : α
  /-- What the velocities in each slot are multiplied by. -/
  velocities : Option (List α)
  description : String := ""

variable {α : Type} [Scalar α]

namespace Groove

/-- Slots of a sixteenth. -/
def standardGrid : α :=
  0.25

def template (offsets velocities : List α) (description : String) : Groove α :=
  { offsets, grid := standardGrid, velocities := some velocities, description }

/-- The grooves by name, in the order messages list them. -/
def templates (α : Type) [Scalar α] : List (String × Groove α) :=
  [("straight", template [0.0, 0.0, 0.0, 0.0] [1.0, 0.8, 0.9, 0.8]
      "Quantized, metronomic timing"),
   ("shuffle", template [0.0, 0.08, 0.0, 0.08] [1.0, 0.7, 0.9, 0.7]
      "Classic swing feel with delayed offbeats"),
   ("funk", template [0.0, -0.02, 0.02, -0.01] [1.0, 0.9, 0.85, 0.95]
      "Tight, slightly pushed 16ths"),
   ("laid_back", template [0.03, 0.03, 0.03, 0.03] [1.0, 0.85, 0.9, 0.85]
      "Everything a touch behind the beat"),
   ("pushed", template [-0.02, -0.02, -0.02, -0.02] [1.0, 0.9, 0.95, 0.9]
      "Everything a touch ahead of the beat"),
   ("hip_hop", template [0.0, 0.05, 0.0, 0.07] [1.0, 0.75, 0.9, 0.8]
      "Lazy boom-bap swing"),
   ("dilla", template [0.0, 0.06, -0.02, 0.09] [1.0, 0.7, 0.85, 0.65]
      "Drunk, unquantized pocket"),
   ("reggae", template [0.0, 0.04, 0.0, 0.06] [0.7, 0.9, 1.0, 0.8]
      "Offbeat emphasis"),
   ("dnb", template [0.0, -0.01, 0.01, -0.01] [1.0, 0.6, 0.85, 0.55]
      "Tight breakbeat timing"),
   ("trap", template [0.0, 0.02, 0.0, 0.03] [1.0, 0.65, 0.9, 0.6]
      "Rolling hats with a slight drag"),
   ("gospel", template [0.0, 0.04, 0.0, 0.05] [0.9, 1.0, 0.85, 0.95]
      "Church feel with strong backbeat"),
   ("new_orleans", template [0.0, 0.07, 0.02, 0.05] [1.0, 0.8, 0.9, 0.85]
      "Second-line shuffle"),
   ("bossa", template [0.0, 0.03, 0.0, 0.04] [1.0, 0.75, 0.85, 0.8]
      "Gentle Brazilian sway"),
   ("afrobeat", template [0.0, 0.02, 0.04, 0.01] [1.0, 0.85, 0.9, 0.8]
      "Interlocking polyrhythmic push")]

def ofName? (name : String) : Option (Groove α) :=
  (templates α).lookup name

def ofName (name : String) : Outcome (Groove α) :=
  match ofName? name with
  | some g => .ok g
  | none =>
    .error (.rejected (.unknownName .groove (Text.quoted name) ((templates α).map (·.1))))

/-- The part of a position that lies within its beat. -/
def withinBeat (beat : α) : Outcome α :=
  match Scalar.magnitude beat with
  | .finite r => .ok (beat - Scalar.ofInt r.floor)
  | _ => .ok Scalar.undefined

/-- The member of a list at a place that wraps around its length. -/
def cyclic (xs : List α) (i : Int) : Outcome α :=
  if xs.isEmpty then .error .divisionByZero
  else .ok (xs.getD (i % (xs.length : Int)).toNat 0)

/-- The slot of the beat that a position falls in. A hair is added so that a position computed a
little short of a slot still falls in it. -/
def slot (g : Groove α) (beat : α) : Outcome Int := do
  floorOf ((← divide (← withinBeat beat) g.grid) + 1e-9)

/-- What a velocity in a slot is multiplied by, if the groove says so. -/
def factor? (g : Groove α) (slot : Int) : Outcome (Option α) :=
  match g.velocities with
  | some (v :: vs) => some <$> cyclic (v :: vs) slot
  | _ => .ok none

/-- Moves a note by the offset of its slot and scales its velocity. -/
def shift (g : Groove α) (beat velocity : α) : Outcome (α × α) := do
  let slot ← g.slot beat
  let offset ← cyclic g.offsets slot
  match ← g.factor? slot with
  | some f => return (beat + offset, velocity * f)
  | none => return (beat + offset, velocity)

end Groove

/-- Delays the notes on odd subdivisions of the beat, by a third of one when the amount is 1. -/
def applySwing (beat amount division : α) : Outcome α := do
  if amount == 0 then return beat
  let part ← floorOf (← divide (← Groove.withinBeat beat) division)
  return if part % 2 = 1 then beat + division / 3.0 * amount else beat

end Partitura

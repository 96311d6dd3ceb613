import Partitura.Random.Twister
import Partitura.Random.Weight

/-!
# Random draws

What is drawn from a stream: a scalar of the unit interval, a scalar between two others, a member of
a list, an option by its weight.
-/

namespace Partitura

/-- A computation that draws from a stream. What it has drawn stays drawn when it fails. -/
abbrev Draw :=
  ExceptT Fault (StateM Twister)

namespace Draw

variable {α β : Type} [Scalar α]

/-- What a stream gives next. -/
def ofStream (f : Twister → β × Twister) : Draw β :=
  ExceptT.lift f

/-- What a computation comes to on a stream, and what is left of the stream if it comes to
something. -/
def outcome (d : Draw β) (t : Twister) : Outcome (β × Twister) :=
  match ExceptT.run d t with
  | (.ok x, t) => .ok (x, t)
  | (.error why, _) => .error why

/-- The scalar of the unit interval that two words stand for: 27 bits of the first and 26 of the
second. -/
def unitOf (a b : UInt32) : α :=
  let high : α := Scalar.ofNat (a >>> 5).toNat
  let low : α := Scalar.ofNat (b >>> 6).toNat
  (high * 67108864.0 + low) / 9007199254740992.0

/-- A scalar from 0 up to, but not including, 1. -/
def unit : Draw α := do
  let a ← ofStream Twister.next
  let b ← ofStream Twister.next
  return unitOf a b

/-- A scalar between `low` and `high`. -/
def uniform (low high : α) : Draw α := do
  return low + (high - low) * (← unit)

/-- A member of a list. -/
def choice (xs : List β) : Draw β := do
  if xs.isEmpty then throw .emptyChoice
  let i ← ofStream (·.below xs.length)
  match xs[i]? with
  | some x => return x
  | none => throw .emptyChoice

/-- The option whose part of the unit interval holds `roll`, given the total of the weights before;
none if the roll lies above all of them. Weights after that option are not counted. -/
def optionAt? (roll : α) : α → List (β × Weight α) → Outcome (Option β)
  | _, [] => .ok none
  | total, (x, w) :: rest => do
    let total := total + (← w.toScalar)
    if roll < total then return some x
    optionAt? roll total rest

/-- An option by its weight. The first one stands in when rounding leaves the draw above the sum of
all. -/
def weighted (options : List (β × Weight α)) : Draw β := do
  match options with
  | [] => throw (.rejected .noOptions)
  | (first, _) :: _ =>
    let roll : α ← unit
    return (← optionAt? roll 0.0 options).getD first

end Draw

end Partitura

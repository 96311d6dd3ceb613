import Partitura.Number.Decimal
import Partitura.Document.Value
import Partitura.Random.Draw
import Partitura.Text.Quoted

/-!
# Transition tables

A table gives each state the states that may follow it, each with its weight, which should add up to
one. A walk goes from state to state; in a state with no row, or an empty one, it stays without
drawing.
-/

namespace Partitura.Markov

/-- The states that may follow one, with their weights. -/
abbrev Row (α : Type) :=
  List (String × Weight α)

abbrev Table (α : Type) :=
  List (String × Row α)

/-- The state that stands for silence. -/
def rest : String :=
  "rest"

/-- The state that leads into the next one from a semitone below. -/
def approach : String :=
  "approach"

variable {α : Type} [Scalar α]

namespace Row

def weights (r : Row α) : List (Weight α) :=
  r.map (·.2)

/-- The row scaled to a sum of 1. A row of weight zero becomes even. -/
def normalize (r : Row α) : Outcome (Row α) := do
  let shares ← Weight.shares (weights r)
  return (r.map (·.1)).zip (shares.map .real)

/-- How far the sum of a row may be from 1. -/
def tolerance : α :=
  0.01

/-- What is wrong with the row of a state in a table over some states. -/
def problems (states : List String) (state : String) (r : Row α) : Outcome (List String) := do
  let total ← (← Weight.sum (weights r)).toScalar
  let sum : List String :=
    if tolerance < Scalar.abs (total - 1.0) then
      ["Transitions from state " ++ Text.quoted state ++ " sum to " ++ Scalar.fixed 3 total
        ++ ", should be 1.0"]
    else []
  let strangers := r.filter fun (t, _) => !states.contains t && t != rest && t != approach
  return sum ++ strangers.map fun (t, _) =>
    "State " ++ Text.quoted state ++ " has a transition to unknown state " ++ Text.quoted t

end Row

namespace Table

def normalize (t : Table α) : Outcome (Table α) :=
  t.mapM fun (s, r) => do return (s, ← Row.normalize r)

/-- The states that a table has no row for, as problems. -/
def missingRows (states : List String) (t : Table α) : List String :=
  (states.filter fun s => (t.lookup s).isNone).map fun s =>
    "State " ++ Text.quoted s ++ " has no outgoing transitions"

/-- What is wrong with a table over some states. -/
def problems (states : List String) (t : Table α) : Outcome (List String) := do
  return (← t.mapM fun (s, r) => Row.problems states s r).flatten ++ missingRows states t

/-- The state after one step. -/
def step (t : Table α) (state : String) : Draw String :=
  match t.lookup state with
  | some (o :: os) => Draw.weighted (o :: os)
  | _ => return state

/-- The next `count` states. -/
def steps (t : Table α) (state : String) : Nat → Draw (List String)
  | 0 => return []
  | count + 1 => do
    let next ← t.step state
    return next :: (← steps t next count)

/-- A walk of `length` states from `state` on, itself included. -/
def walk (t : Table α) (state : String) (length : Int) : Draw (List String) :=
  if length ≤ 0 then return []
  else do return state :: (← t.steps state (length - 1).toNat)

end Table

/-! ## Walks under way -/

/-- A table and the state that a walk over it has come to. -/
structure Chain (α : Type) where
  table : Table α
  state : String

namespace Chain

/-- A walk that begins in a given state or in the first one of the table, which must not be empty. -/
def start (table : Table α) (initial : Option String) : Outcome (Chain α) :=
  match table with
  | [] => .error (.rejected .noTransitions)
  | (first, _) :: _ => .ok { table, state := initial.getD first }

/-- Goes on by one step. -/
def step (c : Chain α) : Draw (Chain α) := do
  return { c with state := ← c.table.step c.state }

/-- Goes on until `length` states have been visited, the present one included, and gives them. -/
def walk (c : Chain α) (length : Int) : Draw (List String × Chain α) := do
  let states ← c.table.walk c.state length
  return (states, { c with state := states.getLast?.getD c.state })

end Chain

end Partitura.Markov

import Partitura.Document.Value
import Partitura.Number.Checked

/-!
# What a field is expected to hold

Readers for the values of single fields. Each takes the path of the field, which its fault names.
-/

namespace Partitura.Expect

variable {α : Type} [Scalar α]

def malformed {β : Type} (why : Malformation) : Outcome β :=
  .error (.malformed why)

/-- The value of a field, a missing one counting as null. -/
def orNull (v : Option (Value α)) : Value α :=
  v.getD .null

/-- The value of a field, or a standard value when it counts as false. -/
def orElse (v : Option (Value α)) (standard : Value α) : Value α :=
  match v with
  | some v => if v.truthy then v else standard
  | none => standard

def mapping (path : String) : Value α → Outcome (Fields α)
  | .mapping fields => .ok fields
  | v => malformed (.notMapping path v.kind)

/-- A number of either kind, as a scalar. -/
def number (path : String) : Value α → Outcome α
  | .int n => scalarOf n
  | .real x => .ok x
  | v => malformed (.notNumber path v.shown)

def optionalNumber (path : String) : Value α → Outcome (Option α)
  | .null => .ok none
  | v => some <$> number path v

def whole (path : String) : Value α → Outcome Int
  | .int n => .ok n
  | v => malformed (.notWholeNumber path v.shown)

def optionalWhole (path : String) : Value α → Outcome (Option Int)
  | .null => .ok none
  | v => some <$> whole path v

def atLeast (minimum : Int) (path : String) (n : Int) : Outcome Int :=
  if n < minimum then malformed (.belowMinimum path minimum n) else .ok n

def string (path : String) : Value α → Outcome String
  | .text s => .ok s
  | v => malformed (.notString path v.shown)

/-- The path of the `i`-th item of a list. -/
def item (path : String) (i : Nat) : String :=
  path ++ "[" ++ toString i ++ "]"

/-- Reads the items of a list one by one, each with its place. -/
def each {β γ : Type} (read : Nat → β → Outcome γ) (xs : List β) : Outcome (List γ) :=
  xs.zipIdx.mapM fun (x, i) => read i x

/-- A list of texts, or one text alone. -/
def strings (path : String) : Value α → Outcome (List String)
  | .text s => .ok [s]
  | .list vs => each (fun i v => string (item path i) v) vs
  | _ => malformed (.notStrings path)

end Partitura.Expect

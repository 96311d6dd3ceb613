import Partitura.Number.Scalar
import Partitura.Text.Quoted
import Partitura.Fault

/-!
# Raw values

A score document before it is read: nested lists and mappings of texts, numbers and flags. Whole
numbers and scalars are kept apart, and a mapping keeps the order in which its fields are written.

Values are shown inside messages in one fixed form (`shown`, and `plain` where a text is not
quoted), and count as true or false where a field is a flag.
-/

namespace Partitura

/-! ## Ordered mappings

A mapping whose keys keep the order in which they were first written, as a list of pairs.
-/

namespace Ordered

variable {κ β : Type} [BEq κ]

/-- Gives a key its value. A key that is there already keeps its place. -/
def put : List (κ × β) → κ → β → List (κ × β)
  | [], k, v => [(k, v)]
  | (k', v') :: rest, k, v => if k' == k then (k', v) :: rest else (k', v') :: put rest k v

/-- The mapping of pairs written one after the other. -/
def ofPairs (pairs : List (κ × β)) : List (κ × β) :=
  pairs.foldl (fun m (k, v) => put m k v) []

/-- A list without repetitions, in the order of first appearance. -/
def distinct (keys : List κ) : List κ :=
  keys.foldl (fun seen k => if seen.contains k then seen else seen ++ [k]) []

end Ordered

/-! ## Values -/

inductive Value (α : Type) where
  | null
  | bool (b : Bool)
  | int (n : Int)
  | real (x : α)
  | text (s : String)
  | list (items : List (Value α))
  | mapping (fields : List (String × Value α))
  deriving Inhabited

namespace Value

variable {α : Type}

/-- The name of a value's kind in messages. -/
def kind : Value α → String
  | null => "NoneType"
  | bool _ => "bool"
  | int _ => "int"
  | real _ => "float"
  | text _ => "str"
  | list _ => "list"
  | mapping _ => "dict"

section Shown

variable [Scalar α]

mutual

/-- A value as messages show it, texts in quotes. -/
def shown : Value α → String
  | null => "None"
  | bool b => if b then "True" else "False"
  | int n => toString n
  | real x => Scalar.shortest x
  | text s => Text.quoted s
  | list items => "[" ++ ", ".intercalate (shownItems items) ++ "]"
  | mapping fields => "\x7b" ++ ", ".intercalate (shownFields fields) ++ "\x7d"

def shownItems : List (Value α) → List String
  | [] => []
  | v :: rest => shown v :: shownItems rest

def shownFields : List (String × Value α) → List String
  | [] => []
  | (k, v) :: rest => (Text.quoted k ++ ": " ++ shown v) :: shownFields rest

end

/-- A value as plain text: a text stands for itself. -/
def plain : Value α → String
  | text s => s
  | v => shown v

/-- Whether a value counts as true: numbers other than zero, and whatever is not empty. -/
def truthy : Value α → Bool
  | null => false
  | bool b => b
  | int n => n != 0
  | real x => !(x == 0)
  | text s => !s.isEmpty
  | list items => !items.isEmpty
  | mapping fields => !fields.isEmpty

end Shown

def isNull : Value α → Bool
  | null => true
  | _ => false

/-- Whether a mapping can be asked for a value as one of its names. -/
def isKey : Value α → Bool
  | list _ | mapping _ => false
  | _ => true

/-- What a number stands for; flags are the numbers 0 and 1. -/
def magnitude? [Scalar α] : Value α → Option Magnitude
  | bool b => some (.finite (if b then 1 else 0))
  | int n => some (.finite n)
  | real x => some (Scalar.magnitude x)
  | _ => none

/-- Whether two values are the same name in a mapping. Numbers are if they stand for the same number,
and a text is never the same as what it shows. -/
def sameName [Scalar α] : Value α → Value α → Bool
  | null, null => true
  | text s, text t => s == t
  | v, w => v.magnitude?.isSome && v.magnitude? = w.magnitude?

/-- What a value is made of when it is read item by item: a text of its characters, a mapping of its
field names. Other values have no items. -/
def items : Value α → Outcome (List (Value α))
  | text s => .ok (s.toList.map fun c => text (String.singleton c))
  | list vs => .ok vs
  | mapping fields => .ok (fields.map fun (k, _) => text k)
  | _ => .error .wrongKind

end Value

/-- The fields of a mapping, in the order written. -/
abbrev Fields (α : Type) :=
  List (String × Value α)

namespace Fields

variable {α : Type}

/-- The value of the field of exactly this name. -/
def get? (fields : Fields α) (name : String) : Option (Value α) :=
  fields.lookup name

/-- `name` in snake case: each capital becomes an underscore and its small letter. -/
def snakeCase (name : String) : String :=
  String.ofList (name.toList.flatMap fun c => if c.isUpper then ['_', c.toLower] else [c])

/-- The value of a field whose name may be written in snake case or in camel case. A field of
exactly this name wins, even if it comes later. -/
def find? (fields : Fields α) (name : String) : Option (Value α) :=
  match fields.get? name with
  | some v => some v
  | none => (List.find? (fun (k, _) => snakeCase k = name) fields).map (·.2)

end Fields

end Partitura

import Partitura.Performance.Groove
import Partitura.Score.Basic
import Partitura.Session

/-!
# How a track is played

A performance says how freely a track is played, in which groove and how evenly. A track says so
itself or names a style of expression, and what it says itself wins.

Names of styles and grooves are kept as they were written. One that no table holds is reported and
has no effect.
-/

namespace Partitura

/-! ## Styles of expression

A style bundles how freely a part is played with the groove it has and with how much its loudness
varies.
-/

structure Expression (α : Type) where
  humanize : α
  groove : String
  velocityVariance : α
  description : String := ""

namespace Expression

variable {α : Type} [Scalar α]

/-- The styles by name, in the order messages list them. -/
def presets (α : Type) [Scalar α] : List (String × Expression α) :=
  [("mechanical", ⟨0.0, "straight", 0.0, "Quantized, robotic - no humanization"⟩),
   ("tight", ⟨0.01, "straight", 0.02, "Clean, professional studio performance"⟩),
   ("natural", ⟨0.03, "straight", 0.05, "Human but controlled, slight variations"⟩),
   ("romantic", ⟨0.04, "laid_back", 0.08, "Expressive, rubato-like, laid back feel"⟩),
   ("jazzy", ⟨0.03, "dilla", 0.1, "Loose, swung, Dilla-inspired groove"⟩),
   ("funk", ⟨0.02, "funk", 0.06, "Tight pocket with funky timing"⟩),
   ("gospel", ⟨0.03, "gospel", 0.08, "Church feel with strong backbeat"⟩),
   ("aggressive", ⟨0.01, "pushed", 0.04, "Forward, driving, slightly ahead of beat"⟩)]

def ofName? (name : String) : Option (Expression α) :=
  (presets α).lookup name

def ofName (name : String) : Outcome (Expression α) :=
  match ofName? name with
  | some e => .ok e
  | none =>
    .error (.rejected (.unknownName .expression (Text.quoted name) ((presets α).map (·.1))))

end Expression

/-! ## Performances -/

structure Performance (α : Type) where
  humanize : α
  /-- The name of a groove as written, or null. -/
  groove : Value α := .null
  velocityVariance : α

variable {α : Type} [Scalar α]

/-- Looks a raw name up. A value that is no text is no name in any table, and one that holds others
cannot even be looked for. -/
def lookUpName {β : Type} (find : String → Outcome β) (catalogue : Catalogue)
    (available : List String) : Value α → Outcome β
  | .text name => find name
  | .list _ | .mapping _ => .error .wrongKind
  | v => .error (.rejected (.unknownName catalogue v.shown available))

/-- What an outcome holds. A rejection leaves nothing but a warning. -/
def Run.orWarn {β : Type} : Outcome β → Run (Option β)
  | .ok x => return some x
  | .error (.rejected why) => do
    Run.warn why.message
    return none
  | .error why => throw why

/-- The value that a raw name stands for, if there is a name. An unknown one is reported. -/
def Run.named? {β : Type} (find : Value α → Outcome β) (name : Value α) : Run (Option β) :=
  if name.isNull then return none else Run.orWarn (find name)

def Groove.ofValue (v : Value α) : Outcome (Groove α) :=
  lookUpName Groove.ofName .groove ((Groove.templates α).map (·.1)) v

def Expression.ofValue (v : Value α) : Outcome (Expression α) :=
  lookUpName Expression.ofName .expression ((Expression.presets α).map (·.1)) v

/-- The performance of a track in a style, if it has one. -/
def Track.performanceIn (t : Track α) (style : Option (Expression α)) : Performance α :=
  { humanize := t.humanize.getD ((style.map (·.humanize)).getD 0.0)
    groove :=
      if t.groove.isNull then
        match style with
        | some e => .text e.groove
        | none => .null
      else t.groove
    velocityVariance := (style.map (·.velocityVariance)).getD 0.0 }

/-- How a track is played. -/
def Track.performance (t : Track α) : Run (Performance α) := do
  return t.performanceIn (← Run.named? Expression.ofValue t.expression)

end Partitura

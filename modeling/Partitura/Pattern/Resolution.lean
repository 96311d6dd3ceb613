import Partitura.Melody.Transform
import Partitura.Phrase.Context
import Partitura.Session

/-!
# Resolving references

A pattern that refers to others is turned into a base pattern before it is played: a condition chooses
one of two patterns, an extension is merged onto its parent, a transform changes the notes of its
source. What is referred to is resolved first, so references may follow each other; a chain that is
too long, as any that leads back to itself, stops with a fault.

A pattern that is not there leaves nothing to play and a warning.
-/

namespace Partitura

variable {α : Type} [Scalar α]

/-! ## Conditions -/

/-- The density that a condition sees in a section without one. -/
def standardDensity : α :=
  0.5

/-- What the condition of a pattern compares. An unknown one counts as zero. -/
def conditionValue (c : Context α) (condition : String) : Run α :=
  match condition with
  | "density" => return c.density.getD standardDensity
  | "probability" => Run.ofDraw Draw.unit
  | "section_index" => liftM (scalarOf c.sectionIndex : Outcome α)
  | _ => do
    Run.warn ("Unknown condition " ++ Text.quoted condition ++ ", treating its value as 0")
    return 0.0

/-- The comparison of a name. -/
def comparison? (operator : String) : Option (α → α → Bool) :=
  match operator with
  | ">" => some fun x y => decide (y < x)
  | "<" => some fun x y => decide (x < y)
  | ">=" => some fun x y => decide (y ≤ x)
  | "<=" => some fun x y => decide (x ≤ y)
  | "==" => some fun x y => x == y
  | "!=" => some fun x y => !(x == y)
  | _ => none

/-- Whether the condition of a pattern holds. With an unknown comparison it does not. -/
def conditionHolds (c : Context α) (p : Conditional α) : Run Bool := do
  let left ← conditionValue c p.condition
  match comparison? p.operator with
  | some compare => return compare left p.value
  | none =>
    Run.warn ("Unknown conditional operator " ++ Text.quoted p.operator)
    return false

/-- The raw name of the pattern that a condition selects. -/
def selectName (c : Context α) (p : Conditional α) : Run (Value α) := do
  if ← conditionHolds c p then return .text p.thenName
  return if p.elseName.truthy then p.elseName else .text p.thenName

/-- The pattern of a raw name. Only a text can be the name of one. -/
def patternOf? (c : Context α) : Value α → Outcome (Option (Pattern α))
  | .text s => .ok (c.pattern? s)
  | .list _ | .mapping _ => .error .wrongKind
  | .null | .bool _ | .int _ | .real _ => .ok none

/-! ## Merging -/

/-- Replaces the notes of a base pattern by others. What is not a notes pattern becomes one. -/
def BasePattern.withNotes (b : BasePattern α) (notes : List String) : BasePattern α :=
  { b with content := .notes notes }

def BasePattern.notes? (b : BasePattern α) : Option (List String) :=
  match b.content with
  | .notes ns => some ns
  | _ => none

/-- Moves notes by semitones and then by octaves, each only if it is a move. -/
def shiftNotes (α : Type) [Scalar α] (transpose octave : Int) (notes : List String) :
    Outcome (List String) := do
  let notes ← if transpose = 0 then pure notes else Melody.transpose α notes transpose
  if octave = 0 then return notes else Melody.transpose α notes (octave * octaveSize)

/-- A finish with what an extension says in place of it. -/
def Inheritance.finish (i : Inheritance α) (f : Finish α) : Finish α :=
  { velocity := i.velocity.or f.velocity
    envelope := i.envelope.or f.envelope
    constrainToScale := i.constrainToScale.getD f.constrainToScale }

/-- Merges an extension onto its resolved parent. -/
def Inheritance.merge (i : Inheritance α) (parent : BasePattern α) : Run (BasePattern α) := do
  let merged :=
    match i.notes with
    | some notes => parent.withNotes notes
    | none => parent
  match merged.notes? with
  | some notes =>
    let notes ← shiftNotes α i.transpose i.octave notes
    return { content := .notes notes, finish := i.finish merged.finish }
  | none =>
    if i.transpose ≠ 0 ∨ i.octave ≠ 0 then
      Run.warn ("Pattern inheritance: transpose/octave overrides on \"" ++ i.parent
        ++ "\" need a notes pattern and were ignored")
    return { merged with finish := i.finish merged.finish }

/-- The names of the transforms that a pattern may name. -/
def transformNames : List String :=
  ["invert", "retrograde", "augment", "diminish", "transpose", "octave"]

/-- The notes of a transform's source after the transform. An unknown one changes nothing. -/
def Transformation.notes (t : Transformation α) (notes : List String) : Run (List String) :=
  if transformNames.contains t.operation then
    liftM (Melody.transform notes t.operation t.params)
  else do
    Run.warn ("Unknown transform operation " ++ Text.quoted t.operation
      ++ "; using the notes of \"" ++ t.source ++ "\" unchanged")
    return notes

/-- The finish of a transform over that of its source. -/
def Transformation.finishOver (t : Transformation α) (f : Finish α) : Finish α :=
  { velocity := t.finish.velocity.or f.velocity
    envelope := t.finish.envelope.or f.envelope
    constrainToScale := t.finish.constrainToScale || f.constrainToScale }

/-- Applies a transform to its resolved source, which must be a notes pattern. -/
def Transformation.apply (t : Transformation α) (source : BasePattern α) :
    Run (Option (BasePattern α)) :=
  match source.notes? with
  | none => do
    Run.warn ("Transform on pattern \"" ++ t.source
      ++ "\" with no notes array - transforms only work on notes")
    return none
  | some notes => do
    let notes ← t.notes notes
    return some { content := .notes notes, finish := t.finishOver source.finish }

/-! ## Resolving -/

namespace Pattern

/-- Resolves a pattern along a chain of fewer than `depth` references. -/
def resolveWithin (c : Context α) : Nat → Pattern α → Run (Option (BasePattern α))
  | 0, _ => throw .tooDeep
  | _ + 1, base b => return some b
  | depth + 1, conditional p => do
    let name ← selectName c p
    match ← patternOf? c name with
    | none =>
      Run.warn ("Conditional pattern target \"" ++ name.plain ++ "\" not found")
      return none
    | some target => resolveWithin c depth target
  | depth + 1, inheritance i => do
    match c.pattern? i.parent with
    | none =>
      Run.warn ("Pattern inheritance: parent pattern \"" ++ i.parent ++ "\" not found")
      return none
    | some parent =>
      match ← resolveWithin c depth parent with
      | none => return none
      | some resolved => return some (← i.merge resolved)
  | depth + 1, transformation t => do
    match c.pattern? t.source with
    | none =>
      Run.warn ("Transform source pattern \"" ++ t.source ++ "\" not found")
      return none
    | some source =>
      match ← resolveWithin c depth source with
      | none => return none
      | some resolved => t.apply resolved

/-- Turns a pattern into a base pattern, if anything is left to play. -/
def resolve (c : Context α) (p : Pattern α) : Run (Option (BasePattern α)) :=
  p.resolveWithin c (maxReferenceDepth + 1)

/-- Resolves the pattern of a name. -/
def resolveName (c : Context α) (name : String) : Run (Option (BasePattern α)) :=
  match c.pattern? name with
  | some p => p.resolve c
  | none => do
    Run.warn ("Pattern \"" ++ name ++ "\" not found")
    return none

end Pattern

end Partitura

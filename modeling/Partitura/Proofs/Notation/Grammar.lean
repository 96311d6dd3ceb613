import Mathlib.Data.List.Basic
import Partitura.Notation.Token

/-!
# The grammar of a note

What a written note consists of, said without reading it from left to right: a `Spelling` names every
part of a note and every freedom in writing it, `chars` is the text that it writes, and `token` the
note that is meant. Nothing here looks ahead; that no two spellings of one text mean different notes
is a theorem about the reader, not part of the grammar.
-/

namespace Partitura

/-- The name of a dynamic, as it is written in a note. -/
def Dynamic.name : Dynamic → String
  | .ppp => "ppp"
  | .pp => "pp"
  | .p => "p"
  | .mp => "mp"
  | .mf => "mf"
  | .f => "f"
  | .ff => "ff"
  | .fff => "fff"

namespace Notation

/-! ## Numbers -/

/-- Digits of any script, at least one. -/
structure Digits where
  chars : Chars
  ne_nil : chars ≠ []
  isDigit : ∀ c ∈ chars, Text.isDigit c = true

def Digits.value (ds : Digits) : Nat :=
  Text.valueOf ds.chars

/-- A whole number with a sign. -/
def signed (negative : Bool) (n : Nat) : Int :=
  if negative then -n else n

/-- The octave of a note: one digit, after a minus sign or not. -/
structure ShortOctave where
  negative : Bool
  digit : Char
  isDigit : Text.isDigit digit = true

namespace ShortOctave

def chars (o : ShortOctave) : Chars :=
  if o.negative then ['-', o.digit] else [o.digit]

def value (o : ShortOctave) : Int :=
  signed o.negative (Text.valueOf [o.digit])

end ShortOctave

/-- A number of a velocity or a probability: digits or none, a point or none, and digits. -/
structure Figure where
  front : Chars
  point : Bool
  back : Digits
  isDigit : ∀ c ∈ front, Text.isDigit c = true

namespace Figure

def chars (f : Figure) : Chars :=
  f.front ++ (if f.point then '.' :: f.back.chars else f.back.chars)

/-- The number with the digits before and after its point told apart. -/
def decimal (f : Figure) : Decimal :=
  if f.point then ⟨f.front, f.back.chars⟩ else ⟨f.front ++ f.back.chars, []⟩

end Figure

/-- A velocity: a number or the name of a dynamic. -/
inductive Loudness where
  | figure (f : Figure)
  | dynamic (d : Dynamic)

namespace Loudness

def chars : Loudness → Chars
  | figure f => f.chars
  | dynamic d => d.name.toList

def level : Loudness → Level
  | figure f => .number f.decimal
  | dynamic d => .dynamic d

/-- The velocity that is meant. -/
def velocity {α : Type} [Scalar α] : Loudness → α
  | figure f => f.decimal.value
  | dynamic d => d.velocity

end Loudness

/-- Milliseconds: a sign, digits and the unit. -/
structure Shift where
  negative : Bool
  digits : Digits

namespace Shift

def chars (s : Shift) : Chars :=
  (if s.negative then '-' else '+') :: (s.digits.chars ++ ['m', 's'])

def value (s : Shift) : Int :=
  signed s.negative s.digits.value

end Shift

/-! ## Notes -/

/-- The characters of a part that may be missing. -/
def ifGiven {β : Type} (chars : β → Chars) : Option β → Chars
  | none => []
  | some x => chars x

/-- The mark of a glide, if there is one. -/
def glideMark (glide : Bool) : Chars :=
  if glide then ['~', '>'] else []

/-- One way to write one note. -/
structure Spelling where
  /-- Whether the letter is a small one. -/
  small : Bool
  letter : Letter
  accidental : Accidental
  octave : Option ShortOctave
  code : DurationCode
  dotted : Bool
  tuplet : Option Digits
  articulation : Articulation
  /-- Whether a glide is marked before the velocity. -/
  early : Bool
  loudness : Option Loudness
  shift : Option Shift
  probability : Option Figure
  /-- Whether a glide is marked at the end. -/
  late : Bool

namespace Spelling

def letterChar (s : Spelling) : Char :=
  if s.small then s.letter.char.toLower else s.letter.char

/-- The text of the note. -/
def chars (s : Spelling) : Chars :=
  [s.letterChar] ++ s.accidental.chars ++ ifGiven ShortOctave.chars s.octave ++ [':'] ++
    s.code.text.toList ++ (if s.dotted then ['.'] else []) ++
    ifGiven (fun ds => 't' :: ds.chars) s.tuplet ++ s.articulation.text.toList ++
    glideMark s.early ++ ifGiven (fun l => '@' :: l.chars) s.loudness ++
    ifGiven Shift.chars s.shift ++ ifGiven (fun f => '?' :: f.chars) s.probability ++
    glideMark s.late

/-- The text is this note, blanks around it not counted. -/
def Writes (s : Spelling) (text : String) : Prop :=
  s.chars = Text.stripChars text.toList

instance (s : Spelling) (text : String) : Decidable (s.Writes text) :=
  inferInstanceAs (Decidable (s.chars = Text.stripChars text.toList))

variable {α : Type} [Scalar α]

/-- The note that is meant. -/
def token (s : Spelling) : NoteToken α where
  pitch := ⟨⟨s.letter, s.accidental⟩, (s.octave.map ShortOctave.value).getD defaultOctave⟩
  length := ⟨s.code, s.dotted⟩
  tuplet := s.tuplet.map Digits.value
  articulation := s.articulation
  glide := s.early || s.late
  velocity := s.loudness.map Loudness.velocity
  timing := s.shift.map Shift.value
  probability := s.probability.map (·.decimal.value)

/-- A number between 0 and 1. -/
def InUnit (x : α) : Prop :=
  ¬ x < 0.0 ∧ ¬ 1.0 < x

/-- The numbers of the note lie within their bounds. -/
structure Allowed (α : Type) [Scalar α] (s : Spelling) : Prop where
  tuplet : ∀ ds ∈ s.tuplet, 2 ≤ ds.value ∧ ds.value ≤ 9
  velocity : ∀ f, s.loudness = some (.figure f) → InUnit (f.decimal.value : α)
  probability : ∀ f ∈ s.probability, InUnit (f.decimal.value : α)

end Spelling

end Notation

end Partitura

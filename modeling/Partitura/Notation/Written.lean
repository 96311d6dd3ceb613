import Partitura.Notation.Articulation
import Partitura.Notation.Pitch

/-!
# The parts of a written note

One written note carries its pitch, its length and, optionally, how it is played:

    <letter>[#|b][octave]:<code>[.][tN][* ~ > ^][~>][@velocity][(+|-)Nms][?probability][~>]

A rest is `r:<code>[.]`. The parts of a note come in one order, and no part begins with a character
that could go on the part before it. So each part is read as far as it goes, and the only look
ahead is at `~`, which marks a legato unless `>` follows, when it begins a glide. Digits may be those
of any script.

Nothing is checked here but the shape: a code need not be known, nor a number within its bounds.
-/

namespace Partitura.Notation

abbrev Chars :=
  List Char

def spanDigits (cs : Chars) : Chars × Chars :=
  (cs.takeWhile Text.isDigit, cs.dropWhile Text.isDigit)

/-- A length code: a run of digits or one of the letters. It need not be a known code. -/
def readCode? (cs : Chars) : Option (Chars × Chars) :=
  match spanDigits cs with
  | ([], c :: rest) => if c = 'w' ∨ c = 'h' ∨ c = 'q' then some ([c], rest) else none
  | ([], []) => none
  | (ds, rest) => some (ds, rest)

def readDot : Chars → Bool × Chars
  | '.' :: rest => (true, rest)
  | cs => (false, cs)

/-- The octave of a note: one digit with an optional minus sign, or nothing. -/
def readShortOctave (cs : Chars) : Option Int × Chars :=
  match cs with
  | '-' :: d :: rest =>
    match Text.digit? d with
    | some n => (some (-(n : Int)), rest)
    | none => (none, cs)
  | d :: rest =>
    match Text.digit? d with
    | some n => (some n, rest)
    | none => (none, cs)
  | [] => (none, [])

/-- A tuplet mark `t<digits>`, or nothing. -/
def readTuplet (cs : Chars) : Option Nat × Chars :=
  match cs with
  | 't' :: rest =>
    match spanDigits rest with
    | ([], _) => (none, cs)
    | (ds, rest') => (some (Text.valueOf ds), rest')
  | _ => (none, cs)

/-- The mark of an articulation, unless it begins a glide. -/
def readArticulation (cs : Chars) : Articulation × Chars :=
  match cs with
  | '~' :: '>' :: _ => (.plain, cs)
  | c :: rest =>
    match Articulation.ofChar? c with
    | some a => (a, rest)
    | none => (.plain, cs)
  | [] => (.plain, [])

def readGlide : Chars → Bool × Chars
  | '~' :: '>' :: rest => (true, rest)
  | cs => (false, cs)

/-- A decimal as it is written: the digits before and after the point. -/
structure Decimal where
  whole : Chars
  fraction : Chars
  deriving DecidableEq

def Decimal.value {α : Type} [Scalar α] (d : Decimal) : α :=
  Scalar.ofDecimal (Text.valueOf (d.whole ++ d.fraction)) (-(d.fraction.length : Int))

/-- Digits with a point before or between them, but not after them. -/
def readDecimal? (cs : Chars) : Option (Decimal × Chars) :=
  let (whole, rest) := spanDigits cs
  match rest with
  | '.' :: rest' =>
    match spanDigits rest' with
    | ([], _) => if whole.isEmpty then none else some (⟨whole, []⟩, rest)
    | (fraction, rest'') => some (⟨whole, fraction⟩, rest'')
  | _ => if whole.isEmpty then none else some (⟨whole, []⟩, rest)

/-- The longest name of a dynamic at the head of a text. -/
def readDynamic? : Chars → Option (Dynamic × Chars)
  | 'p' :: 'p' :: 'p' :: rest => some (.ppp, rest)
  | 'p' :: 'p' :: rest => some (.pp, rest)
  | 'p' :: rest => some (.p, rest)
  | 'm' :: 'p' :: rest => some (.mp, rest)
  | 'm' :: 'f' :: rest => some (.mf, rest)
  | 'f' :: 'f' :: 'f' :: rest => some (.fff, rest)
  | 'f' :: 'f' :: rest => some (.ff, rest)
  | 'f' :: rest => some (.f, rest)
  | _ => none

/-- A velocity as it is written. -/
inductive Level where
  | number (d : Decimal)
  | dynamic (d : Dynamic)

/-- A velocity `@<number or dynamic>`, or nothing. -/
def readLevel (cs : Chars) : Option Level × Chars :=
  match cs with
  | '@' :: rest =>
    match readDecimal? rest, readDynamic? rest with
    | some (d, rest'), _ => (some (.number d), rest')
    | none, some (d, rest') => (some (.dynamic d), rest')
    | none, none => (none, cs)
  | _ => (none, cs)

/-- An offset `+<digits>ms` or `-<digits>ms`, or nothing. -/
def readTiming (cs : Chars) : Option Int × Chars :=
  let signed (negative : Bool) (rest : Chars) : Option Int × Chars :=
    match spanDigits rest with
    | ([], _) => (none, cs)
    | (ds, 'm' :: 's' :: rest') =>
      let n : Int := Text.valueOf ds
      (some (if negative then -n else n), rest')
    | _ => (none, cs)
  match cs with
  | '+' :: rest => signed false rest
  | '-' :: rest => signed true rest
  | _ => (none, cs)

/-- A probability `?<number>`, or nothing. -/
def readProbability (cs : Chars) : Option Decimal × Chars :=
  match cs with
  | '?' :: rest =>
    match readDecimal? rest with
    | some (d, rest') => (some d, rest')
    | none => (none, cs)
  | _ => (none, cs)

/-- The parts of a note as they are written, before any of them is checked. -/
structure Written where
  letter : Letter
  accidental : Accidental
  octave : Option Int
  code : Chars
  dotted : Bool
  tuplet : Option Nat
  articulation : Articulation
  glide : Bool
  level : Option Level
  timing : Option Int
  probability : Option Decimal

/-- Splits a note into its parts, if the whole text is one. -/
def split? (cs : Chars) : Option Written := do
  let l :: rest := cs | none
  let letter ← Letter.ofChar? l.toUpper
  let (accidental, rest) := Accidental.read rest
  let (octave, rest) := readShortOctave rest
  let ':' :: rest := rest | none
  let (code, rest) ← readCode? rest
  let (dotted, rest) := readDot rest
  let (tuplet, rest) := readTuplet rest
  let (articulation, rest) := readArticulation rest
  let (early, rest) := readGlide rest
  let (level, rest) := readLevel rest
  let (timing, rest) := readTiming rest
  let (probability, rest) := readProbability rest
  let (late, rest) := readGlide rest
  guard rest.isEmpty
  return { letter, accidental, octave, code, dotted, tuplet, articulation
           glide := early || late, level, timing, probability }

/-- The code and the dot of a rest. -/
def splitRest? (cs : Chars) : Option (Chars × Bool) :=
  match cs with
  | 'r' :: ':' :: rest | 'R' :: ':' :: rest => do
    let (code, rest) ← readCode? rest
    let (dotted, rest) := readDot rest
    guard rest.isEmpty
    return (code, dotted)
  | _ => none

end Partitura.Notation

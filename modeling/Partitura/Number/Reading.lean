import Partitura.Number.Scalar
import Partitura.Text.Character

/-!
# Reading numbers

The free form of a number, as people write it: blanks around it, a sign, digits of any script with
single underscores between them, a point anywhere, an exponent, or one of the words for infinity and
for no number. `readScalar?` reads a scalar of this form, `readInt?` a whole number.
-/

namespace Partitura.Decimal

/-- The sign at the head of a number. -/
def readSign : List Char → Bool × List Char
  | '-' :: rest => (true, rest)
  | '+' :: rest => (false, rest)
  | cs => (false, cs)

/-- Digits, where an underscore may stand between two of them: the digits and what follows. -/
def readGrouped : List Char → List Char × List Char
  | '_' :: c :: rest =>
    if Text.isDigit c then
      let (ds, rest') := readGrouped rest
      (c :: ds, rest')
    else ([], '_' :: c :: rest)
  | c :: rest =>
    if Text.isDigit c then
      let (ds, rest') := readGrouped rest
      (c :: ds, rest')
    else ([], c :: rest)
  | [] => ([], [])

/-- A run of digits. It begins with a digit, not with an underscore. -/
def readDigits (cs : List Char) : List Char × List Char :=
  match cs with
  | '_' :: _ => ([], cs)
  | _ => readGrouped cs

/-- The exponent at the end of a number, zero when there is none. -/
def readExponent? : List Char → Option Int
  | [] => some 0
  | c :: rest =>
    if c = 'e' ∨ c = 'E' then
      let (negative, rest) := readSign rest
      match readDigits rest with
      | ([], _) => none
      | (ds, []) =>
        let n : Int := Text.valueOf ds
        some (if negative then -n else n)
      | _ => none
    else none

variable {α : Type} [Scalar α]

/-- A number without a sign. -/
def readUnsigned? (cs : List Char) : Option α :=
  let word := cs.map Char.toLower
  if word = "inf".toList ∨ word = "infinity".toList then some (Scalar.infinite false)
  else if word = "nan".toList then some Scalar.undefined
  else
    let (whole, rest) := readDigits cs
    let (fraction, rest) : List Char × List Char :=
      match rest with
      | '.' :: rest => readDigits rest
      | rest => ([], rest)
    if whole.isEmpty && fraction.isEmpty then none
    else
      (readExponent? rest).map fun e =>
        Scalar.ofDecimal (Text.valueOf (whole ++ fraction)) (e - fraction.length)

/-- Reads a scalar. -/
def readScalar? (text : String) : Option α :=
  let (negative, rest) := readSign (Text.stripChars text.toList)
  (readUnsigned? rest).map fun x => if negative then -x else x

/-- Reads a whole number. -/
def readInt? (text : String) : Option Int :=
  let (negative, rest) := readSign (Text.stripChars text.toList)
  match readDigits rest with
  | ([], _) => none
  | (ds, []) =>
    let n : Int := Text.valueOf ds
    some (if negative then -n else n)
  | _ => none

end Partitura.Decimal

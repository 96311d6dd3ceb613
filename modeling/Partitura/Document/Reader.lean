import Partitura.Document.Value
import Partitura.Text.Character

/-!
# Reading a document

The text form of raw values: `null`, flags, numbers, texts in double quotes, lists in brackets and
mappings in braces. A number with a point or an exponent is a scalar, any other a whole number; what
stands for no number is written `Infinity`, `-Infinity` or `NaN`.
Nothing is sorted, so the fields of a mapping come in the order in which they are first written; one
that is written again has the value written last.

Each reader takes the characters that are left and gives back a value and what follows it. Values
nest no deeper than the text is long, which is the bound that the readers count down.
-/

namespace Partitura.Document

variable {α : Type}

abbrev Chars :=
  List Char

def isGap (c : Char) : Bool :=
  c = ' ' || c = '\t' || c = '\n' || c = '\r'

def skipGap (cs : Chars) : Chars :=
  cs.dropWhile isGap

/-- What follows `word`, if the text begins with it. -/
def dropWord? : List Char → Chars → Option Chars
  | [], cs => some cs
  | w :: ws, c :: cs => if c = w then dropWord? ws cs else none
  | _ :: _, [] => none

/-! ## Numbers -/

/-- The leading digits and what follows them. -/
def spanDigits (cs : Chars) : Chars × Chars :=
  (cs.takeWhile Char.isDigit, cs.dropWhile Char.isDigit)

/-- An exponent, zero when there is none. -/
def readExponent (cs : Chars) : Option (Bool × Int × Chars) :=
  match cs with
  | 'e' :: rest | 'E' :: rest =>
    let (negative, rest) : Bool × Chars :=
      match rest with
      | '-' :: r => (true, r)
      | '+' :: r => (false, r)
      | r => (false, r)
    let (ds, rest) := spanDigits rest
    if ds.isEmpty then none
    else
      let n : Int := Text.valueOf ds
      some (true, if negative then -n else n, rest)
  | _ => some (false, 0, cs)

/-- A number in digits, whose sign has been read. -/
def readDigits [Scalar α] (negative : Bool) (cs : Chars) : Option (Value α × Chars) := do
  let (whole, rest) := spanDigits cs
  if whole.isEmpty then none
  let (fraction, rest) : Option Chars × Chars :=
    match rest with
    | '.' :: r => (some (spanDigits r).1, (spanDigits r).2)
    | r => (none, r)
  if fraction = some [] then none
  let (hasExponent, e, rest) ← readExponent rest
  if fraction.isNone && !hasExponent then
    let n : Int := Text.valueOf whole
    return (.int (if negative then -n else n), rest)
  let places := fraction.getD []
  let x : α := Scalar.ofDecimal (Text.valueOf (whole ++ places)) (e - places.length)
  return (.real (if negative then -x else x), rest)

def readNumber [Scalar α] (cs : Chars) : Option (Value α × Chars) :=
  let (negative, cs) : Bool × Chars :=
    match cs with
    | '-' :: r => (true, r)
    | r => (false, r)
  match dropWord? "Infinity".toList cs with
  | some rest => some (.real (Scalar.infinite negative), rest)
  | none => readDigits negative cs

/-! ## Texts -/

def hexDigit? (c : Char) : Option Nat :=
  if c.isDigit then some (c.toNat - 48)
  else if 'a' ≤ c && c ≤ 'f' then some (c.toNat - 87)
  else if 'A' ≤ c && c ≤ 'F' then some (c.toNat - 55)
  else none

/-- Four hexadecimal digits. -/
def hexUnit? : Chars → Option (Nat × Chars)
  | a :: b :: c :: d :: rest => do
    let a ← hexDigit? a
    let b ← hexDigit? b
    let c ← hexDigit? c
    let d ← hexDigit? d
    some (((a * 16 + b) * 16 + c) * 16 + d, rest)
  | _ => none

/-- The character that a single letter after a backslash stands for. -/
def escaped? : Char → Option Char
  | '"' => some '"'
  | '\\' => some '\\'
  | '/' => some '/'
  | 'b' => some '\x08'
  | 'f' => some '\x0c'
  | 'n' => some '\n'
  | 'r' => some '\r'
  | 't' => some '\t'
  | _ => none

/-- The character written by a numeric escape; a high surrogate takes the low one after it along. -/
def readUnit (cs : Chars) : Option (Char × Chars) := do
  let (high, rest) ← hexUnit? cs
  if 0xD800 ≤ high && high < 0xDC00 then
    match rest with
    | '\\' :: 'u' :: rest' =>
      let (low, rest') ← hexUnit? rest'
      if 0xDC00 ≤ low && low < 0xE000 then
        some (Char.ofNat (0x10000 + (high - 0xD800) * 0x400 + (low - 0xDC00)), rest')
      else none
    | _ => none
  else some (Char.ofNat high, rest)

/-- The rest of a text after its opening quote; `done` holds its characters so far in reverse. -/
def readText : Nat → List Char → Chars → Option (String × Chars)
  | 0, _, _ => none
  | _ + 1, _, [] => none
  | fuel + 1, done, c :: rest =>
    if c = '"' then some (String.ofList done.reverse, rest)
    else if c = '\\' then
      match rest with
      | 'u' :: rest' =>
        match readUnit rest' with
        | some (u, rest'') => readText fuel (u :: done) rest''
        | none => none
      | e :: rest' =>
        match escaped? e with
        | some x => readText fuel (x :: done) rest'
        | none => none
      | [] => none
    else readText fuel (c :: done) rest

/-! ## Values -/

variable [Scalar α]

mutual

def readValue : Nat → Chars → Option (Value α × Chars)
  | 0, _ => none
  | fuel + 1, cs =>
    match skipGap cs with
    | '"' :: rest => (readText (rest.length + 1) [] rest).map fun (s, r) => (.text s, r)
    | '[' :: rest =>
      match skipGap rest with
      | ']' :: r => some (.list [], r)
      | r => readItems fuel [] r
    | '\x7b' :: rest =>
      match skipGap rest with
      | '\x7d' :: r => some (.mapping [], r)
      | r => readFields fuel [] r
    | 't' :: rest => (dropWord? ['r', 'u', 'e'] rest).map fun r => (.bool true, r)
    | 'f' :: rest => (dropWord? ['a', 'l', 's', 'e'] rest).map fun r => (.bool false, r)
    | 'n' :: rest => (dropWord? ['u', 'l', 'l'] rest).map fun r => (.null, r)
    | 'N' :: rest => (dropWord? ['a', 'N'] rest).map fun r => (.real Scalar.undefined, r)
    | rest => readNumber rest

/-- Items up to the closing bracket; `done` holds those already read in reverse. -/
def readItems : Nat → List (Value α) → Chars → Option (Value α × Chars)
  | 0, _, _ => none
  | fuel + 1, done, cs =>
    match readValue fuel cs with
    | none => none
    | some (v, rest) =>
      match skipGap rest with
      | ',' :: r => readItems fuel (v :: done) r
      | ']' :: r => some (.list (v :: done).reverse, r)
      | _ => none

/-- Fields up to the closing brace; `done` holds those already read. -/
def readFields : Nat → Fields α → Chars → Option (Value α × Chars)
  | 0, _, _ => none
  | fuel + 1, done, cs =>
    match skipGap cs with
    | '"' :: rest =>
      match readText (rest.length + 1) [] rest with
      | none => none
      | some (k, rest) =>
        match skipGap rest with
        | ':' :: rest =>
          match readValue fuel rest with
          | none => none
          | some (v, rest) =>
            match skipGap rest with
            | ',' :: r => readFields fuel (Ordered.put done k v) r
            | '\x7d' :: r => some (.mapping (Ordered.put done k v), r)
            | _ => none
        | _ => none
    | _ => none

end

/-- The value that a whole text writes. -/
def read? (text : String) : Option (Value α) :=
  let cs := text.toList
  match readValue (2 * cs.length + 2) cs with
  | some (v, rest) => if (skipGap rest).isEmpty then some v else none
  | none => none

end Partitura.Document

import Partitura.Fault
import Partitura.Text.Character

/-!
# Pitches

A pitch is written as a letter, perhaps a sharp or a flat, and an octave: `C#4`. Its number counts
semitones with `C4` at 60, so an accidental may lead out of the octave that is written: `Cb4` is 59.

Everything that sounds is named by a text. Such a text is either a pitch or a drum,
`drum:<name>@<kit>`; drums are moved by nothing.
-/

namespace Partitura

/-- Semitones in an octave. -/
def octaveSize : Int :=
  12

inductive Letter where
  | c | d | e | f | g | a | b
  deriving DecidableEq, Repr

namespace Letter

def all : List Letter :=
  [c, d, e, f, g, a, b]

def char : Letter → Char
  | c => 'C' | d => 'D' | e => 'E' | f => 'F' | g => 'G' | a => 'A' | b => 'B'

/-- Semitones above C. -/
def semitones : Letter → Int
  | c => 0 | d => 2 | e => 4 | f => 5 | g => 7 | a => 9 | b => 11

def ofChar? (x : Char) : Option Letter :=
  all.find? (·.char = x)

end Letter

inductive Accidental where
  | natural | sharp | flat
  deriving DecidableEq, Repr

namespace Accidental

def chars : Accidental → List Char
  | natural => []
  | sharp => ['#']
  | flat => ['b']

def text (a : Accidental) : String :=
  String.ofList a.chars

/-- Semitones added to the letter. -/
def shift : Accidental → Int
  | natural => 0
  | sharp => 1
  | flat => -1

/-- The accidental at the head of a text, and what follows it. -/
def read : List Char → Accidental × List Char
  | '#' :: rest => (sharp, rest)
  | 'b' :: rest => (flat, rest)
  | cs => (natural, cs)

end Accidental

/-- The name of a pitch without its octave. -/
structure PitchName where
  letter : Letter
  accidental : Accidental
  deriving DecidableEq, Repr

namespace PitchName

def text (n : PitchName) : String :=
  String.ofList (n.letter.char :: n.accidental.chars)

def semitones (n : PitchName) : Int :=
  n.letter.semitones + n.accidental.shift

/-- The pitch class, from 0 for C to 11. -/
def pitchClass (n : PitchName) : Int :=
  n.semitones % octaveSize

/-- A name with nothing after it. -/
def ofText? (s : String) : Option PitchName :=
  match s.toList with
  | l :: rest => do
    let letter ← Letter.ofChar? l
    match Accidental.read rest with
    | (accidental, []) => some ⟨letter, accidental⟩
    | _ => none
  | [] => none

/-- The names of the pitch classes, spelled with sharps. -/
def sharps : List PitchName :=
  [⟨.c, .natural⟩, ⟨.c, .sharp⟩, ⟨.d, .natural⟩, ⟨.d, .sharp⟩, ⟨.e, .natural⟩, ⟨.f, .natural⟩,
   ⟨.f, .sharp⟩, ⟨.g, .natural⟩, ⟨.g, .sharp⟩, ⟨.a, .natural⟩, ⟨.a, .sharp⟩, ⟨.b, .natural⟩]

/-- The sharp spelling of a pitch class. -/
def ofClass (pc : Int) : PitchName :=
  sharps.getD (pc % octaveSize).toNat ⟨.c, .natural⟩

end PitchName

structure Pitch where
  name : PitchName
  octave : Int
  deriving DecidableEq, Repr

namespace Pitch

def text (p : Pitch) : String :=
  p.name.text ++ toString p.octave

def midi (p : Pitch) : Int :=
  (p.octave + 1) * octaveSize + p.name.semitones

/-- The pitch of a number, spelled with sharps. -/
def ofMidi (n : Int) : Pitch :=
  { name := PitchName.ofClass n
    octave := n.fdiv octaveSize - 1 }

/-- A whole number in digits with an optional minus sign, and nothing after it but perhaps the end of
the line. -/
def readOctave? (cs : List Char) : Option Int :=
  let (negative, cs) : Bool × List Char :=
    match cs with
    | '-' :: rest => (true, rest)
    | rest => (false, rest)
  let ds := cs.takeWhile Text.isDigit
  let rest := cs.dropWhile Text.isDigit
  if ds.isEmpty then none
  else if rest = [] ∨ rest = ['\n'] then
    let n : Int := Text.valueOf ds
    some (if negative then -n else n)
  else none

/-- Reads a pitch with its octave. -/
def ofText? (s : String) : Option Pitch :=
  match s.toList with
  | l :: rest => do
    let letter ← Letter.ofChar? l
    let (accidental, rest) := Accidental.read rest
    let octave ← readOctave? rest
    some ⟨⟨letter, accidental⟩, octave⟩
  | [] => none

def parse (s : String) : Outcome Pitch :=
  match ofText? s with
  | some p => .ok p
  | none => .error (.misspelled (.pitch s))

/-- The number of a written pitch. -/
def midiOf (s : String) : Outcome Int := do
  return (← parse s).midi

/-- The sharp spelling of a number, as text. -/
def textOfMidi (n : Int) : String :=
  (ofMidi n).text

/-- Moves a written pitch by semitones. Without a move its spelling is kept, whatever it is. -/
def transposeText (s : String) (semitones : Int) : Outcome String :=
  if semitones = 0 then .ok s
  else do return textOfMidi ((← midiOf s) + semitones)

/-- Moves a written pitch by whole octaves, keeping its name. -/
def shiftOctaveText (s : String) (octaves : Int) : Outcome String :=
  if octaves = 0 then .ok s
  else do
    let p ← parse s
    return ({ p with octave := p.octave + octaves } : Pitch).text

end Pitch

/-- The pitch class of a written note name. -/
def PitchName.classOf (s : String) : Outcome Int :=
  match PitchName.ofText? s with
  | some n => .ok n.pitchClass
  | none => .error (.misspelled (.noteName s))

namespace Drum

/-- What the text of a drum begins with. -/
def marker : String :=
  "drum:"

/-- The text that names a drum of a kit. -/
def text (name kit : String) : String :=
  marker ++ name ++ "@" ++ kit

def isDrum (sounding : String) : Bool :=
  marker.toList.isPrefixOf sounding.toList

end Drum

end Partitura

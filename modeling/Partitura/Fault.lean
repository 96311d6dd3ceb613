import Partitura.Notation.Length
import Partitura.Text.Quoted

/-!
# Faults

Everything that can stop the library, by cause. Each cause carries what its message shows. `message`
is the wording of each cause that has one; faults of plain arithmetic and of values of a kind that an
operation cannot take have none.

`isInput` tells the faults that come from what the score says from those that come from how far it
reaches: only the former are reported to the user by name of section and track, together with
`tooDeep`.
-/

namespace Partitura

/-! ## Misspelled notation

Why a string of the notation (a note, a rest, a length, a pitch, a chord, a degree) could not be
read. Each reason carries what its message shows, and the text that is to blame.
-/

/-- The two numbers of a note that must lie between 0 and 1. -/
inductive UnitField where
  | velocity | probability
  deriving DecidableEq, Repr

def UnitField.name : UnitField → String
  | .velocity => "velocity"
  | .probability => "probability"

inductive Misspelling where
  | duration (code : String)
  | rest (text : String)
  | note (text : String)
  | tuplet (count : Nat) (text : String)
  | outsideUnit (field : UnitField) (shown text : String)
  | pitch (text : String)
  | noteName (text : String)
  | drumTime (text part : String)
  | chord (text : String)
  | degree (text : String)
  | degreeBelowOne (shown : String)
  | ratio (shown : String)
  deriving DecidableEq, Repr

namespace Misspelling

/-- The offending text. -/
def text : Misspelling → String
  | duration code => code
  | rest text | note text | tuplet _ text | outsideUnit _ _ text | pitch text | noteName text
  | drumTime text _ | chord text | degree text => text
  | degreeBelowOne shown | ratio shown => shown

def message : Misspelling → String
  | duration code =>
    "Invalid duration: " ++ Text.quoted code ++ ". Valid durations: "
      ++ ", ".intercalate (DurationCode.all.map DurationCode.text)
  | rest text =>
    "Invalid rest format: " ++ Text.quoted text ++ ". Expected r:<duration> (e.g. 'r:q', 'r:h.')"
  | note text =>
    "Invalid note format: " ++ Text.quoted text ++ ". Expected <pitch>[octave]:<duration>[.][tN]"
      ++ "[articulation][~>][@velocity][+/-Nms][?probability] "
      ++ "(e.g. 'C4:q', 'C4:q*', 'C4:q@0.8', 'C4:8t3')"
  | tuplet count text =>
    "Invalid tuplet ratio " ++ toString count ++ " in " ++ Text.quoted text
      ++ ". Must be 2-9 (t3 = triplet, t5 = quintuplet)"
  | outsideUnit field shown text =>
    "Invalid " ++ field.name ++ " " ++ shown ++ " in " ++ Text.quoted text ++ ". Must be 0.0-1.0"
  | pitch text => "Invalid pitch: " ++ Text.quoted text
  | noteName text => "Invalid note name: " ++ Text.quoted text
  | drumTime text part =>
    "Invalid drum time " ++ Text.quoted text ++ ": unknown part " ++ Text.quoted part
  | chord text =>
    "Invalid chord format: " ++ Text.quoted text
      ++ ". Expected <root><quality>[@voicing][/bass]:<duration>[articulation] "
      ++ "(e.g. 'Cmaj7:w', 'Dm:h', 'Am7:q*', 'Am9@drop2:w')"
  | degree text =>
    "Invalid degree: " ++ Text.quoted text
      ++ ". Expected <degree>[#|b][+|-][:<duration>] (e.g. '5', '7b', '3+:h')"
  | degreeBelowOne shown =>
    "Invalid scale degree: " ++ shown ++ ". Degrees start at 1"
  | ratio shown =>
    "Invalid tuplet ratio " ++ shown
      ++ ". Expected [actual, normal] with positive whole numbers (e.g. [3, 2])"

end Misspelling

/-! ## Malformed documents

Why a raw document is not a score: a value at some path has the wrong kind, is missing, or does not
go together with its neighbours. A value is carried as its message shows it.
-/

inductive Malformation where
  | notMapping (path kind : String)
  | notNumber (path shown : String)
  | notWholeNumber (path shown : String)
  | belowMinimum (path : String) (minimum value : Int)
  | notString (path shown : String)
  | notStrings (path : String)
  | notList (path : String)
  | notEnvelope (path : String)
  | noDurations (path : String)
  | notRatio (path : String)
  | missing (path : String)
  | noContent (pattern : String) (kinds : List String)
  | mixedContent (pattern : String) (kinds : List String)
  deriving DecidableEq, Repr

def Malformation.message : Malformation → String
  | notMapping path kind => path ++ " must be a mapping, got " ++ kind
  | notNumber path shown => path ++ " must be a number, got " ++ shown
  | notWholeNumber path shown => path ++ " must be a whole number, got " ++ shown
  | belowMinimum path minimum value =>
    path ++ " must be at least " ++ toString minimum ++ ", got " ++ toString value
  | notString path shown => path ++ " must be a string, got " ++ shown
  | notStrings path => path ++ " must be a list of strings or a string"
  | notList path => path ++ " must be a list"
  | notEnvelope path => path ++ " must be an envelope name or a list of velocities"
  | noDurations path => path ++ " must not be empty"
  | notRatio path => path ++ " must be a list of two numbers [actual, normal]"
  | missing path => path ++ " is required"
  | noContent pattern kinds =>
    "Pattern \"" ++ pattern ++ "\" has no recognizable content. Add one of: "
      ++ ", ".intercalate kinds
  | mixedContent pattern kinds =>
    "Pattern \"" ++ pattern ++ "\" mixes " ++ " and ".intercalate kinds
      ++ "; a pattern has exactly one kind of content"

/-! ## Rejected values

Values of the right shape that the library cannot use: a name that no table holds, a number out of
range, a collection with nothing in it.
-/

/-- The tables that names are looked up in. -/
inductive Catalogue where
  | scale | curve | groove | expression | markovPreset | arpeggioMode | technique | envelope
  deriving DecidableEq, Repr

namespace Catalogue

def entry : Catalogue → String
  | scale => "scale"
  | curve => "curve"
  | groove => "groove"
  | expression => "expression preset"
  | markovPreset => "Markov preset"
  | arpeggioMode => "arpeggio mode"
  | technique => "continuation technique"
  | envelope => "envelope"

/-- What a message calls the names that would have been known. -/
def heading : Catalogue → String
  | scale => "Available scales"
  | curve => "Available curves"
  | groove => "Available grooves"
  | expression => "Available presets"
  | markovPreset => "Valid presets"
  | arpeggioMode => "Valid modes"
  | technique => "Valid techniques"
  | envelope => "Valid envelopes"

end Catalogue

inductive Rejection where
  | unknownName (catalogue : Catalogue) (shown : String) (available : List String)
  | unknownTransform (shown : String)
  | invalidKey (shown : String)
  | invalidMode (shown : String) (why : Rejection)
  | timeSignature (shown : String)
  | noOptions
  | noTransitions
  | noStates
  | noDurations
  | noTimelines
  | arpeggioOctaves (octaves : Int)
  | notWholeNumber (shown : String)
  | undefinedWholeNumber
  | outsideDomain
  | tooFewBounds (count : Nat)
  | tooManyBounds
  | badUpdate (index length : Nat)
  | midiDataByte
  | midiTempo
  deriving DecidableEq, Repr

/-- How much of a text that is no whole number a message shows. -/
def shownLength : Nat :=
  200

def Rejection.message : Rejection → String
  | unknownName catalogue shown available =>
    "Unknown " ++ catalogue.entry ++ " " ++ shown ++ ". " ++ catalogue.heading ++ ": "
      ++ ", ".intercalate available
  | unknownTransform shown => "Unknown transform operation " ++ shown
  | invalidKey shown => "Invalid key: " ++ shown
  | invalidMode shown why => "Invalid key " ++ shown ++ ": " ++ why.message
  | timeSignature shown => "Invalid time signature: " ++ shown
  | noOptions => "Options cannot be empty"
  | noTransitions => "Transitions cannot be empty"
  | noStates => "A Markov preset needs at least one state"
  | noDurations => "Markov pattern needs at least one duration"
  | noTimelines => "Cannot merge an empty list of timelines"
  | arpeggioOctaves octaves => "Arpeggio needs at least one octave, got " ++ toString octaves
  | notWholeNumber shown =>
    "invalid literal for int() with base 10: " ++ String.ofList (shown.toList.take shownLength)
  | undefinedWholeNumber => "cannot convert float NaN to integer"
  | outsideDomain => "math domain error"
  | tooFewBounds count =>
    "not enough values to unpack (expected 2, got " ++ toString count ++ ")"
  | tooManyBounds => "too many values to unpack (expected 2)"
  | badUpdate index length =>
    "dictionary update sequence element #" ++ toString index ++ " has length "
      ++ toString length ++ "; 2 is required"
  | midiDataByte => "data byte must be in range 0..127"
  | midiTempo => "attribute must be in range 0..16777215"

/-! ## All faults -/

/-- The longest chain of references between patterns that is followed. -/
def maxReferenceDepth : Nat :=
  32

inductive Fault where
  | misspelled (why : Misspelling)
  | malformed (why : Malformation)
  | rejected (why : Rejection)
  /-- A fault inside one track of a section, reported with its place. -/
  | inTrack (sectionName track : String) (why : Fault)
  /-- A chain of references between patterns that does not end in time. -/
  | tooDeep
  | divisionByZero
  | emptyChoice
  | overflow
  /-- An operation on a value of a kind that does not have it. -/
  | wrongKind
  /-- A question to a value of a kind that cannot answer it. -/
  | noSuchMember
  /-- A name that a mapping does not hold. -/
  | missingKey
  /-- A text that the file format has no bytes for. -/
  | unencodable
  deriving DecidableEq, Repr

namespace Fault

def message? : Fault → Option String
  | misspelled why => some why.message
  | malformed why => some why.message
  | rejected why => some why.message
  | inTrack sectionName track why =>
    some ("Section \"" ++ sectionName ++ "\" track \"" ++ track ++ "\": "
      ++ (message? why).getD "")
  | tooDeep =>
    some ("Pattern resolution depth exceeded (" ++ toString maxReferenceDepth
      ++ "); check for a cycle in extends/transform/conditional references")
  | divisionByZero | emptyChoice | overflow | wrongKind | noSuchMember | missingKey
  | unencodable => none

/-- Faults in what a score says, as opposed to faults of arithmetic or of kinds. -/
def isInput : Fault → Bool
  | misspelled _ | malformed _ | rejected _ | inTrack .. | unencodable => true
  | tooDeep | divisionByZero | emptyChoice | overflow | wrongKind | noSuchMember
  | missingKey => false

end Fault

/-- The result of a computation that a fault may stop. -/
abbrev Outcome :=
  Except Fault

end Partitura

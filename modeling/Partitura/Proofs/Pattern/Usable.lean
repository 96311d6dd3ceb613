import Partitura.Harmony.Chord
import Partitura.Pattern.Basic

/-!
# Raw values that can be used

Some fields of a pattern are kept as they were written, and what they hold is only looked at when the
pattern is played. A pattern is usable if what they hold is of a kind that playing it can use: a text
where a name is looked up, a number where something is counted, and so on. Nothing is said about
whether the name is known or the text can be read.
-/

namespace Partitura

variable {α : Type}

namespace Value

def isText : Value α → Bool
  | text _ => true
  | _ => false

/-- A number or a flag. -/
def isNumber : Value α → Bool
  | bool _ | int _ | real _ => true
  | _ => false

/-- What a whole number can be read from. -/
def isCount (v : Value α) : Bool :=
  v.isNumber || v.isText

def hasItems : Value α → Bool
  | text _ | list _ | mapping _ => true
  | _ => false

/-- A row of a transition table: a mapping to numbers. -/
def isRow : Value α → Bool
  | mapping fields => fields.all fun (_, w) => w.isNumber
  | _ => false

/-- A transition table: a mapping to rows. -/
def isTable : Value α → Bool
  | mapping fields => fields.all fun (_, row) => row.isRow
  | _ => false

variable [Scalar α]

/-- A text, or nothing that counts. -/
def isTextIfAny (v : Value α) : Bool :=
  !v.truthy || v.isText

end Value

variable [Scalar α]

/-! ## Contents -/

/-- Steps stand in for lines. -/
def DrumsContent.usable (d : DrumsContent α) : Bool :=
  !d.lines.isEmpty || !d.steps.truthy || d.steps.hasItems

/-- A pitch stands in for a drum. -/
def EuclideanContent.usable (e : EuclideanContent α) : Bool :=
  e.drum.truthy || e.pitch.isTextIfAny

/-- A preset stands in for transitions, and only a walk of at least one step begins anywhere. -/
def MarkovContent.usable (m : MarkovContent α) : Bool :=
  m.chordScale.isTextIfAny &&
    (if m.transitions.truthy then m.transitions.isTable else m.preset.isKey) &&
    (decide (m.steps ≤ 0) || m.initialState.isTextIfAny)

def VoiceLeadContent.usable (v : VoiceLeadContent α) : Bool :=
  (v.voiceRanges.getD []).all fun (_, bounds) => bounds.all Value.isText

def Content.usable : Content α → Bool
  | drums d => d.usable
  | euclidean e => e.usable
  | markov m => m.usable
  | voiceLead v => v.usable
  | notes _ | chords _ | degrees .. | arpeggio _ | continuation _ | tuplet .. | rest _ => true

/-- Whether there are tones to be played one after the other. The symbol of an arpeggio may be that of
a rest. -/
def Content.hasTones : Content α → Bool
  | arpeggio a => !Token.isRest (a.chord ++ ":q")
  | _ => true

/-! ## References -/

/-- Whether the transform of a name can use its parameters. -/
def Melody.takes (operation : String) (params : Fields α) : Bool :=
  let param (name : String) (standard : Value α) : Value α := (params.get? name).getD standard
  match operation with
  | "invert" => (param "axis" .null).isNull || (param "axis" .null).isText
  | "augment" => (param "factor" (.real 2.0)).isNumber
  | "diminish" => (param "factor" (.real 0.5)).isNumber
  | "transpose" => (param "semitones" (.int 0)).isCount
  | "octave" => (param "octaves" (.int 1)).isCount
  | _ => true

/-- Any value that can be asked for may be written in the place of a name. -/
def Conditional.usable (p : Conditional α) : Bool :=
  !p.elseName.truthy || p.elseName.isKey

namespace Pattern

def usable : Pattern α → Bool
  | base b => b.content.usable
  | transformation t => Melody.takes t.operation t.params
  | inheritance _ => true
  | conditional p => p.usable

def hasTones : Pattern α → Bool
  | base b => b.content.hasTones
  | _ => true

end Pattern

def PatternTable.usable (t : PatternTable α) : Bool :=
  t.all fun (_, p) => p.usable

def PatternTable.hasTones (t : PatternTable α) : Bool :=
  t.all fun (_, p) => p.hasTones

end Partitura

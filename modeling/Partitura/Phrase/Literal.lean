import Partitura.Harmony.Chord
import Partitura.Notation.Token
import Partitura.Phrase.Context

/-!
# Phrases that are written out

Notes, chords and rests one after the other. Each begins where the one before it ends by its written
length; how long it sounds is another matter, which its articulation decides.
-/

namespace Partitura.Phrase

variable {α : Type} [Scalar α]

/-- The loudest a note may be. -/
def maxVelocity : α :=
  1.0

/-- A velocity with the boost of an articulation. -/
def boosted (base : α) (a : Articulation) : α :=
  Scalar.min maxVelocity (base + a.boost)

/-- The velocity of a note before its articulation: its own, if that counts, or that of the track. -/
def baseVelocity (c : Context α) (useOwn : Bool) (own : Option α) : α :=
  match useOwn, own with
  | true, some v => v
  | _, _ => c.velocity

/-- The note that a token plays. -/
def noteOfToken (c : Context α) (useOwn : Bool) (start length : α) (t : NoteToken α) :
    Outcome (Note α) := do
  return { pitch := ← c.place t.pitch.text
           start
           duration := length * t.articulation.gate
           velocity := boosted (baseVelocity c useOwn t.velocity) t.articulation
           timing := t.timing
           probability := t.probability
           glide := t.glide }

/-- The notes of tokens that are played from `start` on with every length scaled, and where they
end. -/
def ofTokensFrom (c : Context α) (scale : α) (useOwn : Bool) :
    α → List (Token α) → Outcome (List (Note α) × α)
  | start, [] => .ok ([], start)
  | start, .rest l :: rest => ofTokensFrom c scale useOwn (start + l.beats * scale) rest
  | start, .note t :: rest => do
    let length := t.beats * scale
    let note ← noteOfToken c useOwn start length t
    let (notes, finish) ← ofTokensFrom c scale useOwn (start + length) rest
    return (note :: notes, finish)

def ofTokens (c : Context α) (scale : α) (useOwn : Bool) (ts : List (Token α)) :
    Outcome (Phrase α) := do
  let (notes, beats) ← ofTokensFrom c scale useOwn 0.0 ts
  return { notes, beats }

/-- Written notes and rests one after the other, with every length scaled. -/
def ofNotes (c : Context α) (scale : α) (useOwn : Bool) (notes : List String) :
    Outcome (Phrase α) := do
  ofTokens c scale useOwn (← (Compact.expand notes).mapM Token.parse)

/-! ## Chords -/

/-- All tones of a chord, at once. -/
def chordNotes (c : Context α) (start : α) (t : ChordToken) : Outcome (List (Note α)) :=
  t.notes.mapM fun pitch => do
    return { pitch := ← c.place pitch
             start
             duration := t.length.beats * t.articulation.gate
             velocity := boosted c.velocity t.articulation }

/-- Reports a voicing that is not known for the quality of its chord. -/
def warnVoicing (text : String) (t : ChordToken) : Run Unit :=
  if t.voiced then return ()
  else
    Run.warn ("Unknown voicing " ++ Text.quoted (t.voicing.getD "") ++ " for chord quality "
      ++ Text.quoted t.quality ++ " in " ++ Text.quoted text ++ ", using standard stacking")

/-- Chords from `start` on, and where they end. -/
def ofChordsFrom (c : Context α) : α → List String → Run (List (Note α) × α)
  | start, [] => return ([], start)
  | start, text :: rest => do
    let t ← ChordToken.parse text ChordToken.defaultOctave
    warnVoicing text t
    let notes ← chordNotes c start t
    let (more, finish) ← ofChordsFrom c (start + t.length.beats) rest
    return (notes ++ more, finish)

def ofChords (c : Context α) (chords : List String) : Run (Phrase α) := do
  let (notes, beats) ← ofChordsFrom c 0.0 chords
  return { notes, beats }

/-! ## Rests and tuplets -/

def ofRest (text : String) : Outcome (Phrase α) := do
  return { beats := (← Token.parseRest text).beats }

/-- A part of a tuplet's ratio: a positive whole number. -/
def ratioPart? : Value α → Option Nat
  | .int n => if 0 < n then some n.toNat else none
  | _ => none

/-- The two numbers of a tuplet's ratio: so many notes in the time of so many. -/
def ratioOf (ratio : List (Value α)) : Outcome (Nat × Nat) :=
  match ratio with
  | [a, b] =>
    match ratioPart? a, ratioPart? b with
    | some actual, some normal => .ok (actual, normal)
    | _, _ => .error (.misspelled (.ratio (Value.list ratio).shown))
  | _ => .error (.misspelled (.ratio (Value.list ratio).shown))

omit [Scalar α] in
theorem ratioPart?_pos {v : Value α} {n : Nat} (h : ratioPart? v = some n) : 0 < n := by
  unfold ratioPart? at h
  split at h
  · split at h
    · cases h
      omega
    · cases h
  · cases h

theorem ratioOf_pos {ratio : List (Value α)} {actual normal : Nat}
    (h : ratioOf ratio = .ok (actual, normal)) : 0 < actual ∧ 0 < normal := by
  unfold ratioOf at h
  split at h
  · split at h
    · next hactual hnormal =>
        cases h
        exact ⟨ratioPart?_pos hactual, ratioPart?_pos hnormal⟩
    · cases h
  · cases h

/-- Notes and rests fitted into another time. -/
def ofTuplet (c : Context α) (ratio : List (Value α)) (notes : List String) :
    Outcome (Phrase α) := do
  let (actual, normal) ← ratioOf ratio
  ofNotes c (← quotientOf normal actual) true notes

end Partitura.Phrase

import Partitura.Melody.Continuation
import Partitura.Pattern.Resolution
import Partitura.Phrase.Harmony
import Partitura.Phrase.Drums
import Partitura.Phrase.Literal
import Partitura.Phrase.Markov

/-!
# From patterns to phrases

A base pattern plays its content, each kind in its own way, and then its finish: an envelope over the
velocities, and pitches snapped to the key. Other patterns are resolved first.
-/

namespace Partitura

variable {α : Type} [Scalar α]

namespace Phrase

/-! ## Continuations -/

/-- The notes of the pattern that is to be continued, if it has any. -/
def continuationSource? (c : Context α) (source : String) : Run (Option (List String)) := do
  match c.pattern? source with
  | none => return none
  | some p =>
    let resolved ← p.resolve c
    return (resolved.bind BasePattern.notes?).filter (!·.isEmpty)

/-- The notes of a continuation. An unknown technique leaves them as they are. -/
def continuedNotes (s : ContinuationContent) (notes : List String) : Run (List String) :=
  match Melody.Technique.ofName? s.technique with
  | some t => liftM (Melody.continueWith α (Compact.expand notes) s.steps s.interval t)
  | none => do
    Run.warn ("Unknown continuation technique " ++ Text.quoted s.technique
      ++ ", using the source notes unchanged")
    return notes

/-- The notes of another pattern, gone on with, at the velocity of the track. -/
def ofContinuation (c : Context α) (s : ContinuationContent) : Run (Phrase α) := do
  match ← continuationSource? c s.source with
  | none =>
    Run.warn ("Continuation source pattern \"" ++ s.source ++ "\" not found or has no notes")
    return silence
  | some notes => ofNotes c 1.0 false (← continuedNotes (α := α) s notes)

/-! ## Contents -/

/-- What a content plays. -/
def ofContent (c : Context α) : Content α → Run (Phrase α)
  | .notes ns => liftM (ofNotes c 1.0 true ns)
  | .chords cs => ofChords c cs
  | .degrees ds rhythm => liftM (ofDegrees c ds rhythm)
  | .arpeggio a => ofArpeggio c a
  | .drums d => liftM (ofDrums c d)
  | .euclidean e => liftM (ofEuclidean c e)
  | .markov m => ofMarkov c m
  | .continuation s => ofContinuation c s
  | .voiceLead v => ofVoiceLead c v
  | .tuplet ratio ns => liftM (ofTuplet c ratio ns)
  | .rest text => liftM (ofRest (α := α) text)

/-! ## Finishes -/

/-- Snaps a note to the key; drums stay as they are. -/
def snapNote (k : Key) (n : Note α) : Outcome (Note α) := do
  if Drum.isDrum n.pitch then return n
  return { n with pitch := ← k.snap n.pitch }

/-- The context with the velocity that a finish says. -/
def finishContext (c : Context α) (f : Finish α) : Context α :=
  { c with velocity := f.velocity.getD c.velocity }

def applyEnvelope (f : Finish α) (velocity : α) (notes : List (Note α)) : Run (List (Note α)) :=
  match f.envelope with
  | some e => e.apply notes velocity
  | none => return notes

def applySnap (f : Finish α) (k : Key) (notes : List (Note α)) : Outcome (List (Note α)) :=
  if f.constrainToScale then notes.mapM (snapNote k) else .ok notes

/-- Applies a finish to notes. -/
def applyFinish (c : Context α) (f : Finish α) (notes : List (Note α)) : Run (List (Note α)) := do
  let shaped ← applyEnvelope f c.velocity notes
  applySnap f c.key shaped

end Phrase

/-- What a base pattern plays. -/
def BasePattern.expand (c : Context α) (b : BasePattern α) : Run (Phrase α) := do
  let c := Phrase.finishContext c b.finish
  let phrase ← Phrase.ofContent c b.content
  return { phrase with notes := ← Phrase.applyFinish c b.finish phrase.notes }

namespace Pattern

/-- What a pattern plays if it is a base pattern; others have to be resolved first. -/
def expandUnresolved (c : Context α) : Pattern α → Run (Phrase α)
  | base b => b.expand c
  | transformation _ | inheritance _ | conditional _ => throw .wrongKind

/-- What a pattern plays. -/
def expand (c : Context α) (p : Pattern α) : Run (Phrase α) := do
  match ← p.resolve c with
  | some b => b.expand c
  | none => return Phrase.silence

end Pattern

end Partitura

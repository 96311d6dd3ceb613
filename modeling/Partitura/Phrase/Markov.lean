import Partitura.Markov.Preset
import Partitura.Markov.State
import Partitura.Notation.Token
import Partitura.Phrase.Context

/-!
# Walked melodies

A melody is walked over states first, and then every state becomes a note or a silence. All draws of
the walk come before any draw of a velocity. A pattern with a seed of its own always walks the same
way and leaves the stream of the section alone.
-/

namespace Partitura.Phrase

variable {α : Type} [Scalar α]

/-- A raw value as a row of a transition table. -/
def rowOf : Value α → Outcome (Markov.Row α)
  | .mapping fields => .ok (fields.map fun (target, w) => (target, .ofValue w))
  | _ => .error .noSuchMember

/-- A raw value as a transition table over some states, and what is wrong with it. Each row is looked
at before the next one is read. -/
def tableOf (states : List String) : Value α → Outcome (Markov.Table α × List String)
  | .mapping fields => do
    let rows ← fields.mapM fun (state, v) => do
      let row ← rowOf v
      return ((state, row), ← Markov.Row.problems states state row)
    let table := rows.map (·.1)
    return (table, (rows.map (·.2)).flatten ++ Markov.Table.missingRows states table)
  | _ => .error .noSuchMember

/-- The preset that a raw value names, if it is known. -/
def presetOf? : Value α → Outcome (Option Markov.Preset)
  | .text s => .ok (Markov.Preset.ofName? s)
  | .list _ | .mapping _ => .error .wrongKind
  | .null | .bool _ | .int _ | .real _ => .ok none

/-- The table to walk by: one that is written out, that of a preset, or an even one. -/
def walkTable (m : MarkovContent α) : Run (Markov.Table α) := do
  if m.transitions.truthy then
    let (table, problems) ← tableOf m.states m.transitions
    Run.warnAll problems
    return table
  match ← presetOf? m.preset with
  | some p => p.table m.states
  | none =>
    if m.preset.truthy then
      Run.warn ("Unknown Markov preset " ++ m.preset.shown ++ ", using a uniform distribution")
    else
      Run.warn "Markov pattern has no transitions or preset, using a uniform distribution"
    Markov.Preset.table m.states .uniform

/-- The key that the states are read in. -/
def walkKey (c : Context α) (m : MarkovContent α) : Outcome Key :=
  if m.chordScale.truthy then
    match m.chordScale with
    | .text s => .ok (Markov.chordKey s)
    | _ => .error .noSuchMember
  else .ok c.key

/-- How far a pitch is moved to fit the key. -/
def walkSnapDistance : Int :=
  2

/-- The softest velocity of a walked note. -/
def walkVelocity : α :=
  0.7

/-- How much louder a walked note may be. -/
def walkSpread : α :=
  0.2

/-- The pitch of a walked note after snapping, if it is to be snapped. -/
def snapWalked (k : Key) (m : MarkovContent α) (pitch : String) : Outcome String :=
  if m.constrainStates then do
    let midi ← Pitch.midiOf pitch
    return Pitch.textOfMidi (quantizePitch midi k.pitchClasses walkSnapDistance)
  else .ok pitch

/-- The notes of the states from `start` on, and where they end; `index` counts the states before. -/
def ofStatesFrom (k : Key) (m : MarkovContent α) (durations : List String) :
    α → Nat → List String → Draw (List (Note α) × α)
  | start, _, [] => return ([], start)
  | start, index, state :: rest => do
    let length : α :=
      (← Length.ofText (durations.getD (index % durations.length) "")).beats
    let next ←
      match rest with
      | following :: _ => liftM (Markov.pitchOf? k m.octave none following)
      | [] => pure none
    match ← Markov.pitchOf? k m.octave next state with
    | none => ofStatesFrom k m durations (start + length) (index + 1) rest
    | some pitch => do
      let pitch ← snapWalked k m pitch
      let velocity := walkVelocity + (← Draw.unit) * walkSpread
      let note : Note α := { pitch, start, duration := length, velocity }
      let (notes, finish) ← ofStatesFrom k m durations (start + length) (index + 1) rest
      return (note :: notes, finish)

/-- The states of a walk, if they are texts. A walk from a raw state that is none stays there, since
no table has a row for it, and one that no table can be asked for lets the walk end before its first
step. -/
def walkedStates (m : MarkovContent α) (table : Markov.Table α) : Draw (Option (List String)) :=
  match m.initialState with
  | .text s => do
    some <$> Markov.Table.walk table (if s = "" then m.states.headD "" else s) m.steps
  | v => do
    if !v.truthy then
      some <$> Markov.Table.walk table (m.states.headD "") m.steps
    else if m.steps ≤ 0 then return some []
    else if 1 < m.steps && !v.isKey then throw .wrongKind
    else return none

/-- The notes of a walk with raw velocities, not yet moved by the track, and where the walk ends. -/
def walkNotes (k : Key) (m : MarkovContent α) (table : Markov.Table α) :
    Draw (List (Note α) × α) := do
  let states? ← walkedStates m table
  let durations := m.duration.toList
  if durations.isEmpty then throw (.rejected .noDurations)
  match states? with
  | some states => ofStatesFrom k m durations 0.0 0 states
  | none =>
    let _ ← Length.ofText (durations.headD "")
    throw .wrongKind

/-- Runs a computation on the stream of a seed, or on that of the session. -/
def onStream {β : Type} (seed : Option Int) (d : Draw β) : Run β :=
  match seed with
  | none => Run.ofDraw d
  | some n => do
    let (x, _) ← d.outcome (Twister.ofSeed n)
    return x

/-- Moves a walked note by the offsets of the track and scales its velocity. -/
def placeWalked (c : Context α) (n : Note α) : Outcome (Note α) := do
  return { n with pitch := ← c.place n.pitch, velocity := n.velocity * c.velocity }

def warnStates (states : List String) : Run Unit :=
  Run.warnAll ((states.filter (!Markov.isKnown ·)).map fun s =>
    "Unknown Markov state " ++ Text.quoted s ++ ", treating it as a rest")

/-- A walked melody, as long as the whole walk. -/
def ofMarkov (c : Context α) (m : MarkovContent α) : Run (Phrase α) := do
  if m.states.isEmpty then
    Run.warn "Markov pattern has no states"
    return silence
  warnStates m.states
  let key ← walkKey c m
  let table ← walkTable m
  let (walked, beats) ← onStream m.seed (walkNotes key m table)
  let notes ← (walked.mapM (placeWalked c) : Outcome (List (Note α)))
  return { notes, beats }

end Partitura.Phrase

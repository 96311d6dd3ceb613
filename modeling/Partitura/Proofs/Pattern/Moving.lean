import Partitura.Phrase.Expansion
import Partitura.Proofs.Computation
import Partitura.Proofs.Melody.Moving
import Partitura.Proofs.Phrase.Envelope

/-!
# A pattern moved by inheritance and by its track

Written notes may be moved in two ways. A pattern that extends them respells every note, writes it and
reads it again, once for the semitones and once more for the octaves; a track moves the pitches when it
plays them. Both ways sound the same (`Moving.sounds_alike`), but the first one stops where one digit
does not tell an octave: a pattern that extends notes can be played exactly if the notes can, and all
of them stay within reach.
-/

namespace Partitura

variable {α : Type} [Scalar α]

/-! ## §1 Playing tokens that sound the same -/

/-- The semitones by which a context moves all pitches. -/
def Context.offset (c : Context α) : Int :=
  c.transpose + octaveSize * c.octaveOffset

/-- Two notes sound the same: they differ in nothing but the spelling of their pitch. -/
structure Note.SameSound (n n' : Note α) : Prop where
  besides : n = { n' with pitch := n.pitch }
  pitch : ∃ m, Pitch.midiOf n.pitch = .ok m ∧ Pitch.midiOf n'.pitch = .ok m

/-- Two tokens sound the same after moves by so many semitones. -/
inductive Token.SameSound (offset offset' : Int) : Token α → Token α → Prop where
  | note (n : NoteToken α) (p : Pitch) (h : p.midi + offset = n.pitch.midi + offset') :
    SameSound offset offset' (.note { n with pitch := p }) (.note n)
  | rest (l : Length) : SameSound offset offset' (.rest l) (.rest l)

omit [Scalar α] in
theorem Token.SameSound.refl {offset : Int} (t : Token α) : SameSound offset offset t t := by
  cases t with
  | note n => exact .note n n.pitch rfl
  | rest l => exact .rest l

namespace Phrase

variable {c c' : Context α}

theorem noteOfToken_sameSound (hvelocity : c.velocity = c'.velocity) (useOwn : Bool)
    (start length : α) {n : NoteToken α} {p : Pitch}
    (h : p.midi + c.offset = n.pitch.midi + c'.offset) : ∃ note note' : Note α,
      noteOfToken c useOwn start length { n with pitch := p } = .ok note ∧
      noteOfToken c' useOwn start length n = .ok note' ∧ note.SameSound note' := by
  obtain ⟨moved, hmoved, hmidi⟩ := placePitch_text p c.octaveOffset c.transpose
  obtain ⟨moved', hmoved', hmidi'⟩ := placePitch_text n.pitch c'.octaveOffset c'.transpose
  have hsame : moved.midi = moved'.midi := by
    unfold Context.offset at h
    omega
  unfold noteOfToken Context.place baseVelocity
  rw [hmoved, hmoved', hvelocity]
  refine ⟨_, _, rfl, rfl, rfl, moved.midi, Pitch.midiOf_text moved, ?_⟩
  rw [hsame]
  exact Pitch.midiOf_text moved'

theorem ofTokensFrom_sameSound (hvelocity : c.velocity = c'.velocity) (scale : α) (useOwn : Bool)
    {ts ts' : List (Token α)} (h : List.Forall₂ (Token.SameSound c.offset c'.offset) ts ts')
    (start : α) :
    ∃ notes notes' finish, ofTokensFrom c scale useOwn start ts = .ok (notes, finish) ∧
      ofTokensFrom c' scale useOwn start ts' = .ok (notes', finish) ∧
      List.Forall₂ Note.SameSound notes notes' := by
  induction h generalizing start with
  | nil => exact ⟨[], [], start, rfl, rfl, .nil⟩
  | cons hhead _ ih =>
      cases hhead with
      | note n p h =>
          obtain ⟨note, note', hnote, hnote', hsame⟩ :=
            noteOfToken_sameSound hvelocity useOwn start (n.beats * scale) h
          obtain ⟨notes, notes', finish, hnotes, hnotes', hrest⟩ := ih (start + n.beats * scale)
          have hbeats : ({ n with pitch := p } : NoteToken α).beats = n.beats := rfl
          refine ⟨note :: notes, note' :: notes', finish, ?_, ?_, .cons hsame hrest⟩
          · simp only [ofTokensFrom, hbeats, hnote, hnotes, Outcome.ok_bind]
            rfl
          · simp only [ofTokensFrom, hnote', hnotes', Outcome.ok_bind]
            rfl
      | rest l =>
          obtain ⟨notes, notes', finish, hnotes, hnotes', hrest⟩ := ih (start + l.beats * scale)
          exact ⟨notes, notes', finish, hnotes, hnotes', hrest⟩

/-- Two phrases sound the same. -/
structure SameSound (p p' : Phrase α) : Prop where
  beats : p.beats = p'.beats
  notes : List.Forall₂ Note.SameSound p.notes p'.notes

theorem ofTokens_sameSound (hvelocity : c.velocity = c'.velocity) (scale : α) (useOwn : Bool)
    {ts ts' : List (Token α)} (h : List.Forall₂ (Token.SameSound c.offset c'.offset) ts ts') :
    ∃ p p', ofTokens c scale useOwn ts = .ok p ∧ ofTokens c' scale useOwn ts' = .ok p' ∧
      p.SameSound p' := by
  obtain ⟨notes, notes', finish, hnotes, hnotes', hsame⟩ :=
    ofTokensFrom_sameSound hvelocity scale useOwn h 0.0
  unfold ofTokens
  rw [hnotes, hnotes']
  exact ⟨_, _, rfl, rfl, rfl, hsame⟩

/-- Tokens that have been read can always be placed. -/
theorem ofTokens_ok (c : Context α) (scale : α) (useOwn : Bool) (ts : List (Token α)) :
    ∃ p, ofTokens c scale useOwn ts = .ok p := by
  have hrefl : List.Forall₂ (Token.SameSound c.offset c.offset) ts ts :=
    List.forall₂_same.2 fun t _ => Token.SameSound.refl t
  obtain ⟨p, _, hp, _⟩ := ofTokens_sameSound (c := c) rfl scale useOwn hrefl
  exact ⟨p, hp⟩

/-! ## §2 Finishing notes that sound the same -/

omit [Scalar α] in
theorem withVelocities_sameSound {notes notes' : List (Note α)}
    (h : List.Forall₂ Note.SameSound notes notes') (velocities : List α) :
    List.Forall₂ Note.SameSound (Envelope.withVelocities notes velocities)
      (Envelope.withVelocities notes' velocities) := by
  induction h generalizing velocities with
  | nil => exact .nil
  | @cons n n' notes notes' hhead _ ih =>
      cases velocities with
      | nil => exact .nil
      | cons v velocities =>
          refine .cons ⟨?_, hhead.pitch⟩ (ih velocities)
          exact congrArg (fun m : Note α => { m with velocity := v }) hhead.besides

/-- An envelope looks at how many notes there are, and at nothing else of them. -/
theorem envelope_alike (e : Envelope α) (base : α) {notes notes' : List (Note α)}
    (h : List.Forall₂ Note.SameSound notes notes') :
    Run.Alike (List.Forall₂ Note.SameSound) (e.apply notes base) (e.apply notes' base) := by
  have hempty : notes.isEmpty = notes'.isEmpty := by cases h <;> rfl
  have hlength := h.length_eq
  unfold Envelope.apply
  rw [hempty, hlength]
  split
  · exact .pure .nil
  · cases e with
    | named name =>
        dsimp only
        split
        · exact .bind (.refl _) fun _ _ _ => .pure h
        · refine .bind (.refl _) fun velocities _ heq => ?_
          subst heq
          exact .pure (withVelocities_sameSound h velocities)
    | levels values =>
        dsimp only
        split
        · exact .pure h
        · refine .bind (.refl _) fun velocities _ heq => ?_
          subst heq
          exact .pure (withVelocities_sameSound h velocities)

theorem applyFinish_alike {f : Finish α} (hfree : f.constrainToScale = false)
    (hvelocity : c.velocity = c'.velocity) {notes notes' : List (Note α)}
    (h : List.Forall₂ Note.SameSound notes notes') :
    Run.Alike (List.Forall₂ Note.SameSound) (applyFinish c f notes) (applyFinish c' f notes') := by
  have hshaped : Run.Alike (List.Forall₂ Note.SameSound) (applyEnvelope f c.velocity notes)
      (applyEnvelope f c'.velocity notes') := by
    unfold applyEnvelope
    rw [hvelocity]
    cases f.envelope with
    | none => exact .pure h
    | some e => exact envelope_alike e _ h
  unfold applyFinish applySnap
  rw [hfree]
  exact .bind hshaped fun _ _ hsame => .lift rfl rfl hsame

/-- What tokens play, with a finish. -/
def playTokens (c : Context α) (f : Finish α) (ts : List (Token α)) : Run (Phrase α) := do
  let c := finishContext c f
  let phrase ← (liftM (ofTokens c 1.0 true ts) : Run (Phrase α))
  return { phrase with notes := ← applyFinish c f phrase.notes }

theorem playTokens_alike {f : Finish α} (hfree : f.constrainToScale = false)
    (hvelocity : c.velocity = c'.velocity) {ts ts' : List (Token α)}
    (h : List.Forall₂ (Token.SameSound c.offset c'.offset) ts ts') :
    Run.Alike SameSound (playTokens c f ts) (playTokens c' f ts') := by
  have hvelocity' : (finishContext c f).velocity = (finishContext c' f).velocity := by
    unfold finishContext
    rw [hvelocity]
  have h' : List.Forall₂ (Token.SameSound (finishContext c f).offset (finishContext c' f).offset)
      ts ts' := h
  obtain ⟨p, p', hp, hp', hsame⟩ := ofTokens_sameSound hvelocity' 1.0 true h'
  refine .bind (.lift hp hp' hsame) fun phrase phrase' h => ?_
  exact .bind (applyFinish_alike hfree hvelocity' h.notes) fun _ _ hfinished =>
    .pure ⟨h.beats, hfinished⟩

theorem playTokens_total [Elementary] {c : Context Rat} {f : Finish Rat}
    (hfree : f.constrainToScale = false) (ts : List (Token Rat)) : (playTokens c f ts).Total := by
  obtain ⟨p, hp⟩ := ofTokens_ok (finishContext c f) 1.0 true ts
  have hshaped (c : Context Rat) (notes : List (Note Rat)) :
      (applyEnvelope f c.velocity notes).Total := by
    unfold applyEnvelope
    cases f.envelope with
    | none => exact .pure notes
    | some e => exact e.apply_total notes _
  have hfinished (c : Context Rat) (notes : List (Note Rat)) : (applyFinish c f notes).Total := by
    unfold applyFinish applySnap
    rw [hfree]
    exact .bind (hshaped c notes) fun shaped => .lift rfl
  exact .bind (.lift hp) fun phrase => .bind (hfinished _ _) fun _ => .pure _

end Phrase

open Phrase

/-- Written notes are read, and then played. -/
theorem BasePattern.expand_written (c : Context α) (notes : List String) (f : Finish α) :
    BasePattern.expand c { content := .notes notes, finish := f } =
      (liftM (Melody.tokens α notes) : Run _) >>= playTokens c f := by
  have hcontent : ofContent (finishContext c f) (.notes notes) =
      (liftM (Melody.tokens α notes) : Run _) >>= fun ts =>
        liftM (ofTokens (finishContext c f) 1.0 true ts) := by
    change (liftM (Melody.tokens α notes >>= ofTokens (finishContext c f) 1.0 true) : Run _) = _
    rw [liftM_bind]
  unfold BasePattern.expand playTokens
  simp only [hcontent, bind_assoc]

theorem Pattern.expand_base (c : Context α) (b : BasePattern α) :
    Pattern.expand c (.base b) = b.expand c :=
  rfl

/-- Merging onto written notes moves those that the extension writes itself, or else the ones that are
there. -/
theorem Inheritance.merge_written (i : Inheritance α) (notes : List String) (f : Finish α) :
    i.merge { content := .notes notes, finish := f } =
      (liftM (shiftNotes α i.transpose i.octave (i.notes.getD notes)) : Run _) >>= fun moved =>
        pure { content := .notes moved, finish := i.finish f } := by
  unfold merge
  cases i.notes with
  | none => rfl
  | some own => rfl

/-- A pattern that extends written notes moves them, reads them again, and plays them. -/
theorem Pattern.expand_inheritance {c : Context α} {name : String} {notes : List String}
    {f : Finish α} (hfound : c.pattern? name = some (.base { content := .notes notes, finish := f }))
    (semitones octaves : Int) :
    Pattern.expand c (.inheritance { parent := name, transpose := semitones, octave := octaves }) =
      (liftM (shiftNotes α semitones octaves notes >>= Melody.tokens α) : Run _) >>=
        playTokens c f := by
  have hresolve : Pattern.resolve c
      (.inheritance { parent := name, transpose := semitones, octave := octaves }) =
      (liftM (shiftNotes α semitones octaves notes) : Run _) >>= fun moved =>
        pure (some { content := .notes moved, finish := f }) := by
    unfold Pattern.resolve maxReferenceDepth
    simp only [Pattern.resolveWithin, hfound, pure_bind]
    rw [Inheritance.merge_written, bind_assoc]
    rfl
  unfold Pattern.expand
  rw [hresolve]
  funext s
  cases hmoved : shiftNotes α semitones octaves notes with
  | error why => rfl
  | ok moved =>
      change BasePattern.expand c { content := .notes moved, finish := f } s = _
      rw [BasePattern.expand_written]
      rfl

/-! ## §3 Moving a pattern -/

/-- Written notes that are found in a context without offsets under a name and are not snapped to the
key, and a move of them. The notes can be read, and the numbers of their velocities and probabilities
are read back from how they are shown. -/
structure Moving (α : Type) [Scalar α] where
  context : Context α
  name : String
  notes : List String
  finish : Finish α
  tokens : List (Token α)
  semitones : Int
  octaves : Int
  still : context.transpose = 0 ∧ context.octaveOffset = 0
  found : context.pattern? name = some (.base { content := .notes notes, finish := finish })
  free : finish.constrainToScale = false
  read : Melody.tokens α notes = .ok tokens
  restorable : ∀ t ∈ tokens, t.Restorable

namespace Moving

variable (m : Moving α)

/-- The notes as they are written. -/
def written : Pattern α :=
  .base { content := .notes m.notes, finish := m.finish }

/-- The pattern that extends the notes and says how far they are moved. -/
def heir : Pattern α :=
  .inheritance { parent := m.name, transpose := m.semitones, octave := m.octaves }

/-- The same context, on a track that moves the notes as far. -/
def movedContext : Context α :=
  { m.context with transpose := m.semitones, octaveOffset := m.octaves }

/-- Every note is within reach of the move, step by step. -/
def InReach : Prop :=
  WithinReach m.semitones m.octaves m.tokens

theorem offset_context : m.context.offset = 0 := by
  obtain ⟨htranspose, hoctave⟩ := m.still
  unfold Context.offset
  rw [htranspose, hoctave]
  rfl

/-- Moved tokens where they stand sound like the tokens where they are moved. -/
theorem movedTokens_sameSound :
    List.Forall₂ (Token.SameSound m.context.offset m.movedContext.offset)
      (movedTokens m.semitones m.octaves m.tokens) m.tokens := by
  have hoffset : m.movedContext.offset = m.semitones + octaveSize * m.octaves := rfl
  rw [m.offset_context, hoffset]
  unfold movedTokens
  split
  · next hnone =>
      obtain ⟨hsemitones, hoctaves⟩ := hnone
      rw [hsemitones, hoctaves]
      exact List.forall₂_same.2 fun t _ => Token.SameSound.refl t
  · rw [List.forall₂_map_left_iff]
    refine List.forall₂_same.2 fun t _ => ?_
    cases t with
    | note n =>
        refine .note n _ ?_
        rw [Pitch.midi_ofMidi, add_zero]
    | rest l => exact .rest l

theorem expand_written (c : Context α) : m.written.expand c = Phrase.playTokens c m.finish m.tokens := by
  unfold written
  rw [Pattern.expand_base, BasePattern.expand_written, m.read]
  rfl

theorem expand_heir (h : m.InReach) : m.heir.expand m.context =
    Phrase.playTokens m.context m.finish (movedTokens m.semitones m.octaves m.tokens) := by
  unfold heir
  rw [Pattern.expand_inheritance m.found, (shiftNotes_ok_iff m.read m.restorable).2 ⟨h, rfl⟩]
  rfl

/-- Out of reach the move stops. -/
theorem inReach_of_expand {s : Session} {r : Phrase α × Session}
    (h : m.heir.expand m.context s = .ok r) : m.InReach := by
  unfold heir at h
  rw [Pattern.expand_inheritance m.found] at h
  cases hmoved : shiftNotes α m.semitones m.octaves m.notes >>= Melody.tokens α with
  | error why =>
      rw [hmoved] at h
      cases h
  | ok ts => exact ((shiftNotes_ok_iff m.read m.restorable).1 hmoved).1

/-- Within reach both ways of moving go alike. -/
theorem expand_alike (h : m.InReach) : Run.Alike Phrase.SameSound (m.heir.expand m.context)
    (m.written.expand m.movedContext) := by
  rw [m.expand_heir h, m.expand_written]
  have hvelocity : m.context.velocity = m.movedContext.velocity := rfl
  exact Phrase.playTokens_alike m.free hvelocity m.movedTokens_sameSound

/-- Counted exactly, written notes can always be played. -/
theorem written_total [Elementary] (m : Moving Rat) (c : Context Rat) :
    (m.written.expand c).Total := by
  rw [m.expand_written]
  exact Phrase.playTokens_total m.free m.tokens

/-- **Moving written notes by a pattern that extends them and moving them by the track agree.** The
pattern can be played if and only if the notes can, and all of them stay within reach; then it sounds
like the notes where they are moved, and leaves the session alike. Counted exactly, the notes can
always be played, so that nothing but the reach decides. -/
theorem sounds_alike :
    (∀ {α : Type} [Scalar α] (m : Moving α) (s : Session),
      ((∃ r, m.heir.expand m.context s = .ok r) ↔
        m.InReach ∧ ∃ r, m.written.expand m.movedContext s = .ok r) ∧
      ∀ phrase s', m.heir.expand m.context s = .ok (phrase, s') →
        ∃ phrase', m.written.expand m.movedContext s = .ok (phrase', s') ∧
          phrase.SameSound phrase') ∧
    ∀ [Elementary] (m : Moving Rat) (s : Session),
      (∃ r, m.heir.expand m.context s = .ok r) ↔ m.InReach := by
  refine ⟨fun m s => ⟨⟨?_, ?_⟩, fun phrase s' h => ?_⟩, fun m s => ⟨?_, fun hreach => ?_⟩⟩
  · rintro ⟨⟨phrase, s'⟩, h⟩
    have hreach := m.inReach_of_expand h
    obtain ⟨phrase', hphrase', _⟩ := (m.expand_alike hreach).exists_right h
    exact ⟨hreach, _, hphrase'⟩
  · rintro ⟨hreach, ⟨phrase', s'⟩, h⟩
    obtain ⟨phrase, hphrase, _⟩ := (m.expand_alike hreach).exists_left h
    exact ⟨_, hphrase⟩
  · exact (m.expand_alike (m.inReach_of_expand h)).exists_right h
  · rintro ⟨r, h⟩
    exact m.inReach_of_expand h
  · obtain ⟨⟨phrase', s'⟩, h⟩ := m.written_total m.movedContext s
    obtain ⟨phrase, hphrase, _⟩ := (m.expand_alike hreach).exists_left h
    exact ⟨_, hphrase⟩

/-- A tune with a velocity of its own, a rest, and a flat at the bottom of an octave. -/
def tune : List String :=
  ["B3:q@.5 r:8", "Cb4:h"]

/-- Where the tune is found, with its velocities stretched between two levels. -/
def tuneContext : Context Rat where
  key := { root := ⟨.c, .natural⟩, mode := .major }
  tempo := 120
  patterns := [("tune", .base
    { content := .notes tune, finish := { envelope := some (.levels [1 / 5, 1]) } })]
  velocity := 4 / 5

/-- All notes of a melody have one number, and a velocity of a half if any. -/
def even (midi : Int) (ts : List (Token Rat)) : Bool :=
  ts.all fun
    | .note n => n.velocity.all (· = 1 / 2) && n.probability.isNone && n.pitch.midi = midi
    | .rest _ => true

/-- The one velocity that the melodies here have. -/
theorem readsBack_half : let _ := Elementary.coarse; Notation.ReadsBack (1 / 2 : Rat) := by
  refine ⟨⟨['0'], true, ⟨['5'], by decide, by decide⟩, by decide⟩, ?_, ?_, ?_⟩
  · decide +kernel
  · decide +kernel
  · unfold Notation.Spelling.InUnit
    decide +kernel

/-- Such a melody is read back, and reaches as far as its one number. -/
theorem exists_of_even [Elementary] (hhalf : Notation.ReadsBack (1 / 2 : Rat)) (notes : List String)
    (midi : Int) (h : (Melody.tokens Rat notes).toOption.any (even midi) = true) :
    ∃ ts : List (Token Rat), Melody.tokens Rat notes = .ok ts ∧ (∀ t ∈ ts, t.Restorable) ∧
      ∀ semitones : Int, -96 ≤ midi + semitones ∧ midi + semitones ≤ 131 →
        ∀ t ∈ ts, t.InReach semitones := by
  obtain ⟨ts, hread, heven⟩ := Outcome.exists_of_any h
  have hnote : ∀ n, Token.note n ∈ ts →
      (∀ v ∈ n.velocity, v = 1 / 2) ∧ n.probability = none ∧ n.pitch.midi = midi := by
    intro n hn
    have heven' := List.all_eq_true.1 heven _ hn
    simpa [and_assoc, Option.all_eq_true] using heven'
  refine ⟨ts, hread, fun t ht => ?_, fun semitones hreach t ht => ?_⟩
  · cases t with
    | note n =>
        obtain ⟨hvelocity, hprobability, _⟩ := hnote n ht
        refine ⟨fun v hv => hvelocity v hv ▸ hhalf, ?_⟩
        rw [hprobability]
        nofun
    | rest l => trivial
  · cases t with
    | note n =>
        obtain ⟨_, _, hmidi⟩ := hnote n ht
        change -96 ≤ n.pitch.midi + semitones ∧ n.pitch.midi + semitones ≤ 131
        rw [hmidi]
        exact hreach
    | rest l => trivial

/-- The tune can be read, its one velocity is read back, and its notes have one number. -/
theorem exists_tune : ∃ _ : Elementary, ∃ ts : List (Token Rat), Melody.tokens Rat tune = .ok ts ∧
    (∀ t ∈ ts, t.Restorable) ∧
    ∀ semitones : Int, -96 ≤ 59 + semitones ∧ 59 + semitones ≤ 131 →
      ∀ t ∈ ts, t.InReach semitones := by
  let _ := Elementary.coarse
  exact ⟨inferInstance, exists_of_even readsBack_half tune 59 (by decide +kernel)⟩

/-- The theorem at work: a tune moved up by two semitones and down by an octave. -/
theorem tune_sounds_alike : ∃ _ : Elementary, ∃ m : Moving Rat,
    (m.notes = tune ∧ m.semitones = 2 ∧ m.octaves = -1) ∧ ∀ s, ∃ phrase phrase' s',
      m.heir.expand m.context s = .ok (phrase, s') ∧
      m.written.expand m.movedContext s = .ok (phrase', s') ∧ phrase.SameSound phrase' := by
  obtain ⟨_, ts, hread, hrestorable, hreach⟩ := exists_tune
  let m : Moving Rat := {
    context := tuneContext, name := "tune", notes := tune
    finish := { envelope := some (.levels [1 / 5, 1]) }
    tokens := ts, semitones := 2, octaves := -1
    still := ⟨rfl, rfl⟩, found := rfl, free := rfl, read := hread, restorable := hrestorable }
  have hin : m.InReach :=
    ⟨.inr (hreach 2 (by decide)), .inr (hreach (2 + octaveSize * (-1)) (by decide))⟩
  refine ⟨inferInstance, m, ⟨rfl, rfl, rfl⟩, fun s => ?_⟩
  obtain ⟨⟨phrase, s'⟩, hheir⟩ := (sounds_alike.2 m s).2 hin
  obtain ⟨phrase', hwritten, hsame⟩ := (sounds_alike.1 m s).2 phrase s' hheir
  exact ⟨phrase, phrase', s', hheir, hwritten, hsame⟩

end Moving

end Partitura

import Partitura.Number.Exact
import Partitura.Phrase.Expansion
import Partitura.Proofs.Harmony.Snapping
import Partitura.Proofs.Heedless

/-!
# What a finish leaves alone

An envelope gives every note a velocity of its own, so there must be as many velocities as notes
(§1); otherwise notes would be lost. Snapping goes note by note and changes nothing but pitches (§2).
So the notes of a finished phrase stand one to one beside those that were there before
(`Phrase.forall₂_applyFinish`), and neither step draws. Two expansions of one pattern, with its
finish and without, are compared at the end (`BasePattern.expand_finished`).
-/

namespace Partitura

variable {α : Type} [Scalar α]

/-! ## §1  As many velocities as notes -/

namespace Envelope

theorem Shape.length_over {count : Nat} (hcount : count ≠ 0) {base : α} {s : Shape} {vs : List α}
    (h : s.over count base = .ok vs) : vs.length = count := by
  cases s with
  | swell => simpa using (Outcome.mapM_ok h).length_eq.symm
  | accentFirst =>
      cases h
      simp only [List.length_cons, List.length_replicate]
      omega
  | crescendo | diminuendo | accentDownbeats =>
      cases h
      simp

theorem Shape.length_velocities {count : Nat} {base : α} {s : Shape} {vs : List α}
    (h : s.velocities count base = .ok vs) : vs.length = count := by
  unfold Shape.velocities at h
  split at h
  · next hzero =>
      cases h
      exact (Int.natCast_eq_zero.1 hzero).symm
  · next hsome =>
      split at h
      · next hone =>
          cases h
          exact (Int.natCast_inj.1 hone).symm
      · exact Shape.length_over (fun h0 => hsome (by rw [h0]; rfl)) h

theorem length_stretch {values : List α} (hvalues : ¬values.isEmpty) {count : Nat} {vs : List α}
    (h : stretch values count = .ok vs) : vs.length = count := by
  unfold stretch at h
  rw [if_neg hvalues] at h
  simpa using (Outcome.mapM_ok h).length_eq.symm

omit [Scalar α] in
/-- With as many velocities as notes no note is lost, and each is changed in nothing else. -/
theorem forall₂_withVelocities {notes : List (Note α)} {vs : List α}
    (h : vs.length = notes.length) :
    List.Forall₂ (fun n n' => ∃ v, n' = { n with velocity := v }) notes
      (withVelocities notes vs) := by
  induction notes generalizing vs with
  | nil => exact .nil
  | cons n notes ih =>
      obtain ⟨v, vs, rfl⟩ := List.exists_cons_of_length_eq_add_one h
      exact .cons ⟨v, rfl⟩ (ih (Nat.succ_inj.1 h))

/-- What an envelope does to notes, and that it draws nothing for it. -/
theorem forall₂_apply {e : Envelope α} {notes shaped : List (Note α)} {base : α} {s s' : Session}
    (h : e.apply notes base s = .ok (shaped, s')) :
    List.Forall₂ (fun n n' => ∃ v, n' = { n with velocity := v }) notes shaped ∧
      s'.stream = s.stream := by
  have unchanged (notes : List (Note α)) :
      List.Forall₂ (fun n n' => ∃ v, n' = { n with velocity := v }) notes notes :=
    List.forall₂_same.2 fun n _ => ⟨n.velocity, rfl⟩
  unfold Envelope.apply at h
  split at h
  · next hempty =>
      cases h
      rw [List.isEmpty_iff.1 hempty]
      exact ⟨.nil, rfl⟩
  · cases e with
    | named name =>
        dsimp only at h
        cases hname : Shape.ofName? name with
        | none =>
            rw [hname] at h
            cases h
            exact ⟨unchanged notes, rfl⟩
        | some shape =>
            rw [hname] at h
            obtain ⟨vs, hvs, h⟩ := Run.lift_bind_ok h
            cases h
            exact ⟨forall₂_withVelocities (Shape.length_velocities hvs), rfl⟩
    | levels values =>
        dsimp only at h
        split at h
        · cases h
          exact ⟨unchanged notes, rfl⟩
        · next hvalues =>
            obtain ⟨vs, hvs, h⟩ := Run.lift_bind_ok h
            cases h
            exact ⟨forall₂_withVelocities (length_stretch hvalues hvs), rfl⟩

end Envelope

/-! ## §2  Snapped pitches -/

/-- The pitch of a note belongs to a key, unless it is a drum. -/
def Note.InKey (k : Key) (n : Note α) : Prop :=
  Drum.isDrum n.pitch = false → k.InScale n.pitch

namespace Phrase

omit [Scalar α] in
theorem snapNote_ok {k : Key} {n snapped : Note α} (h : snapNote k n = .ok snapped) :
    (∃ pitch, snapped = { n with pitch }) ∧ (Drum.isDrum n.pitch = true → snapped = n) ∧
      snapped.InKey k := by
  unfold snapNote at h
  split at h
  · next hdrum =>
      cases h
      exact ⟨⟨n.pitch, rfl⟩, fun _ => rfl, fun hno => absurd hdrum (by rw [hno]; decide)⟩
  · next hdrum =>
      obtain ⟨pitch, hpitch, h⟩ := Outcome.bind_ok h
      cases h
      exact ⟨⟨pitch, rfl⟩, fun hyes => absurd hyes hdrum, fun _ => Key.inScale_snap hpitch⟩

end Phrase

/-! ## §3  Finished notes -/

/-- What a finish may have made of a note. -/
structure Finish.Keeps (f : Finish α) (n finished : Note α) : Prop where
  start : finished.start = n.start
  duration : finished.duration = n.duration
  timing : finished.timing = n.timing
  probability : finished.probability = n.probability
  glide : finished.glide = n.glide
  velocity : f.envelope = none → finished.velocity = n.velocity
  pitch : f.constrainToScale = false → finished.pitch = n.pitch
  drum : Drum.isDrum n.pitch = true → finished.pitch = n.pitch

namespace Phrase

theorem forall₂_applyEnvelope {f : Finish α} {velocity : α} {notes shaped : List (Note α)}
    {s s' : Session} (h : applyEnvelope f velocity notes s = .ok (shaped, s')) :
    List.Forall₂ (fun n n' => (∃ v, n' = { n with velocity := v }) ∧ (f.envelope = none → n' = n))
      notes shaped ∧ s'.stream = s.stream := by
  unfold applyEnvelope at h
  cases he : f.envelope with
  | none =>
      rw [he] at h
      cases h
      exact ⟨List.forall₂_same.2 fun n _ => ⟨⟨n.velocity, rfl⟩, fun _ => rfl⟩, rfl⟩
  | some e =>
      rw [he] at h
      obtain ⟨hnotes, hstream⟩ := Envelope.forall₂_apply h
      exact ⟨hnotes.imp fun n n' hn => ⟨hn, nofun⟩, hstream⟩

omit [Scalar α] in
theorem forall₂_applySnap {f : Finish α} {k : Key} {notes snapped : List (Note α)}
    (h : applySnap f k notes = .ok snapped) :
    List.Forall₂ (fun n n' => (∃ pitch, n' = { n with pitch }) ∧
      (f.constrainToScale = false → n' = n) ∧ (Drum.isDrum n.pitch = true → n' = n) ∧
      (f.constrainToScale = true → n'.InKey k)) notes snapped := by
  unfold applySnap at h
  split at h
  · next hsnap =>
      refine (Outcome.mapM_ok h).imp fun n n' hn => ?_
      obtain ⟨hpitch, hdrum, hkey⟩ := snapNote_ok hn
      exact ⟨hpitch, fun hno => absurd hsnap (by rw [hno]; decide), hdrum, fun _ => hkey⟩
  · next hsnap =>
      cases h
      exact List.forall₂_same.2 fun n _ =>
        ⟨⟨n.pitch, rfl⟩, fun _ => rfl, fun _ => rfl, fun hyes => absurd hyes hsnap⟩

/-- **A finish keeps every note**, in order, and draws nothing. -/
theorem forall₂_applyFinish {c : Context α} {f : Finish α} {notes finished : List (Note α)}
    {s s' : Session} (h : applyFinish c f notes s = .ok (finished, s')) :
    List.Forall₂ (fun n n' => f.Keeps n n' ∧ (f.constrainToScale = true → n'.InKey c.key))
      notes finished ∧ s'.stream = s.stream := by
  obtain ⟨shaped, s₁, hshaped, hlift⟩ := Run.bind_ok h
  obtain ⟨hsnapped, rfl⟩ := Run.lift_ok hlift
  obtain ⟨hshaped, hstream⟩ := forall₂_applyEnvelope hshaped
  refine ⟨forall₂_comp ?_ hshaped (forall₂_applySnap hsnapped), hstream⟩
  rintro n louder n' ⟨⟨v, rfl⟩, hlouder⟩ ⟨⟨pitch, rfl⟩, hpitch, hdrum, hkey⟩
  refine ⟨?_, hkey⟩
  exact {
    start := rfl, duration := rfl, timing := rfl, probability := rfl, glide := rfl
    velocity := fun hnone => (congrArg Note.velocity (hlouder hnone) :)
    pitch := fun hno => (congrArg Note.pitch (hpitch hno) :)
    drum := fun hyes => (congrArg Note.pitch (hdrum hyes) :) }

end Phrase

/-! ## §4  With a finish and without -/

namespace BasePattern

/-- The pattern without its envelope and without snapping. Its own velocity stays. -/
def unfinished (b : BasePattern α) : BasePattern α :=
  { b with finish := { b.finish with envelope := none, constrainToScale := false } }

/-- What an expansion is made of: the phrase of the content, and its notes after the finish. -/
theorem expand_ok {b : BasePattern α} {c : Context α} {p : Phrase α} {s s' : Session}
    (h : b.expand c s = .ok (p, s')) : ∃ plain s₁,
      Phrase.ofContent (Phrase.finishContext c b.finish) b.content s = .ok (plain, s₁) ∧
      Phrase.applyFinish (Phrase.finishContext c b.finish) b.finish plain.notes s₁ =
        .ok (p.notes, s') ∧ p.beats = plain.beats := by
  obtain ⟨plain, s₁, hplain, h⟩ := Run.bind_ok h
  obtain ⟨notes, s₂, hnotes, h⟩ := Run.bind_ok h
  cases h
  exact ⟨plain, s₁, hplain, hnotes, rfl⟩

theorem expand_unfinished {b : BasePattern α} {c : Context α} {p : Phrase α} {s s' : Session}
    (h : b.unfinished.expand c s = .ok (p, s')) :
    Phrase.ofContent (Phrase.finishContext c b.finish) b.content s = .ok (p, s') := by
  obtain ⟨plain, s₁, hplain, hnotes, hbeats⟩ := expand_ok h
  -- Without an envelope and without snapping the notes are handed on.
  obtain ⟨hsame, rfl⟩ := Prod.mk.inj (Except.ok.inj hnotes)
  cases p
  cases plain
  cases hsame
  cases hbeats
  exact hplain

/-- **A finish changes only what it says.** From the same random state, a pattern with its finish and
without it plays as many notes in as many beats and leaves the same random state. The notes agree one
by one in everything but velocities, if there is an envelope, and pitches that are no drums, if
pitches are snapped; and then every pitch belongs to the key. -/
theorem expand_finished {b : BasePattern α} {c : Context α} {t : Twister} {w w' : Warnings}
    {p q : Phrase α} {s s' : Session} (hp : b.expand c ⟨t, w⟩ = .ok (p, s))
    (hq : b.unfinished.expand c ⟨t, w'⟩ = .ok (q, s')) :
    p.beats = q.beats ∧ s.stream = s'.stream ∧ List.Forall₂ b.finish.Keeps q.notes p.notes ∧
      (b.finish.constrainToScale = true → ∀ n ∈ p.notes, n.InKey c.key) := by
  obtain ⟨plain, s₁, hplain, hfinished, hbeats⟩ := expand_ok hp
  have hq := expand_unfinished hq
  obtain ⟨hnotes, hstream⟩ := Phrase.forall₂_applyFinish hfinished
  -- What the content plays does not depend on the warnings so far.
  rcases (Phrase.heedless_ofContent _ b.content).twice t w w' with
    ⟨why, hstop, _⟩ | ⟨x, t₁, w₁, w₁', hx, hx'⟩
  · rw [hstop] at hplain
    cases hplain
  · rw [hx] at hplain
    rw [hx'] at hq
    cases hplain
    cases hq
    refine ⟨hbeats, hstream, hnotes.imp fun _ _ h => h.1, fun hsnap n hn => ?_⟩
    obtain ⟨_, _, _, hkey⟩ := exists_of_mem_right hnotes hn
    exact hkey hsnap

/-- Notes with sharps that grow louder and are snapped to the key. -/
def sharpNotes : BasePattern Rat where
  content := .notes ["F#4:q C4:8", "C#4:h"]
  finish := { envelope := some (.named "crescendo"), constrainToScale := true }

end BasePattern

/-- A track in C major with nothing to refer to. -/
def Context.inCMajor : Context Rat where
  key := ⟨⟨.c, .natural⟩, .major⟩
  tempo := 120
  patterns := []
  velocity := 4 / 5

/-- The theorem at work: two sharps that are raised to C major, and a note between them that is not. -/
theorem BasePattern.sharpNotes_finished : ∃ _ : Elementary, ∃ p q s s',
    sharpNotes.expand .inCMajor ⟨Twister.ofSeed 0, []⟩ = .ok (p, s) ∧
    sharpNotes.unfinished.expand .inCMajor ⟨Twister.ofSeed 0, ["before"]⟩ = .ok (q, s') ∧
    q.notes.map Note.pitch = ["F#4", "C4", "C#4"] ∧
    p.notes.map Note.pitch = ["G4", "C4", "D4"] ∧
    p.beats = q.beats ∧ s.stream = s'.stream ∧
    List.Forall₂ sharpNotes.finish.Keeps q.notes p.notes ∧
    ∀ n ∈ p.notes, n.InKey Context.inCMajor.key := by
  let _ := Elementary.coarse
  obtain ⟨⟨p, s⟩, hp, hpitches⟩ := Outcome.exists_of_any
    (r := sharpNotes.expand .inCMajor ⟨Twister.ofSeed 0, []⟩)
    (p := fun x => x.1.notes.map Note.pitch = ["G4", "C4", "D4"])
    (by decide +kernel)
  obtain ⟨⟨q, s'⟩, hq, hplain⟩ := Outcome.exists_of_any
    (r := sharpNotes.unfinished.expand .inCMajor ⟨Twister.ofSeed 0, ["before"]⟩)
    (p := fun x => x.1.notes.map Note.pitch = ["F#4", "C4", "C#4"])
    (by decide +kernel)
  obtain ⟨hbeats, hstream, hkeeps, hkey⟩ := expand_finished hp hq
  exact ⟨inferInstance, p, q, s, s', hp, hq, of_decide_eq_true hplain, of_decide_eq_true hpitches,
    hbeats, hstream, hkeeps, hkey rfl⟩

end Partitura

import Mathlib.Tactic.Ring
import Partitura.Melody.Transform
import Partitura.Number.Exact
import Partitura.Phrase.Literal
import Partitura.Proofs.Notation.Pitches

/-!
# Written notes stand one behind the other

The place of the next note goes on by written lengths alone. How long a note sounds is up to its
articulation and moves nothing (`ofTokensFrom_placed`), so each note begins where all that is written
before it ends, rests included. A melody that is fitted into another time is therefore stretched as a
whole (`ofTokensFrom_stretch`). `placed_by_written_lengths` says both of written notes and of tuplets.

Beats are counted exactly.
-/

namespace Partitura

variable {α : Type}

/-- Whether a token is a note. -/
def Token.sounds : Token α → Bool
  | note _ => true
  | rest _ => false

/-- How many notes there are among tokens. -/
def Melody.countNotes (ts : List (Token α)) : Nat :=
  ts.countP Token.sounds

@[simp] theorem Melody.countNotes_note (t : NoteToken α) (ts : List (Token α)) :
    countNotes (.note t :: ts) = countNotes ts + 1 :=
  List.countP_cons_of_pos rfl

@[simp] theorem Melody.countNotes_rest (l : Length) (ts : List (Token α)) :
    countNotes (.rest l :: ts) = countNotes ts :=
  List.countP_cons_of_neg Bool.false_ne_true

namespace Phrase

/-! ## §1  Playing one note and playing one melody after another -/

section

variable [Scalar α] {c : Context α} {useOwn : Bool} {start length scale : α} {t : NoteToken α}
  {n : Note α}

theorem noteOfToken_ok (c : Context α) (useOwn : Bool) (start length : α) (t : NoteToken α) :
    ∃ n, noteOfToken c useOwn start length t = .ok n := by
  obtain ⟨moved, hmoved, _⟩ := placePitch_text t.pitch c.octaveOffset c.transpose
  unfold noteOfToken Context.place
  rw [hmoved]
  exact ⟨_, rfl⟩

/-- A note depends on its place in nothing but its start. -/
theorem noteOfToken_elsewhere (h : noteOfToken c useOwn start length t = .ok n) (start' : α) :
    noteOfToken c useOwn start' length t = .ok { n with start := start' } := by
  obtain ⟨pitch, hpitch, hn⟩ := Outcome.bind_ok h
  cases hn
  unfold noteOfToken
  rw [hpitch]
  rfl

theorem start_noteOfToken (h : noteOfToken c useOwn start length t = .ok n) : n.start = start := by
  obtain ⟨pitch, _, hn⟩ := Outcome.bind_ok h
  cases hn
  rfl

theorem ofTokensFrom_note {notes : List (Note α)} {finish : α} {ts : List (Token α)}
    (hn : noteOfToken c useOwn start (t.beats * scale) t = .ok n)
    (h : ofTokensFrom c scale useOwn (start + t.beats * scale) ts = .ok (notes, finish)) :
    ofTokensFrom c scale useOwn start (.note t :: ts) = .ok (n :: notes, finish) := by
  simp only [ofTokensFrom, hn, h, Outcome.ok_bind]
  rfl

theorem of_ofTokensFrom_note {notes : List (Note α)} {finish : α} {ts : List (Token α)}
    (h : ofTokensFrom c scale useOwn start (.note t :: ts) = .ok (notes, finish)) :
    ∃ n more, noteOfToken c useOwn start (t.beats * scale) t = .ok n ∧
      ofTokensFrom c scale useOwn (start + t.beats * scale) ts = .ok (more, finish) ∧
      notes = n :: more := by
  obtain ⟨n, hn, h⟩ := Outcome.bind_ok h
  obtain ⟨⟨more, last⟩, hmore, h⟩ := Outcome.bind_ok h
  cases h
  exact ⟨n, more, hn, hmore, rfl⟩

/-- What is written behind other tokens is played from where these end. -/
theorem ofTokensFrom_append {ts us : List (Token α)} {notes more : List (Note α)}
    {middle finish : α} (hts : ofTokensFrom c scale useOwn start ts = .ok (notes, middle))
    (hus : ofTokensFrom c scale useOwn middle us = .ok (more, finish)) :
    ofTokensFrom c scale useOwn start (ts ++ us) = .ok (notes ++ more, finish) := by
  induction ts generalizing start notes with
  | nil =>
      cases hts
      exact hus
  | cons t ts ih =>
      cases t with
      | rest l => exact ih hts
      | note t =>
          obtain ⟨n, behind, hn, hbehind, rfl⟩ := of_ofTokensFrom_note hts
          exact ofTokensFrom_note hn (ih hbehind)

end

/-! ## §2  Where notes begin -/

variable [Elementary] {c : Context Rat} {useOwn : Bool} {start scale : Rat}

/-- The beats that tokens take as they are written: tuplets counted, rests included. -/
def writtenBeats (ts : List (Token Rat)) : Rat :=
  (ts.map Token.beats).sum

/-- Playing tokens takes the time that they are written for, and gives one note for each of theirs. -/
theorem ofTokensFrom_ok (c : Context Rat) (scale : Rat) (useOwn : Bool) (start : Rat)
    (ts : List (Token Rat)) : ∃ notes,
      ofTokensFrom c scale useOwn start ts = .ok (notes, start + scale * writtenBeats ts) ∧
      notes.length = Melody.countNotes ts := by
  induction ts generalizing start with
  | nil =>
      refine ⟨[], ?_, rfl⟩
      simp [ofTokensFrom, writtenBeats]
  | cons t ts ih =>
      obtain ⟨notes, hnotes, hlength⟩ := ih (start + t.beats * scale)
      have hfinish : start + t.beats * scale + scale * writtenBeats ts =
          start + scale * writtenBeats (t :: ts) := by
        simp only [writtenBeats, List.map_cons, List.sum_cons]
        ring
      rw [hfinish] at hnotes
      cases t with
      | rest l =>
          refine ⟨notes, hnotes, ?_⟩
          rw [hlength, Melody.countNotes_rest]
      | note t =>
          obtain ⟨n, hn⟩ := noteOfToken_ok c useOwn start (t.beats * scale) t
          refine ⟨n :: notes, ofTokensFrom_note hn hnotes, ?_⟩
          rw [List.length_cons, hlength, Melody.countNotes_note]

/-- **Every note begins where everything written before it ends.** -/
theorem ofTokensFrom_placed {before after : List (Token Rat)} {t : NoteToken Rat}
    {notes : List (Note Rat)} {finish : Rat}
    (h : ofTokensFrom c scale useOwn start (before ++ .note t :: after) = .ok (notes, finish)) :
    ∃ n, notes[Melody.countNotes before]? = some n ∧
      noteOfToken c useOwn (start + scale * writtenBeats before) (t.beats * scale) t = .ok n := by
  obtain ⟨ahead, hahead, hlength⟩ := ofTokensFrom_ok c scale useOwn start before
  obtain ⟨n, hn⟩ :=
    noteOfToken_ok c useOwn (start + scale * writtenBeats before) (t.beats * scale) t
  obtain ⟨behind, hbehind, _⟩ := ofTokensFrom_ok c scale useOwn
    (start + scale * writtenBeats before + t.beats * scale) after
  rw [ofTokensFrom_append hahead (ofTokensFrom_note hn hbehind)] at h
  cases h
  refine ⟨n, ?_, hn⟩
  rw [← hlength]
  simp

/-! ## §3  Another time -/

end Phrase

/-- The same note in a time that goes by so many times as slowly. -/
def Note.stretch (factor : Rat) (n : Note Rat) : Note Rat :=
  { n with start := n.start * factor, duration := n.duration * factor }

/-- The same notes in a time that goes by so many times as slowly. -/
def Phrase.stretch (factor : Rat) (p : Phrase Rat) : Phrase Rat where
  notes := p.notes.map (Note.stretch factor)
  beats := p.beats * factor

namespace Phrase

variable [Elementary] {c : Context Rat} {useOwn : Bool} {start scale : Rat}

theorem noteOfToken_stretch {length : Rat} {t : NoteToken Rat} {n : Note Rat}
    (h : noteOfToken c useOwn start length t = .ok n) (factor : Rat) :
    noteOfToken c useOwn (start * factor) (length * factor) t = .ok (n.stretch factor) := by
  obtain ⟨pitch, hpitch, hn⟩ := Outcome.bind_ok h
  cases hn
  have hduration : length * factor * t.articulation.gate = length * t.articulation.gate * factor := by
    ring
  unfold noteOfToken Note.stretch
  rw [hpitch, hduration]
  rfl

/-- Scaling written lengths stretches all that is played. -/
theorem ofTokensFrom_stretch {ts : List (Token Rat)} {notes : List (Note Rat)} {finish : Rat}
    (h : ofTokensFrom c scale useOwn start ts = .ok (notes, finish)) (factor : Rat) :
    ofTokensFrom c (scale * factor) useOwn (start * factor) ts =
      .ok (notes.map (Note.stretch factor), finish * factor) := by
  induction ts generalizing start notes with
  | nil =>
      cases h
      rfl
  | cons t ts ih =>
      have hplace (beats : Rat) : (start + beats * scale) * factor =
          start * factor + beats * (scale * factor) := by
        ring
      cases t with
      | rest l =>
          have hbehind := ih h
          rw [hplace] at hbehind
          exact hbehind
      | note t =>
          obtain ⟨n, more, hn, hmore, rfl⟩ := of_ofTokensFrom_note h
          have hstretched := noteOfToken_stretch hn factor
          rw [mul_assoc] at hstretched
          have hbehind := ih hmore
          rw [hplace] at hbehind
          exact ofTokensFrom_note hstretched hbehind

/-! ## §4  Written notes and tuplets -/

/-- Written notes are played from the beginning, once they are read. -/
theorem ofNotes_ok_iff {notes : List String} {ts : List (Token Rat)}
    (hread : Melody.tokens Rat notes = .ok ts) {p : Phrase Rat} :
    ofNotes c scale useOwn notes = .ok p ↔
      ofTokensFrom c scale useOwn 0 ts = .ok (p.notes, p.beats) := by
  have htokens : ofNotes c scale useOwn notes = ofTokens c scale useOwn ts := by
    change Melody.tokens Rat notes >>= ofTokens c scale useOwn = _
    rw [hread]
    rfl
  rw [htokens]
  unfold ofTokens
  rw [Exact.start_eq, Outcome.bind_ok_iff]
  constructor
  · rintro ⟨⟨played, beats⟩, hplayed, h⟩
    cases h
    exact hplayed
  · intro h
    exact ⟨_, h, rfl⟩

theorem ratioOf_pair {actual normal : Int} (hactual : 0 < actual) (hnormal : 0 < normal) :
    ratioOf [(.int actual : Value Rat), .int normal] = .ok (actual.toNat, normal.toNat) := by
  unfold ratioOf ratioPart?
  simp only [if_pos hactual, if_pos hnormal]

/-- **Written notes are placed by the written lengths before them.** Notes that can be read can be
played at every scale: one note for each that is written, in order, beginning at the scaled sum of
all lengths before it, and the phrase ends at the scaled sum of all. So a tuplet of so many notes in
the time of so many others is what the notes are without it, stretched by the quotient. -/
theorem placed_by_written_lengths (c : Context Rat) {notes : List String} {ts : List (Token Rat)}
    (hread : Melody.tokens Rat notes = .ok ts) :
    (∀ (scale : Rat) (useOwn : Bool), ∃ p, ofNotes c scale useOwn notes = .ok p ∧
      p.beats = scale * writtenBeats ts ∧ p.notes.length = Melody.countNotes ts ∧
      ∀ before t after, ts = before ++ .note t :: after →
        ∃ n, p.notes[Melody.countNotes before]? = some n ∧
          n.start = scale * writtenBeats before ∧
          noteOfToken c useOwn (scale * writtenBeats before) (t.beats * scale) t = .ok n) ∧
    ∀ actual normal : Int, 0 < actual → 0 < normal → ∃ p,
      ofNotes c 1.0 true notes = .ok p ∧
      ofTuplet c [.int actual, .int normal] notes = .ok (p.stretch (normal / actual)) := by
  constructor
  · intro scale useOwn
    obtain ⟨played, hplayed, hlength⟩ := ofTokensFrom_ok c scale useOwn 0 ts
    rw [zero_add] at hplayed
    refine ⟨⟨played, scale * writtenBeats ts⟩, (ofNotes_ok_iff hread).2 hplayed, rfl, hlength, ?_⟩
    rintro before t after rfl
    obtain ⟨n, hget, hn⟩ := ofTokensFrom_placed hplayed
    rw [zero_add] at hn
    exact ⟨n, hget, start_noteOfToken hn, hn⟩
  · intro actual normal hactual hnormal
    obtain ⟨played, hplayed, _⟩ := ofTokensFrom_ok c 1.0 true 0 ts
    refine ⟨⟨played, 0 + 1.0 * writtenBeats ts⟩, (ofNotes_ok_iff hread).2 hplayed, ?_⟩
    have hquotient : quotientOf (normal.toNat : Int) actual.toNat =
        .ok (1.0 * (normal / actual) : Rat) := by
      rw [Int.toNat_of_nonneg hnormal.le, Int.toNat_of_nonneg hactual.le,
        Exact.quotientOf_eq _ hactual.ne']
      norm_num
    have hstretched := ofTokensFrom_stretch hplayed (normal / actual)
    rw [zero_mul] at hstretched
    unfold ofTuplet
    rw [ratioOf_pair hactual hnormal]
    change (quotientOf (normal.toNat : Int) actual.toNat >>= fun scale =>
      ofNotes c scale true notes) = _
    rw [hquotient, Outcome.ok_bind]
    refine (ofNotes_ok_iff hread).2 ?_
    exact hstretched

/-- A short note of a triplet, a rest and a long note. -/
def stumble : List String :=
  ["C4:8t3* r:q", "E4:h."]

def stumbleTokens : List (Token Rat) :=
  [.note { pitch := ⟨⟨.c, .natural⟩, 4⟩, length := ⟨.eighth, false⟩, tuplet := some 3,
           articulation := .staccato },
   .rest ⟨.quarter, false⟩,
   .note { pitch := ⟨⟨.e, .natural⟩, 4⟩, length := ⟨.half, true⟩ }]

theorem tokens_stumble : Melody.tokens Rat stumble = .ok stumbleTokens :=
  rfl

/-- A track that moves nothing. -/
def plainContext : Context Rat where
  key := { root := ⟨.c, .natural⟩, mode := .major }
  tempo := 120
  patterns := []
  velocity := 4 / 5

omit [Elementary] in
/-- The theorem at work: the notes by themselves, the second of them after the triplet and the rest,
and five of them in the time of four. -/
theorem stumble_placed : ∃ _ : Elementary, Melody.tokens Rat stumble = .ok stumbleTokens ∧
    (∃ p, ofNotes plainContext 1.0 true stumble = .ok p ∧ p.beats = 13 / 3 ∧
      p.notes.length = 2 ∧ ∃ n, p.notes[1]? = some n ∧ n.start = 4 / 3) ∧
    ((0 : Int) < 5 ∧ (0 : Int) < 4) ∧ ∃ p, ofNotes plainContext 1.0 true stumble = .ok p ∧
      ofTuplet plainContext [.int 5, .int 4] stumble = .ok (p.stretch ((4 : Int) / (5 : Int))) := by
  let _ := Elementary.coarse
  obtain ⟨hplaced, htuplet⟩ := placed_by_written_lengths plainContext tokens_stumble
  refine ⟨inferInstance, tokens_stumble, ?_, by decide, htuplet 5 4 (by decide) (by decide)⟩
  obtain ⟨p, hp, hbeats, hlength, hstarts⟩ := hplaced 1.0 true
  obtain ⟨n, hn, hstart, _⟩ := hstarts (stumbleTokens.take 2) _ [] rfl
  have hwhole : 1.0 * writtenBeats stumbleTokens = 13 / 3 := by decide +kernel
  have hbefore : 1.0 * writtenBeats (stumbleTokens.take 2) = 4 / 3 := by decide +kernel
  exact ⟨p, hp, hbeats.trans hwhole, hlength, n, hn, hstart.trans hbefore⟩

end Phrase

end Partitura

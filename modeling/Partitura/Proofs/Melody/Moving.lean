import Partitura.Pattern.Resolution
import Partitura.Proofs.Notation.Pitches
import Partitura.Proofs.Notation.Writing

/-!
# Moving a melody and reading it again

A melody that is moved is written with sharps, and read again before it is played or moved once more.
Nothing else of its notes changes on the way if their numbers are read back. What may go wrong is the
octave: one digit has to tell it, so the moved notes must lie within reach (`Token.InReach`), after
the semitones and again after the octaves (`shiftNotes_ok_iff`).
-/

namespace Partitura

open Notation

variable {α : Type} [Scalar α]

/-! ## §1 Written tokens -/

namespace Token

/-- The characters of a token that is shown, digits aside. -/
def textMarks : List Char :=
  'r' :: NoteToken.textMarks

theorem mem_text {t : Token α} {c : Char} (h : c ∈ t.text.toList) :
    Text.isDigit c = true ∨ c ∈ textMarks := by
  cases t with
  | note n => exact (NoteToken.mem_text h).imp_right (List.mem_cons_of_mem _)
  | rest l =>
      have hrest : ∀ l : Length, ∀ c ∈ ("r:" ++ l.text).toList,
          Text.isDigit c = true ∨ c ∈ textMarks := by
        rintro ⟨code, dotted⟩
        cases code <;> cases dotted <;> decide
      exact hrest l c h

/-- A token that is shown holds no blank and no bar line. -/
theorem isBlank_of_mem_text {t : Token α} {c : Char} (h : c ∈ t.text.toList) :
    Text.isBlank c = false ∧ c ≠ '|' := by
  have hmarks : ∀ c ∈ textMarks, Text.isBlank c = false ∧ c ≠ '|' := by decide
  refine (mem_text h).elim (fun hdigit => ⟨Text.isBlank_of_isDigit hdigit, ?_⟩) (hmarks c)
  rintro rfl
  cases hdigit

end Token

namespace Compact

/-- What is written one token a text is not compact. -/
theorem notesOf_text (t : Token α) : notesOf t.text = [t.text] := by
  have hstrip : Text.stripChars t.text.toList = t.text.toList :=
    Text.stripChars_of_not_blank fun c hc => (Token.isBlank_of_mem_text hc).1
  have hspace : ' ' ∉ t.text.toList := fun h => absurd (Token.isBlank_of_mem_text h).1 (by decide)
  have hbar : '|' ∉ t.text.toList := fun h => (Token.isBlank_of_mem_text h).2 rfl
  unfold notesOf Text.strip
  rw [hstrip, if_neg (by simp [hspace, hbar]), String.ofList_toList]

/-- Notes that stand alone are not split. -/
theorem expand_of_single {texts : List String} (h : ∀ text ∈ texts, notesOf text = [text]) :
    expand texts = texts := by
  unfold expand
  rw [List.flatMap_congr h]
  exact List.flatMap_singleton' texts

end Compact

/-- A melody that is written is read token by token. -/
theorem Melody.tokens_write (ts : List (Token α)) :
    Melody.tokens α (Melody.write ts) = (Melody.write ts).mapM Token.parse := by
  have hsingle : ∀ text ∈ Melody.write ts, Compact.notesOf text = [text] := by
    unfold Melody.write
    exact List.forall_mem_map.2 fun t _ => Compact.notesOf_text t
  unfold Melody.tokens
  rw [Compact.expand_of_single hsingle]

namespace Token

/-- What is to be said of every token that is read. -/
def Readable : Token α → Prop
  | note n => n.Readable
  | rest _ => True

theorem readable_of_parse {text : String} {t : Token α} (h : parse text = .ok t) : t.Readable := by
  cases t with
  | note n => exact NoteToken.readable_of_parse (parse_note_iff.1 h)
  | rest l => trivial

/-- A token whose numbers are read back is read back. -/
theorem parse_text {t : Token α} (hreadable : t.Readable) (hrestorable : t.Restorable) :
    parse t.text = .ok t := by
  cases t with
  | note n => exact parse_note_iff.2 (NoteToken.parse_text hreadable hrestorable)
  | rest l => exact parse_rest_text l

end Token

namespace Melody

theorem readable_of_tokens {notes : List String} {ts : List (Token α)}
    (h : tokens α notes = .ok ts) : ∀ t ∈ ts, t.Readable := by
  intro t ht
  obtain ⟨text, _, htext⟩ := exists_of_mem_right (Outcome.mapM_ok h) ht
  exact Token.readable_of_parse htext

/-- A melody is read back from what is written of it. -/
theorem tokens_write_of_readable {ts : List (Token α)} (hreadable : ∀ t ∈ ts, t.Readable)
    (hrestorable : ∀ t ∈ ts, t.Restorable) : tokens α (write ts) = .ok ts := by
  rw [tokens_write]
  exact Outcome.mapM_map_eq_self fun t ht => Token.parse_text (hreadable t ht) (hrestorable t ht)

end Melody

/-! ## §2 Moving a token and reading it again -/

namespace Token

/-- Changing its pitch leaves the numbers of a note alone. -/
theorem Restorable.mapMidi {t : Token α} (h : t.Restorable) (f : Int → Int) :
    (Melody.mapMidi f t).Restorable := by
  cases t with
  | note n => exact ⟨h.velocity, h.probability⟩
  | rest l => trivial

omit [Scalar α] in
theorem Readable.mapMidi {f : Int → Int} {t : Token α} (h : t.Readable)
    (hreach : ∀ n, t = .note n → -96 ≤ f n.pitch.midi ∧ f n.pitch.midi ≤ 131) :
    (Melody.mapMidi f t).Readable := by
  cases t with
  | note n => exact ⟨(Pitch.natAbs_octave_ofMidi _).2 (hreach n rfl), h.tuplet⟩
  | rest l => trivial

/-- One digit tells the octave of a note that is moved by so many semitones. -/
def InReach (semitones : Int) : Token α → Prop
  | note n => -96 ≤ n.pitch.midi + semitones ∧ n.pitch.midi + semitones ≤ 131
  | rest _ => True

/-- A token moved by semitones. -/
def moved (semitones : Int) (t : Token α) : Token α :=
  Melody.mapMidi (· + semitones) t

omit [Scalar α] in
theorem moved_moved (a b : Int) (t : Token α) : (t.moved a).moved b = t.moved (a + b) := by
  cases t with
  | note n =>
      unfold moved Melody.mapMidi NoteToken.withMidi
      simp only [Pitch.midi_ofMidi, add_assoc]
  | rest l => rfl

omit [Scalar α] in
theorem inReach_moved {a b : Int} {t : Token α} : (t.moved a).InReach b ↔ t.InReach (a + b) := by
  cases t with
  | note n =>
      unfold moved Melody.mapMidi NoteToken.withMidi InReach
      simp only [Pitch.midi_ofMidi, add_assoc]
  | rest l => exact Iff.rfl

theorem Restorable.moved {t : Token α} (h : t.Restorable) (semitones : Int) :
    (t.moved semitones).Restorable :=
  h.mapMidi (· + semitones)

omit [Scalar α] in
theorem Readable.moved {semitones : Int} {t : Token α} (h : t.Readable)
    (hreach : t.InReach semitones) : (t.moved semitones).Readable := by
  refine h.mapMidi ?_
  rintro n rfl
  exact hreach

/-- A moved token is read again, as it is, if and only if it is in reach. -/
theorem parse_moved_iff {semitones : Int} {t t' : Token α} (hreadable : t.Readable)
    (hrestorable : t.Restorable) : parse (t.moved semitones).text = .ok t' ↔
      t.InReach semitones ∧ t' = t.moved semitones := by
  cases t with
  | note n =>
      have hback (hreach : (note n).InReach semitones) : parse ((note n).moved semitones).text =
          .ok ((note n).moved semitones) :=
        parse_text (hreadable.moved hreach) (hrestorable.moved semitones)
      constructor
      · intro h
        obtain ⟨m, rfl, hm⟩ := exists_of_parse_text h
        have hreach : (note n : Token α).InReach semitones :=
          (Pitch.natAbs_octave_ofMidi _).1 (NoteToken.octave_le_of_parse hm)
        rw [hback hreach] at h
        exact ⟨hreach, (Except.ok.inj h).symm⟩
      · rintro ⟨hreach, rfl⟩
        exact hback hreach
  | rest l =>
      have hback : parse ((rest l).moved semitones).text = .ok (rest l : Token α) :=
        parse_rest_text l
      rw [hback]
      constructor
      · intro h
        exact ⟨trivial, (Except.ok.inj h).symm⟩
      · rintro ⟨_, rfl⟩
        rfl

end Token

/-- A moved melody is read again, as it is, if and only if all of it is in reach. -/
theorem Melody.tokens_moved_iff {semitones : Int} {ts ts' : List (Token α)}
    (hreadable : ∀ t ∈ ts, t.Readable) (hrestorable : ∀ t ∈ ts, t.Restorable) :
    Melody.tokens α (Melody.write (ts.map (Token.moved semitones))) = .ok ts' ↔
      (∀ t ∈ ts, t.InReach semitones) ∧ ts' = ts.map (Token.moved semitones) := by
  rw [tokens_write]
  unfold write
  rw [List.map_map, List.mapM_map]
  exact Outcome.mapM_ok_iff (fun t ht t' =>
    Token.parse_moved_iff (hreadable t ht) (hrestorable t ht)) ts'

/-! ## §3 Semitones and then octaves -/

/-- Every note lies in reach after the semitones, and again after the octaves; a move by nothing is
not made. -/
def WithinReach (semitones octaves : Int) (ts : List (Token α)) : Prop :=
  (semitones = 0 ∨ ∀ t ∈ ts, t.InReach semitones) ∧
    (octaves = 0 ∨ ∀ t ∈ ts, t.InReach (semitones + octaveSize * octaves))

/-- The tokens of a melody after the move. Without one they keep their spelling. -/
def movedTokens (semitones octaves : Int) (ts : List (Token α)) : List (Token α) :=
  if semitones = 0 ∧ octaves = 0 then ts
  else ts.map (Token.moved (semitones + octaveSize * octaves))

theorem Melody.transpose_ok {notes : List String} {ts : List (Token α)} {semitones : Int}
    (hmove : semitones ≠ 0) (hread : Melody.tokens α notes = .ok ts) :
    Melody.transpose α notes semitones =
      .ok (Melody.write (ts.map (Token.moved semitones))) := by
  have htoken : transposeToken (α := α) semitones = Token.moved semitones := by
    funext t
    exact if_neg hmove
  unfold Melody.transpose
  rw [hread, htoken]
  rfl

/-- The octaves are moved like semitones, after them. -/
theorem transpose_octave_iff {notes : List String} {ts ts' : List (Token α)} {octaves : Int}
    (hmove : octaves ≠ 0) (hread : Melody.tokens α notes = .ok ts)
    (hreadable : ∀ t ∈ ts, t.Readable) (hrestorable : ∀ t ∈ ts, t.Restorable) :
    (Melody.transpose α notes (octaves * octaveSize) >>= Melody.tokens α) = .ok ts' ↔
      (∀ t ∈ ts, t.InReach (octaveSize * octaves)) ∧
        ts' = ts.map (Token.moved (octaveSize * octaves)) := by
  have hmove' : octaveSize * octaves ≠ 0 := by
    unfold octaveSize
    omega
  rw [mul_comm octaves, Melody.transpose_ok hmove' hread]
  exact Melody.tokens_moved_iff hreadable hrestorable

/-- A melody that is moved twice is read in between. -/
theorem transpose_twice_iff {notes : List String} {ts ts' : List (Token α)}
    {semitones octaves : Int} (hsemitones : semitones ≠ 0) (hoctaves : octaves ≠ 0)
    (hread : Melody.tokens α notes = .ok ts) (hreadable : ∀ t ∈ ts, t.Readable)
    (hrestorable : ∀ t ∈ ts, t.Restorable) :
    (Melody.transpose α notes semitones >>= fun moved =>
        Melody.transpose α moved (octaves * octaveSize) >>= Melody.tokens α) = .ok ts' ↔
      ((∀ t ∈ ts, t.InReach semitones) ∧
        ∀ t ∈ ts, t.InReach (semitones + octaveSize * octaves)) ∧
        ts' = ts.map (Token.moved (semitones + octaveSize * octaves)) := by
  have hbetween (ts₁) : Melody.tokens α (Melody.write (ts.map (Token.moved semitones))) = .ok ts₁ ↔
      (∀ t ∈ ts, t.InReach semitones) ∧ ts₁ = ts.map (Token.moved semitones) :=
    Melody.tokens_moved_iff hreadable hrestorable
  have hagain (hreach : ∀ t ∈ ts, t.InReach semitones) :
      (Melody.transpose α (Melody.write (ts.map (Token.moved semitones))) (octaves * octaveSize) >>=
          Melody.tokens α) = .ok ts' ↔
        (∀ t ∈ ts, t.InReach (semitones + octaveSize * octaves)) ∧
          ts' = ts.map (Token.moved (semitones + octaveSize * octaves)) := by
    rw [transpose_octave_iff hoctaves ((hbetween _).2 ⟨hreach, rfl⟩)
      (List.forall_mem_map.2 fun t ht => (hreadable t ht).moved (hreach t ht))
      (List.forall_mem_map.2 fun t ht => (hrestorable t ht).moved semitones)]
    simp only [List.forall_mem_map, Token.inReach_moved, List.map_map, Function.comp_def,
      Token.moved_moved]
  rw [Melody.transpose_ok hsemitones hread]
  change (Melody.transpose α (Melody.write (ts.map (Token.moved semitones)))
    (octaves * octaveSize) >>= Melody.tokens α) = .ok ts' ↔ _
  constructor
  · intro h
    have hreach : ∀ t ∈ ts, t.InReach semitones := by
      obtain ⟨_, htransposed, _⟩ := Outcome.bind_ok h
      obtain ⟨ts₁, hts₁, _⟩ := Outcome.bind_ok htransposed
      exact ((hbetween ts₁).1 hts₁).1
    obtain ⟨hreach', hts'⟩ := (hagain hreach).1 h
    exact ⟨⟨hreach, hreach'⟩, hts'⟩
  · rintro ⟨⟨hreach, hreach'⟩, hts'⟩
    exact (hagain hreach).2 ⟨hreach', hts'⟩

/-- **A melody that is moved can be read again if and only if it stays within reach, and then it is
the melody with every note moved.** -/
theorem shiftNotes_ok_iff {notes : List String} {ts ts' : List (Token α)} {semitones octaves : Int}
    (hread : Melody.tokens α notes = .ok ts) (hrestorable : ∀ t ∈ ts, t.Restorable) :
    (shiftNotes α semitones octaves notes >>= Melody.tokens α) = .ok ts' ↔
      WithinReach semitones octaves ts ∧ ts' = movedTokens semitones octaves ts := by
  have hreadable := Melody.readable_of_tokens hread
  unfold shiftNotes WithinReach movedTokens
  by_cases hsemitones : semitones = 0
  · subst hsemitones
    by_cases hoctaves : octaves = 0
    · subst hoctaves
      change Melody.tokens α notes = .ok ts' ↔ _
      rw [hread]
      simp [eq_comm]
    · simp only [if_true, pure_bind, zero_add, hoctaves, and_false, if_false,
        true_or, true_and, false_or]
      exact transpose_octave_iff hoctaves hread hreadable hrestorable
  · by_cases hoctaves : octaves = 0
    · subst hoctaves
      simp only [if_true, bind_pure, mul_zero, add_zero, hsemitones, if_false, false_or, true_or,
        and_true]
      rw [Melody.transpose_ok hsemitones hread]
      exact Melody.tokens_moved_iff hreadable hrestorable
    · simp only [hsemitones, hoctaves, false_and, if_false, false_or, bind_assoc]
      exact transpose_twice_iff hsemitones hoctaves hread hreadable hrestorable

end Partitura

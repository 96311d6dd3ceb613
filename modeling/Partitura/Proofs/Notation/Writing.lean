import Partitura.Number.Exact
import Partitura.Proofs.Notation.Pitches

/-!
# A note is read back from its text if its numbers are

A note that was read is written again after it has been moved or changed. All of it survives this but
for its velocity and its probability, which are shown with six significant digits and, when they are
small, with an exponent that notes do not have. A note is read back if and only if these numbers are
(`Token.parse_text_iff`).
-/

namespace Partitura

namespace Notation

/-! ## §1 Numbers that are shown -/

/-- A digit of any script or a point. -/
def isFigure (c : Char) : Bool :=
  Text.isDigit c || c = '.'

theorem isFigure_of_mem {f : Figure} {c : Char} (h : c ∈ f.chars) : isFigure c = true := by
  unfold isFigure
  rcases mem_figure h with hdigit | rfl
  · simp [hdigit]
  · rfl

theorem Figure.chars_ne_nil (f : Figure) : f.chars ≠ [] := by
  have hback := f.back.ne_nil
  unfold chars
  split <;> simp [hback]

variable {α : Type} [Scalar α]

theorem isFigure_of_isFigure {c : Char} (h : Decimal.IsFigure c) : isFigure c = true := by
  unfold isFigure
  rcases h with hdigit | rfl
  · simp [Text.isDigit_of_isDigit hdigit]
  · rfl

/-- A figure that looks like a shown number is what is shown: both end where their digits do. -/
theorem eq_chars_of_shown {f : Figure} {x : α} {rest rest' : Chars}
    (h : f.chars ++ rest = (Scalar.general x).toList ++ rest')
    (hrest : Begins ['+', '-', '?', '~'] rest) (hrest' : Begins ['+', '-', '?', '~'] rest') :
    (Scalar.general x).toList = f.chars := by
  obtain ⟨front, back, hshown, hfront, hback⟩ := Scalar.exists_shown x
  have hstop : ∀ c ∈ (back ++ rest').head?, isFigure c = false := by
    cases hback with
    | nothing => exact hrest'.not_mem (by decide)
    | word c cs hc =>
        have hword : ∀ c ∈ ['e', 'i', 'n'], isFigure c = false := by decide
        rintro _ ⟨⟩
        exact hword c hc
    | negative cs =>
        rintro _ ⟨⟩
        rfl
  obtain ⟨htake, hdrop⟩ := span_append (fun c hc => isFigure_of_isFigure (hfront c hc)) hstop
  obtain ⟨htake', hdrop'⟩ := span_append (fun c hc => isFigure_of_mem (f := f) hc)
    (hrest.not_mem (by decide))
  rw [hshown, List.append_assoc] at h
  rw [← h] at htake hdrop
  obtain rfl : f.chars = front := htake'.symm.trans htake
  obtain rfl : rest = back ++ rest' := hdrop'.symm.trans hdrop
  cases hback with
  | nothing => rw [hshown, List.append_nil]
  | word c cs hc =>
      have hno : ∀ c ∈ ['e', 'i', 'n'], c ∉ ['+', '-', '?', '~'] := by decide
      exact absurd (hrest c rfl) (hno c hc)
  | negative cs hnil => exact absurd hnil f.chars_ne_nil

/-- No shown number looks like a dynamic: they differ in their first character. -/
theorem name_ne_shown {d : Dynamic} {x : α} {rest rest' : Chars}
    (hrest' : Begins ['+', '-', '?', '~'] rest') :
    d.name.toList ++ rest ≠ (Scalar.general x).toList ++ rest' := by
  obtain ⟨c, cs, hname, hc⟩ : ∃ c cs, d.name.toList = c :: cs ∧ c ∈ ['p', 'm', 'f'] := by
    cases d <;> exact ⟨_, _, rfl, by decide⟩
  have hinitials : ∀ c ∈ ['p', 'm', 'f'],
      isFigure c = false ∧ c ∉ ['+', '-', '?', '~'] ∧ c ∉ ['e', 'i', 'n'] := by decide
  obtain ⟨hfigure, hmark, hword⟩ := hinitials c hc
  obtain ⟨front, back, hshown, hfront, hback⟩ := Scalar.exists_shown x
  intro h
  rw [hname, List.cons_append, hshown, List.append_assoc] at h
  cases front with
  | cons c' front =>
      obtain ⟨rfl, _⟩ := List.cons.inj h
      rw [isFigure_of_isFigure (hfront c List.mem_cons_self)] at hfigure
      cases hfigure
  | nil =>
      cases hback with
      | nothing =>
          obtain rfl : rest' = c :: (cs ++ rest) := h.symm
          exact absurd (hrest' c rfl) hmark
      | word c' cs' hc' =>
          obtain ⟨rfl, _⟩ := List.cons.inj h
          exact absurd hc' hword
      | negative cs' =>
          obtain ⟨rfl, _⟩ := List.cons.inj h
          exact absurd (by decide) hmark

/-- A number is read back: the text that shows it is a number of a note, and no other one. -/
def ReadsBack (x : α) : Prop :=
  ∃ f : Figure, (Scalar.general x).toList = f.chars ∧ f.decimal.value = x ∧ Spelling.InUnit x

theorem exists_figure {o : Option α} (h : ∀ x ∈ o, ReadsBack x) : ∃ f : Option Figure,
    f.map (·.decimal.value) = o ∧ (∀ g ∈ f, Spelling.InUnit (g.decimal.value : α)) ∧
      ∀ mark : Char, ifGiven (fun x => mark :: (Scalar.general x).toList) o =
        ifGiven (fun g => mark :: g.chars) f := by
  cases o with
  | none => exact ⟨none, rfl, nofun, fun _ => rfl⟩
  | some x =>
      obtain ⟨f, hchars, hvalue, hunit⟩ := h x rfl
      refine ⟨some f, by simp [hvalue], ?_, fun mark => by simp [ifGiven, hchars]⟩
      rintro _ ⟨⟩
      exact hvalue ▸ hunit

end Notation

/-! ## §2 Notes -/

namespace NoteToken

open Notation

variable {α : Type} [Scalar α] {n : NoteToken α}

/-- The spelling that a note is written in, with its numbers written in these ways. -/
def spelling (n : NoteToken α) (octave : ShortOctave) (velocity probability : Option Figure) :
    Spelling where
  small := false
  letter := n.pitch.name.letter
  accidental := n.pitch.name.accidental
  octave := some octave
  code := n.length.code
  dotted := n.length.dotted
  tuplet := n.tuplet.map Digits.ofNat
  articulation := n.articulation
  early := n.glide
  loudness := velocity.map Loudness.figure
  shift := n.timing.map Shift.ofInt
  probability := probability
  late := false

/-- The text of a note up to its velocity. -/
def frontText (n : NoteToken α) : Chars :=
  n.pitch.text.toList ++ [':'] ++ n.length.text.toList ++
    ifGiven (fun t => 't' :: (toString t).toList) n.tuplet ++ n.articulation.text.toList ++
    glideMark n.glide

/-- The text of the shift. -/
def shiftText (n : NoteToken α) : Chars :=
  ifGiven (fun t => (signedText t ++ "ms").toList) n.timing

/-- The text of the velocity and of the shift. -/
def middleText (n : NoteToken α) : Chars :=
  ifGiven (fun x => '@' :: (Scalar.general x).toList) n.velocity ++ n.shiftText

/-- The text of the probability. -/
def chanceText (n : NoteToken α) : Chars :=
  ifGiven (fun x => '?' :: (Scalar.general x).toList) n.probability

theorem toList_text (n : NoteToken α) :
    n.text.toList = n.frontText ++ n.middleText ++ n.chanceText := by
  obtain ⟨pitch, length, tuplet, articulation, glide, velocity, timing, probability⟩ := n
  unfold text frontText middleText shiftText chanceText
  cases tuplet <;> cases glide <;> cases velocity <;> cases timing <;> cases probability <;>
    simp [ifGiven, glideMark]

omit [Scalar α] in
theorem front_spelling (hoctave : n.pitch.octave.natAbs ≤ 9) (v p : Option Figure) :
    (n.spelling (.ofInt n.pitch.octave hoctave) v p).front = n.frontText := by
  obtain ⟨pitch, ⟨code, dotted⟩, tuplet, articulation, glide, velocity, timing, probability⟩ := n
  unfold Spelling.front frontText spelling Pitch.text PitchName.text Length.text
  cases tuplet <;> cases dotted <;> simp [ifGiven, Spelling.letterChar]

/-- The velocity and the probability of a note are read back. -/
structure Restorable (n : NoteToken α) : Prop where
  velocity : ∀ x ∈ n.velocity, ReadsBack x
  probability : ∀ x ∈ n.probability, ReadsBack x

/-- What is to be said of the octave and of the tuplet of every note that is read. -/
structure Readable (n : NoteToken α) : Prop where
  octave : n.pitch.octave.natAbs ≤ 9
  tuplet : ∀ t ∈ n.tuplet, 2 ≤ t ∧ t ≤ 9

theorem readable_of_parse {text : String} (h : parse text = .ok n) : n.Readable := by
  obtain ⟨s, _, hallowed, rfl⟩ := (parse_ok_iff n).1 h
  constructor
  · unfold Spelling.token
    cases s.octave with
    | none => exact (by decide : (4 : Int).natAbs ≤ 9)
    | some o => exact o.natAbs_value_le
  · intro t ht
    obtain ⟨ds, hds, rfl⟩ := Option.map_eq_some_iff.1 ht
    exact hallowed.tuplet ds hds

/-- A note whose numbers are read back is read back. -/
theorem parse_text (hreadable : n.Readable) (h : n.Restorable) : parse n.text = .ok n := by
  obtain ⟨v, hv, hvunit, hvchars⟩ := exists_figure h.velocity
  obtain ⟨p, hp, hpunit, hpchars⟩ := exists_figure h.probability
  refine (parse_ok_iff n).2 ⟨n.spelling (.ofInt _ hreadable.octave) v p, ?_, ?_, ?_⟩
  · refine Spelling.writes_ofList _ ?_
    rw [toList_text, Spelling.chars_eq_front, front_spelling, middleText, hvchars, chanceText,
      hpchars]
    unfold shiftText Spelling.expression Spelling.delay Spelling.chance spelling
    cases v <;> cases n.timing <;> simp [ifGiven, Loudness.chars, glideMark]
  · refine ⟨fun ds hds => ?_, fun f hf => ?_, hpunit⟩
    · obtain ⟨t, ht, rfl⟩ := Option.map_eq_some_iff.1 hds
      rw [Digits.value_ofNat]
      exact hreadable.tuplet t ht
    · obtain ⟨g, hg, ⟨⟩⟩ := Option.map_eq_some_iff.1 hf
      exact hvunit _ hg
  · obtain ⟨pitch, length, tuplet, articulation, glide, velocity, timing, probability⟩ := n
    subst hv hp
    simp [Spelling.token, spelling, Function.comp_def, Loudness.velocity]

omit [Scalar α] in
theorem mem_frontText {c : Char} (h : c ∈ n.frontText) :
    Text.isDigit c = true ∨ c ∈ Spelling.frontMarks := by
  obtain ⟨⟨name, octave⟩, length, tuplet, articulation, glide, velocity, timing, probability⟩ := n
  -- Whatever the octave is, the rest of the text is that of a note that can be spelled.
  let m : NoteToken α := ⟨⟨name, 0⟩, length, tuplet, articulation, glide, none, none, none⟩
  have hcases : c ∈ (toString octave).toList ∨ c ∈ m.frontText := by
    simp only [m, frontText, Pitch.text, String.toList_append, List.mem_append] at h ⊢
    tauto
  rcases hcases with h | h
  · rcases mem_toString h with hdigit | rfl
    · exact .inl (Text.isDigit_of_isDigit hdigit)
    · exact .inr (by decide)
  · have hoctave : m.pitch.octave.natAbs ≤ 9 := Nat.zero_le 9
    rw [← front_spelling hoctave none none] at h
    exact Spelling.mem_front h

/-- The characters of a velocity and of a shift that are shown, digits aside. -/
def middleMarks : List Char :=
  '@' :: 'm' :: 's' :: Scalar.shownMarks

theorem mem_middleText {c : Char} (h : c ∈ n.middleText) :
    Text.isDigit c = true ∨ c ∈ middleMarks := by
  rcases List.mem_append.1 h with h | h
  · obtain ⟨x, _, hx⟩ := mem_ifGiven h
    have hmarks : ∀ c ∈ Scalar.shownMarks, c ∈ middleMarks := by decide
    rcases List.mem_cons.1 hx with rfl | hx
    · exact .inr (by decide)
    · exact (Scalar.mem_shown hx).imp Text.isDigit_of_isDigit (hmarks c)
  · obtain ⟨t, _, ht⟩ := mem_ifGiven h
    have hmarks : ∀ c ∈ ['+', '-', 'm', 's'], c ∈ middleMarks := by decide
    rw [← Shift.chars_ofInt] at ht
    exact (mem_shift ht).imp_right (hmarks c)

/-- The characters of a note that is shown, digits aside. -/
def textMarks : List Char :=
  '?' :: (Spelling.frontMarks ++ middleMarks)

theorem mem_text {c : Char} (h : c ∈ n.text.toList) : Text.isDigit c = true ∨ c ∈ textMarks := by
  have hfront : ∀ c ∈ Spelling.frontMarks, c ∈ textMarks := by decide
  have hmiddle : ∀ c ∈ middleMarks, c ∈ textMarks := by decide
  have hshown : ∀ c ∈ Scalar.shownMarks, c ∈ textMarks := by decide
  rw [toList_text, List.mem_append, List.mem_append] at h
  rcases h with (h | h) | h
  · exact (mem_frontText h).imp_right (hfront c)
  · exact (mem_middleText h).imp_right (hmiddle c)
  · obtain ⟨x, _, hx⟩ := mem_ifGiven h
    rcases List.mem_cons.1 hx with rfl | hx
    · exact .inr (by decide)
    · exact (Scalar.mem_shown hx).imp Text.isDigit_of_isDigit (hshown c)

theorem stripChars_text (n : NoteToken α) : Text.stripChars n.text.toList = n.text.toList := by
  have hmarks : ∀ c ∈ textMarks, Text.isBlank c = false := by decide
  refine Text.stripChars_of_not_blank ?_
  exact fun c hc => (mem_text hc).elim Text.isBlank_of_isDigit (hmarks c)

/-- A spelling of the text of a note writes all of it. -/
theorem chars_of_writes {s : Spelling} (h : s.Writes n.text) :
    s.chars = n.frontText ++ n.middleText ++ n.chanceText := by
  rw [← toList_text, ← stripChars_text, h]

theorem begins_shiftText (n : NoteToken α) :
    Begins ['+', '-', '?', '~'] (n.shiftText ++ n.chanceText) := by
  unfold shiftText
  cases n.timing with
  | none => exact (Spelling.begins_ifGiven (fun _ => .cons (by decide)) _)
  | some t =>
      change Begins _ ((signedText t ++ "ms").toList ++ n.chanceText)
      rw [← Shift.chars_ofInt]
      exact (Spelling.begins_shift _ _).mono (by decide)

/-- The text of a note and a spelling of it, each cut before its velocity and its probability. -/
theorem cut_of_writes {s : Spelling} (h : s.Writes n.text) :
    s.front ++ s.middle ++ s.chance = n.frontText ++ n.middleText ++ n.chanceText := by
  rw [← chars_of_writes h, Spelling.chars_eq_front, Spelling.expression_eq, List.append_assoc]

/-- Both texts are cut at the mark of the velocity, which stands in no part before it. -/
theorem shown_velocity {s : Spelling} (h : s.Writes n.text) {l : Loudness} (hl : s.loudness = some l)
    {x : α} (hx : n.velocity = some x) : ∃ f, l = .figure f ∧ (Scalar.general x).toList = f.chars := by
  have hcut : s.front ++ '@' :: (l.chars ++ s.delay) = n.frontText ++ '@' ::
      ((Scalar.general x).toList ++ (n.shiftText ++ n.chanceText)) := by
    simpa [Spelling.middle, middleText, hl, hx, ifGiven, Spelling.delay] using cut_of_writes h
  have hmark : Text.isDigit '@' = false ∧ '@' ∉ Spelling.frontMarks := by decide
  have hfront : '@' ∉ s.front := fun hmem => by
    simpa [hmark] using Spelling.mem_front hmem
  have hfront' : '@' ∉ n.frontText := fun hmem => by
    simpa [hmark] using mem_frontText hmem
  obtain ⟨_, hafter⟩ := mark_unique hcut hfront hfront'
  cases l with
  | figure f => exact ⟨f, rfl, eq_chars_of_shown hafter s.begins_delay n.begins_shiftText⟩
  | dynamic d => exact absurd hafter (name_ne_shown n.begins_shiftText)

/-- Both texts are cut at the mark of the probability. -/
theorem shown_probability {s : Spelling} (h : s.Writes n.text) {f : Figure}
    (hf : s.probability = some f) {x : α} (hx : n.probability = some x) :
    (Scalar.general x).toList = f.chars := by
  have hcut : (s.front ++ s.middle) ++ '?' :: (f.chars ++ glideMark s.late) =
      (n.frontText ++ n.middleText) ++ '?' :: ((Scalar.general x).toList ++ []) := by
    simpa [Spelling.chance, chanceText, hf, hx, ifGiven] using cut_of_writes h
  have hmark : Text.isDigit '?' = false ∧ '?' ∉ Spelling.frontMarks ∧
      '?' ∉ Spelling.middleMarks ∧ '?' ∉ middleMarks := by decide
  have hbefore : '?' ∉ s.front ++ s.middle := fun hmem => by
    rcases List.mem_append.1 hmem with hmem | hmem
    · simpa [hmark] using Spelling.mem_front hmem
    · simpa [hmark] using Spelling.mem_middle hmem
  have hbefore' : '?' ∉ n.frontText ++ n.middleText := fun hmem => by
    rcases List.mem_append.1 hmem with hmem | hmem
    · simpa [hmark] using mem_frontText hmem
    · simpa [hmark] using mem_middleText hmem
  obtain ⟨_, hafter⟩ := mark_unique hcut hbefore hbefore'
  exact eq_chars_of_shown hafter ((Spelling.begins_glideMark _).mono (by decide)) .nil

/-- Only a note whose numbers are read back is read back. -/
theorem restorable_of_parse (h : parse n.text = .ok n) : n.Restorable := by
  obtain ⟨s, hwrites, hallowed, htoken⟩ := (parse_ok_iff n).1 h
  constructor
  · intro x hx
    obtain ⟨l, hl, hlx⟩ : ∃ l, s.loudness = some l ∧ l.velocity = x := by
      rw [← htoken] at hx
      exact Option.map_eq_some_iff.1 hx
    obtain ⟨f, rfl, hshown⟩ := shown_velocity hwrites hl hx
    subst hlx
    exact ⟨f, hshown, rfl, hallowed.velocity f hl⟩
  · intro x hx
    obtain ⟨f, hf, hfx⟩ : ∃ f, s.probability = some f ∧ f.decimal.value = x := by
      rw [← htoken] at hx
      exact Option.map_eq_some_iff.1 hx
    have hshown := shown_probability hwrites hf hx
    subst hfx
    exact ⟨f, hshown, rfl, hallowed.probability f hf⟩

/-- The text of a note tells its octave in one digit, or it is not read. -/
theorem octave_le_of_parse {m : NoteToken α} (h : parse n.text = .ok m) :
    n.pitch.octave.natAbs ≤ 9 := by
  obtain ⟨s, hwrites, _⟩ := (parse_ok_iff m).1 h
  have hchars := chars_of_writes hwrites
  have hcut : (s.letterChar :: (s.accidental.chars ++ ifGiven ShortOctave.chars s.octave)) ++
        ':' :: (s.code.text.toList ++ s.dotting) =
      n.pitch.text.toList ++ ':' :: (n.length.text.toList ++
        (ifGiven (fun t => 't' :: (toString t).toList) n.tuplet ++ n.articulation.text.toList ++
          glideMark n.glide) ++ n.middleText ++ n.chanceText) := by
    simpa [Spelling.chars_eq, frontText] using hchars
  obtain ⟨hname, _⟩ := mark_unique hcut
    (colon_not_mem_name s.letterChar_mem _ fun c hc => by
      obtain ⟨o, _, ho⟩ := mem_ifGiven hc
      exact mem_octave ho)
    n.pitch.colon_not_mem_text
  rw [Pitch.toList_text] at hname
  have hdigits := congrArg (fun cs => Text.valueOf (cs.filter Text.isDigit)) hname
  simp only [filter_name s.letterChar_mem, filter_name (Letter.char_mem _), valueOf_filter_octave]
    at hdigits
  rw [← hdigits]
  exact ShortOctave.valueOf_le _

end NoteToken

/-! ## §3 Notes and rests -/

namespace Token

open Notation

variable {α : Type} [Scalar α]

/-- The numbers of a token are read back. -/
def Restorable : Token α → Prop
  | note n => n.Restorable
  | rest _ => True

theorem isRest_of_writes {s : Spelling} {text : String} (h : s.Writes text) :
    isRest text = false := by
  have hletter : ∀ c ∈ "abcdefgABCDEFG".toList, c ≠ 'r' ∧ c ≠ 'R' := by decide
  obtain ⟨hsmall, hlarge⟩ := hletter _ s.letterChar_mem
  unfold isRest
  rw [← h, Spelling.chars_eq]
  split
  · next heq => exact absurd (List.cons.inj heq).1 hsmall
  · next heq => exact absurd (List.cons.inj heq).1 hlarge
  · rfl

theorem parse_note_iff {text : String} {n : NoteToken α} :
    parse text = .ok (.note n) ↔ NoteToken.parse text = .ok n := by
  constructor
  · intro h
    unfold parse at h
    split at h
    · obtain ⟨_, _, h⟩ := Outcome.bind_ok h
      cases h
    · obtain ⟨m, hm, h⟩ := Outcome.bind_ok h
      cases h
      exact hm
  · intro h
    obtain ⟨s, hwrites, _⟩ := (NoteToken.parse_ok_iff n).1 h
    unfold parse
    rw [if_neg (by simp [isRest_of_writes hwrites]), h]
    rfl

/-- The text of a note is not taken for a rest. -/
theorem isRest_text (n : NoteToken α) : isRest n.text = false := by
  obtain ⟨cs, hcs⟩ : ∃ cs, n.text.toList = n.pitch.name.letter.char :: cs := by
    rw [NoteToken.toList_text]
    simp [NoteToken.frontText, Pitch.text, PitchName.text]
  have hletter : n.pitch.name.letter.char ≠ 'r' ∧ n.pitch.name.letter.char ≠ 'R' := by
    cases n.pitch.name.letter <;> decide
  unfold isRest
  rw [NoteToken.stripChars_text, hcs]
  split
  · next heq => exact absurd (List.cons.inj heq).1 hletter.1
  · next heq => exact absurd (List.cons.inj heq).1 hletter.2
  · rfl

theorem exists_of_parse_text {n : NoteToken α} {t : Token α} (h : parse n.text = .ok t) :
    ∃ m, t = note m ∧ NoteToken.parse n.text = .ok m := by
  unfold parse at h
  rw [if_neg (by simp [isRest_text])] at h
  obtain ⟨m, hm, h⟩ := Outcome.bind_ok h
  cases h
  exact ⟨m, rfl, hm⟩

/-- A rest is always read back. -/
theorem parse_rest_text (l : Length) :
    parse (rest l : Token α).text = .ok (.rest l : Token α) := by
  obtain ⟨code, dotted⟩ := l
  have hdot : Begins ['.', 't', '*', '>', '^', '@', '+', '-', '?', '~']
      (if dotted then ['.'] else []) := by
    cases dotted with
    | true => exact .cons (by decide)
    | false => exact .nil
  have hstrip : Text.stripChars (rest ⟨code, dotted⟩ : Token α).text.toList =
      'r' :: ':' :: (code.text.toList ++ if dotted then ['.'] else []) := by
    have hchars : (rest ⟨code, dotted⟩ : Token α).text.toList =
        'r' :: ':' :: (code.text.toList ++ if dotted then ['.'] else []) := by
      cases dotted <;> simp [text, Length.text]
    rw [hchars]
    refine Text.stripChars_of_not_blank ?_
    cases dotted <;> cases code <;> decide
  have hsplit : splitRest? ('r' :: ':' :: (code.text.toList ++ if dotted then ['.'] else [])) =
      some (code.text.toList, dotted) := by
    simp only [splitRest?, code_append code hdot]
    cases dotted <;> rfl
  unfold parse isRest parseRest
  rw [hstrip, hsplit]
  simp [Length.parse_text]

/-- **A token that was read is read back from its text if and only if its numbers are.** -/
theorem parse_text_iff {text : String} {t : Token α} (h : parse text = .ok t) :
    parse t.text = .ok t ↔ t.Restorable := by
  cases t with
  | note n =>
      have hreadable := NoteToken.readable_of_parse (parse_note_iff.1 h)
      change parse n.text = .ok (.note n) ↔ n.Restorable
      rw [parse_note_iff]
      exact ⟨NoteToken.restorable_of_parse, NoteToken.parse_text hreadable⟩
  | rest l => exact ⟨fun _ => trivial, fun _ => parse_rest_text l⟩

/-- A note with every part, not written in the way in which it is shown. -/
def ornate : Spelling where
  small := true
  letter := .c
  accidental := .flat
  octave := some ⟨true, '1', rfl⟩
  code := .sixteenth
  dotted := true
  tuplet := some ⟨['3'], by decide, by decide⟩
  articulation := .staccato
  early := false
  loudness := some (.figure ⟨[], true, ⟨['5'], by decide, by decide⟩, nofun⟩)
  shift := some ⟨true, ⟨['2', '0'], by decide, by decide⟩⟩
  probability := some ⟨['0'], true, ⟨['2', '5'], by decide, by decide⟩, by decide⟩
  late := true

/-- The theorem at work: a note with every part is read back. -/
theorem ornate_read_back : ∃ _ : Elementary, ∃ t : Token Rat,
    parse "cb-1:16.t3*@.5-20ms?0.25~>" = .ok t ∧ t.Restorable ∧ parse t.text = .ok t := by
  let _ := Elementary.coarse
  have hallowed : ornate.Allowed Rat := by
    constructor
    · rintro _ ⟨⟩
      decide
    · rintro _ ⟨⟩
      unfold Spelling.InUnit
      decide +kernel
    · rintro _ ⟨⟩
      unfold Spelling.InUnit
      decide +kernel
  have hwrites : ornate.Writes "cb-1:16.t3*@.5-20ms?0.25~>" := by
    decide +kernel
  have hparse : parse "cb-1:16.t3*@.5-20ms?0.25~>" = .ok (.note ornate.token : Token Rat) :=
    parse_note_iff.2 ((NoteToken.parse_ok_iff _).2 ⟨ornate, hwrites, hallowed, rfl⟩)
  have hrestorable : (note ornate.token : Token Rat).Restorable := by
    constructor
    · rintro _ ⟨⟩
      refine ⟨⟨['0'], true, ⟨['5'], by decide, by decide⟩, by decide⟩, ?_, ?_, ?_⟩
      · decide +kernel
      · decide +kernel
      · unfold Spelling.InUnit
        decide +kernel
    · rintro _ ⟨⟩
      refine ⟨⟨['0'], true, ⟨['2', '5'], by decide, by decide⟩, by decide⟩, ?_, ?_, ?_⟩
      · decide +kernel
      · decide +kernel
      · unfold Spelling.InUnit
        decide +kernel
  exact ⟨_, _, hparse, hrestorable, (parse_text_iff hparse).2 hrestorable⟩

/-- A velocity that is shown with an exponent makes a text that is no note. -/
theorem faint_not_read_back : ∃ _ : Elementary, ∃ t : Token Rat,
    parse "C4:q@0.00001" = .ok t ∧ ∀ t' : Token Rat, parse t.text ≠ .ok t' := by
  let _ := Elementary.coarse
  obtain ⟨t, ht, hlost⟩ := Outcome.exists_of_any
    (r := (parse "C4:q@0.00001" : Outcome (Token Rat)))
    (p := fun t => (parse t.text : Outcome (Token Rat)).toOption.isNone) (by decide +kernel)
  refine ⟨_, t, ht, fun t' ht' => ?_⟩
  rw [ht'] at hlost
  cases hlost

end Token

end Partitura

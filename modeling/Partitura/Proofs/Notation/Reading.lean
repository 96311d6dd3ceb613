import Mathlib.Data.Option.Basic
import Partitura.Proofs.Computation
import Partitura.Proofs.Notation.Parts

/-!
# A note is read if and only if the grammar has it

The reader goes through a note from left to right and never back. It loses nothing by that. Every
spelling is split into the parts it was written from (`split?_chars`), and every text that is split
has a spelling (`exists_of_split?`). So no two spellings of one text mean different notes, and what is
read is exactly what the grammar allows (`NoteToken.parse_grammar`).

There is one place where the reader tells apart less than the grammar. A glide at the end of a note
that has nothing after its articulation is also a glide before an absent velocity. The reader always
finds the latter; both mean the same note.
-/

namespace Partitura

theorem DurationCode.ofText?_text (code : DurationCode) :
    DurationCode.ofText? code.text = some code := by
  cases code <;> rfl

namespace Notation.Spelling

variable {s : Spelling}

/-! ## §1 The parts that are found -/

/-- The parts of the note, as the reader answers them. -/
def written (s : Spelling) : Written where
  letter := s.letter
  accidental := s.accidental
  octave := s.octave.map ShortOctave.value
  code := s.code.text.toList
  dotted := s.dotted
  tuplet := s.tuplet.map Digits.value
  articulation := s.articulation
  glide := s.early || s.late
  level := s.loudness.map Loudness.level
  timing := s.shift.map Shift.value
  probability := s.probability.map Figure.decimal

section

variable {α : Type} [Scalar α]

/-- The velocity that a level stands for. -/
def levelVelocity : Level → α
  | .number d => d.value
  | .dynamic d => d.velocity

theorem levelVelocity_level (l : Loudness) : (levelVelocity l.level : α) = l.velocity := by
  cases l <;> rfl

/-- The note is known from its parts. -/
theorem token_eq_of_written {s s' : Spelling} (h : s.written = s'.written) :
    (s.token : NoteToken α) = s'.token := by
  have hcode : s.code = s'.code := by
    have htext := String.toList_inj.1 (congrArg Written.code h)
    rw [← Option.some_inj, ← DurationCode.ofText?_text, htext, DurationCode.ofText?_text]
  have hvelocity : (s.loudness.map Loudness.velocity : Option α) =
      s'.loudness.map Loudness.velocity := by
    have hlevel := congrArg (fun w => w.level.map (levelVelocity (α := α))) h
    simpa [written, Function.comp_def, levelVelocity_level] using hlevel
  have hprobability : (s.probability.map (·.decimal.value) : Option α) =
      s'.probability.map (·.decimal.value) := by
    have hdecimal := congrArg (fun w => w.probability.map (Decimal.value (α := α))) h
    simpa [written, Function.comp_def] using hdecimal
  have hletter : s.letter = s'.letter := congrArg Written.letter h
  have haccidental : s.accidental = s'.accidental := congrArg Written.accidental h
  have hoctave : s.octave.map ShortOctave.value = s'.octave.map ShortOctave.value :=
    congrArg Written.octave h
  have hdotted : s.dotted = s'.dotted := congrArg Written.dotted h
  have htuplet : s.tuplet.map Digits.value = s'.tuplet.map Digits.value := congrArg Written.tuplet h
  have harticulation : s.articulation = s'.articulation := congrArg Written.articulation h
  have hglide : (s.early || s.late) = (s'.early || s'.late) := congrArg Written.glide h
  have hshift : s.shift.map Shift.value = s'.shift.map Shift.value := congrArg Written.timing h
  simp only [token, hcode, hvelocity, hprobability, hletter, haccidental, hoctave, hdotted, htuplet,
    harticulation, hglide, hshift]

end

/-! ## §2 What follows a part

From the end of the note to its head: the text that a part leaves, how it begins, and that the next
part is read off it. -/

theorem begins_glideMark (g : Bool) : Begins ['~'] (glideMark g) := by
  cases g with
  | true => exact .cons (by decide)
  | false => exact .nil

theorem begins_dot (dotted : Bool) : Begins ['.'] (if dotted then ['.'] else []) := by
  cases dotted with
  | true => exact .cons (by decide)
  | false => exact .nil

theorem begins_articulation (a : Articulation) : Begins ['*', '>', '^', '~'] a.text.toList := by
  cases a with
  | plain => exact .nil
  | staccato => exact .cons (by decide)
  | legato => exact .cons (by decide)
  | accent => exact .cons (by decide)
  | marcato => exact .cons (by decide)

theorem begins_ifGiven {β : Type} {marks : List Char} {f : β → Chars}
    (h : ∀ x, Begins marks (f x)) (o : Option β) : Begins marks (ifGiven f o) := by
  cases o with
  | none => exact .nil
  | some x => exact h x

theorem begins_shift (shift : Shift) (rest : Chars) : Begins ['+', '-'] (shift.chars ++ rest) := by
  unfold Shift.chars
  cases shift.negative <;> exact .cons (by decide)

theorem readGlide_late (s : Spelling) : readGlide (glideMark s.late) = (s.late, []) := by
  cases s.late <;> rfl

/-- The text from the probability on. -/
def chance (s : Spelling) : Chars :=
  ifGiven (fun f => '?' :: f.chars) s.probability ++ glideMark s.late

theorem begins_chance (s : Spelling) : Begins ['?', '~'] s.chance :=
  .append (begins_ifGiven (fun _ => .cons (by decide)) _)
    ((begins_glideMark _).mono (by decide))

theorem readProbability_chance (s : Spelling) :
    readProbability s.chance = (s.probability.map Figure.decimal, glideMark s.late) :=
  probability_append _ (begins_glideMark _)

/-- The text from the shift on. -/
def delay (s : Spelling) : Chars :=
  ifGiven Shift.chars s.shift ++ s.chance

theorem begins_delay (s : Spelling) : Begins ['+', '-', '?', '~'] s.delay := by
  unfold delay
  cases s.shift with
  | none => exact s.begins_chance.mono (by decide)
  | some shift => exact (begins_shift shift _).mono (by decide)

theorem readTiming_delay (s : Spelling) :
    readTiming s.delay = (s.shift.map Shift.value, s.chance) :=
  shift_append _ s.begins_chance

/-- The text from the velocity on. -/
def expression (s : Spelling) : Chars :=
  ifGiven (fun l => '@' :: l.chars) s.loudness ++ s.delay

theorem begins_expression (s : Spelling) : Begins ['@', '+', '-', '?', '~'] s.expression :=
  .append (begins_ifGiven (fun _ => .cons (by decide)) _) (s.begins_delay.mono (by decide))

theorem readLevel_expression (s : Spelling) :
    readLevel s.expression = (s.loudness.map Loudness.level, s.delay) :=
  loudness_append _ s.begins_delay

/-- A glide at the end is told apart from one before the velocity. -/
def Settled (s : Spelling) : Prop :=
  s.early = false → Begins ['@', '+', '-', '?'] s.expression

theorem readGlide_early (h : s.Settled) :
    readGlide (glideMark s.early ++ s.expression) = (s.early, s.expression) :=
  glide_append _ h

/-- The text from the articulation on. -/
def marks (s : Spelling) : Chars :=
  s.articulation.text.toList ++ (glideMark s.early ++ s.expression)

theorem begins_marks (s : Spelling) :
    Begins ['*', '>', '^', '@', '+', '-', '?', '~'] s.marks :=
  .append ((begins_articulation _).mono (by decide))
    (.append ((begins_glideMark _).mono (by decide)) (s.begins_expression.mono (by decide)))

theorem readArticulation_marks (h : s.Settled) :
    readArticulation s.marks = (s.articulation, glideMark s.early ++ s.expression) := by
  refine articulation_append _ ?_
  cases hearly : s.early with
  | true => exact .inl ⟨_, rfl⟩
  | false => exact .inr (h hearly)

/-- The text from the tuplet on. -/
def grouping (s : Spelling) : Chars :=
  ifGiven (fun ds => 't' :: ds.chars) s.tuplet ++ s.marks

theorem begins_grouping (s : Spelling) :
    Begins ['t', '*', '>', '^', '@', '+', '-', '?', '~'] s.grouping :=
  .append (begins_ifGiven (fun _ => .cons (by decide)) _) (s.begins_marks.mono (by decide))

theorem readTuplet_grouping (s : Spelling) :
    readTuplet s.grouping = (s.tuplet.map Digits.value, s.marks) :=
  tuplet_append _ s.begins_marks

/-- The text from the dot on. -/
def dotting (s : Spelling) : Chars :=
  (if s.dotted then ['.'] else []) ++ s.grouping

theorem begins_dotting (s : Spelling) :
    Begins ['.', 't', '*', '>', '^', '@', '+', '-', '?', '~'] s.dotting :=
  .append ((begins_dot _).mono (by decide)) (s.begins_grouping.mono (by decide))

theorem readDot_dotting (s : Spelling) : readDot s.dotting = (s.dotted, s.grouping) :=
  dot_append _ s.begins_grouping

theorem readCode?_length (s : Spelling) :
    readCode? (s.code.text.toList ++ s.dotting) = some (s.code.text.toList, s.dotting) :=
  code_append _ s.begins_dotting

theorem chars_eq (s : Spelling) : s.chars = s.letterChar :: (s.accidental.chars ++
    (ifGiven ShortOctave.chars s.octave ++ ':' :: (s.code.text.toList ++ s.dotting))) := by
  simp [chars, dotting, grouping, marks, expression, delay, chance]

/-! ## §3 Every spelling is split into its parts -/

/-- Every note is written in a settled way too: where nothing stands between its articulation and a
glide at the end, the glide might as well come before the velocity. -/
theorem exists_settled (s : Spelling) :
    ∃ s' : Spelling, s'.Settled ∧ s'.chars = s.chars ∧ s'.written = s.written := by
  by_cases hsettled : s.Settled
  · exact ⟨s, hsettled, rfl, rfl⟩
  · obtain ⟨small, letter, accidental, octave, code, dotted, tuplet, articulation, early, loudness,
      shift, probability, late⟩ := s
    unfold Settled expression delay chance at hsettled
    push Not at hsettled
    obtain ⟨hearly, hopen⟩ := hsettled
    dsimp only at hearly hopen
    cases loudness with
    | some l => exact absurd (.cons (by decide)) hopen
    | none =>
        cases shift with
        | some shift =>
            exact absurd ((begins_shift shift _).mono (by decide)) hopen
        | none =>
            cases probability with
            | some f => exact absurd (.cons (by decide)) hopen
            | none =>
                cases late with
                | false => exact absurd .nil hopen
                | true =>
                    subst hearly
                    refine ⟨⟨small, letter, accidental, octave, code, dotted, tuplet, articulation,
                      true, none, none, none, false⟩, fun h => Bool.noConfusion h, ?_, rfl⟩
                    simp [chars, letterChar, ifGiven, glideMark]

theorem split?_of_settled (h : s.Settled) : split? s.chars = some s.written := by
  unfold split?
  rw [chars_eq]
  simp only [letter_append, accidental_append, octave_append, readCode?_length, readDot_dotting,
    readTuplet_grouping, readArticulation_marks h, readGlide_early h, readLevel_expression,
    readTiming_delay, readProbability_chance, readGlide_late, Option.bind_eq_bind, Option.bind_some]
  rfl

/-- **Every spelling is split into the parts it was written from.** -/
theorem split?_chars (s : Spelling) : split? s.chars = some s.written := by
  obtain ⟨s', hsettled, hchars, hwritten⟩ := exists_settled s
  rw [← hchars, ← hwritten, split?_of_settled hsettled]

/-! ## §4 Every text that is split has a spelling -/

/-- What is split off a text with a known code is one of its spellings. -/
theorem exists_of_split? {cs : Chars} {w : Written} {code : DurationCode}
    (h : split? cs = some w) (hcode : w.code = code.text.toList) :
    ∃ s : Spelling, s.chars = cs ∧ s.written = w := by
  unfold split? at h
  split at h
  · next c r₀ =>
      simp only [Option.bind_eq_bind, Option.bind_eq_some_iff] at h
      obtain ⟨letter, hletter, h⟩ := h
      rcases haccidental : Accidental.read r₀ with ⟨accidental, r₁⟩
      rcases hoctave : readShortOctave r₁ with ⟨octave, r₂⟩
      simp only [haccidental, hoctave] at h
      split at h
      · next r₃ =>
          simp only [Option.bind_eq_some_iff] at h
          obtain ⟨⟨digits, r₄⟩, hdigits, _, hend, h⟩ := h
          rcases hdot : readDot r₄ with ⟨dotted, r₅⟩
          rcases htuplet : readTuplet r₅ with ⟨tuplet, r₆⟩
          rcases harticulation : readArticulation r₆ with ⟨articulation, r₇⟩
          rcases hearly : readGlide r₇ with ⟨early, r₈⟩
          rcases hlevel : readLevel r₈ with ⟨level, r₉⟩
          rcases htiming : readTiming r₉ with ⟨timing, r₁₀⟩
          rcases hprobability : readProbability r₁₀ with ⟨probability, r₁₁⟩
          rcases hlate : readGlide r₁₁ with ⟨late, r₁₂⟩
          simp only [hdot, htuplet, harticulation, hearly, hlevel, htiming, hprobability, hlate]
            at h hend
          have hnil : r₁₂ = [] := by
            cases r₁₂ with
            | nil => rfl
            | cons _ _ => cases hend
          cases h
          change digits = _ at hcode
          subst hnil hcode
          obtain ⟨small, rfl⟩ := exists_of_letter hletter
          obtain rfl := of_accidental haccidental
          obtain ⟨o, rfl, rfl⟩ := exists_of_octave hoctave
          obtain rfl := of_code hdigits
          obtain rfl := of_dot hdot
          obtain ⟨t, rfl, rfl⟩ := exists_of_tuplet htuplet
          obtain rfl := of_articulation harticulation
          obtain rfl := of_glide hearly
          obtain ⟨l, rfl, rfl⟩ := exists_of_loudness hlevel
          obtain ⟨shift, rfl, rfl⟩ := exists_of_shift htiming
          obtain ⟨f, rfl, rfl⟩ := exists_of_probability hprobability
          obtain rfl := of_glide hlate
          refine ⟨⟨small, letter, accidental, o, code, dotted, t, articulation, early, l, shift, f,
            late⟩, ?_, rfl⟩
          simp [chars, letterChar]
      · cases h
  · cases h

end Notation.Spelling

/-! ## §5 Checking the parts -/

theorem DurationCode.eq_of_ofText? {text : String} {code : DurationCode}
    (h : DurationCode.ofText? text = some code) : text = code.text := by
  unfold DurationCode.ofText? at h
  have hcode := List.find?_some h
  exact (of_decide_eq_true hcode).symm

theorem Length.parse_text (code : DurationCode) (dotted : Bool) :
    Length.parse code.text dotted = .ok ⟨code, dotted⟩ := by
  unfold Length.parse
  rw [DurationCode.ofText?_text]

theorem Length.code_of_parse {text : String} {dotted : Bool} {l : Length}
    (h : Length.parse text dotted = .ok l) : text = l.code.text := by
  unfold Length.parse at h
  split at h
  · next code hcode =>
      cases h
      exact DurationCode.eq_of_ofText? hcode
  · cases h

theorem checkTuplet_ok {text : String} {n m : Nat} :
    checkTuplet text n = .ok m ↔ (2 ≤ n ∧ n ≤ 9) ∧ m = n := by
  unfold checkTuplet
  split
  · next hout =>
      constructor
      · intro h
        cases h
      · rintro ⟨hin, _⟩
        omega
  · next hin =>
      constructor
      · intro h
        cases h
        exact ⟨by omega, rfl⟩
      · rintro ⟨_, rfl⟩
        rfl

variable {α : Type} [Scalar α]

theorem unitInterval_ok {field : UnitField} {text : String} {x y : α} :
    unitInterval field text x = .ok y ↔ Notation.Spelling.InUnit x ∧ y = x := by
  unfold unitInterval Notation.Spelling.InUnit
  split
  · next hout =>
      simp only [Bool.or_eq_true, decide_eq_true_eq] at hout
      constructor
      · intro h
        cases h
      · rintro ⟨⟨hlow, hhigh⟩, _⟩
        exact absurd hout (not_or.2 ⟨hlow, hhigh⟩)
  · next hin =>
      simp only [Bool.or_eq_true, decide_eq_true_eq, not_or] at hin
      constructor
      · intro h
        cases h
        exact ⟨hin, rfl⟩
      · rintro ⟨_, rfl⟩
        rfl

open Notation in
theorem Notation.Level.velocity_ok {text : String} {l : Loudness} {v : α} :
    l.level.velocity text = .ok v ↔
      (∀ f, l = .figure f → Spelling.InUnit (f.decimal.value : α)) ∧ v = l.velocity := by
  cases l with
  | figure f =>
      change unitInterval .velocity text f.decimal.value = .ok v ↔ _
      rw [unitInterval_ok]
      constructor
      · rintro ⟨hf, rfl⟩
        refine ⟨?_, rfl⟩
        rintro _ ⟨⟩
        exact hf
      · rintro ⟨hf, rfl⟩
        exact ⟨hf f rfl, rfl⟩
  | dynamic d =>
      constructor
      · intro h
        cases h
        exact ⟨nofun, rfl⟩
      · rintro ⟨_, rfl⟩
        rfl

namespace NoteToken

open Notation

variable {text : String}

/-- The parts of a spelling pass the checks if and only if its numbers lie within their bounds. -/
theorem ofWritten_written (s : Spelling) (t : NoteToken α) :
    ofWritten text s.written = .ok t ↔ s.Allowed α ∧ t = s.token := by
  have hlength : Length.parse (String.ofList s.written.code) s.written.dotted =
      .ok ⟨s.code, s.dotted⟩ := by
    simpa [Spelling.written] using Length.parse_text s.code s.dotted
  have htuplet (v) : s.written.tuplet.mapM (checkTuplet text) = .ok v ↔
      (∀ ds ∈ s.tuplet, 2 ≤ ds.value ∧ ds.value ≤ 9) ∧ v = s.tuplet.map Digits.value :=
    Outcome.mapM_option_ok (fun _ _ => checkTuplet_ok) _ v
  have hvelocity (v) : s.written.level.mapM (Level.velocity (α := α) text) = .ok v ↔
      (∀ l ∈ s.loudness, ∀ f, l = .figure f → Spelling.InUnit (f.decimal.value : α)) ∧
        v = s.loudness.map Loudness.velocity :=
    Outcome.mapM_option_ok (fun _ _ => Level.velocity_ok) _ v
  have hprobability (v : Option α) :
      s.written.probability.mapM (fun d => unitInterval .probability text d.value) = .ok v ↔
        (∀ f ∈ s.probability, Spelling.InUnit (f.decimal.value : α)) ∧
          v = s.probability.map (·.decimal.value) :=
    Outcome.mapM_option_ok (k := Figure.decimal) (f := fun d => unitInterval _ _ d.value)
      (fun _ _ => unitInterval_ok) _ v
  unfold ofWritten
  simp only [Outcome.bind_ok_iff, hlength, htuplet, hvelocity, hprobability]
  constructor
  · rintro ⟨_, ⟨⟩, _, ⟨htuplet, rfl⟩, _, ⟨hvelocity, rfl⟩, _, ⟨hprobability, rfl⟩, h⟩
    cases h
    exact ⟨⟨htuplet, fun f hf => hvelocity _ hf f rfl, hprobability⟩, rfl⟩
  · rintro ⟨hallowed, rfl⟩
    refine ⟨_, rfl, _, ⟨hallowed.tuplet, rfl⟩, _, ⟨?_, rfl⟩, _, ⟨hallowed.probability, rfl⟩, rfl⟩
    rintro l hl f rfl
    exact hallowed.velocity f hl

/-- What does not pass the checks is told to be misspelled. -/
theorem misspelled_of_ofWritten {w : Written} {why : Fault}
    (h : ofWritten (α := α) text w = .error why) : ∃ m, why = .misspelled m := by
  have hunit {field : UnitField} {x : α} (hx : unitInterval field text x = .error why) :
      ∃ m, why = .misspelled m := by
    unfold unitInterval at hx
    split at hx <;> cases hx
    exact ⟨_, rfl⟩
  unfold ofWritten at h
  rcases Outcome.bind_error h with h | ⟨_, _, h⟩
  · unfold Length.parse at h
    split at h <;> cases h
    exact ⟨_, rfl⟩
  rcases Outcome.bind_error h with h | ⟨_, _, h⟩
  · obtain ⟨n, _, hn⟩ := Outcome.mapM_option_error h
    unfold checkTuplet at hn
    split at hn <;> cases hn
    exact ⟨_, rfl⟩
  rcases Outcome.bind_error h with h | ⟨_, _, h⟩
  · obtain ⟨l, _, hl⟩ := Outcome.mapM_option_error h
    cases l with
    | number d => exact hunit hl
    | dynamic d => cases hl
  rcases Outcome.bind_error h with h | ⟨_, _, h⟩
  · obtain ⟨d, _, hd⟩ := Outcome.mapM_option_error h
    exact hunit hd
  · cases h

/-! ## §6 The grammar -/

theorem parse_writes {s : Spelling} (h : s.Writes text) :
    parse (α := α) text = ofWritten text s.written := by
  unfold parse
  rw [← h, Spelling.split?_chars]

/-- What is read is what some spelling of the text means. -/
theorem parse_ok_iff (t : NoteToken α) :
    parse text = .ok t ↔ ∃ s : Spelling, s.Writes text ∧ s.Allowed α ∧ s.token = t := by
  constructor
  · intro h
    unfold parse at h
    split at h
    · next w hw =>
        have ⟨length, hlength, _⟩ := Outcome.bind_ok h
        have hcode : w.code = length.code.text.toList := by
          rw [← Length.code_of_parse hlength, String.toList_ofList]
        obtain ⟨s, hs, rfl⟩ := Spelling.exists_of_split? hw hcode
        obtain ⟨hallowed, rfl⟩ := (ofWritten_written s t).1 h
        exact ⟨s, hs, hallowed, rfl⟩
    · cases h
  · rintro ⟨s, hs, hallowed, rfl⟩
    rw [parse_writes hs]
    exact (ofWritten_written s _).2 ⟨hallowed, rfl⟩

theorem misspelled_of_parse {why : Fault} (h : parse (α := α) text = .error why) :
    ∃ m, why = .misspelled m := by
  unfold parse at h
  split at h
  · exact misspelled_of_ofWritten h
  · cases h
    exact ⟨_, rfl⟩

/-- **The reader and the grammar agree on every text.** A note is read if and only if the text has a
spelling whose numbers lie within their bounds, and then it is the note that this spelling means. All
spellings of a text mean the same note. A text without such a spelling is told to be misspelled. -/
theorem parse_grammar (text : String) :
    (∀ t : NoteToken α,
      parse text = .ok t ↔ ∃ s : Spelling, s.Writes text ∧ s.Allowed α ∧ s.token = t) ∧
    (∀ s s' : Spelling, s.Writes text → s'.Writes text → (s.token : NoteToken α) = s'.token) ∧
    ((∀ s : Spelling, s.Writes text → ¬ s.Allowed α) →
      ∃ why, parse (α := α) text = .error (.misspelled why)) := by
  refine ⟨parse_ok_iff, fun s s' hs hs' => ?_, fun hnone => ?_⟩
  · have hwritten := Spelling.split?_chars s
    rw [hs.trans hs'.symm, Spelling.split?_chars] at hwritten
    exact Spelling.token_eq_of_written (Option.some.inj hwritten.symm)
  · cases hparse : parse (α := α) text with
    | ok t =>
        obtain ⟨s, hs, hallowed, _⟩ := (parse_ok_iff t).1 hparse
        exact absurd hallowed (hnone s hs)
    | error why =>
        obtain ⟨m, rfl⟩ := misspelled_of_parse hparse
        exact ⟨m, rfl⟩

/-- A glide at the end of a plain note is one before the velocity as well. -/
example : ∃ s s' : Spelling, s.Writes "C4:q~>" ∧ s'.Writes "C4:q~>" ∧ s.early ≠ s'.early :=
  let plain : Spelling :=
    ⟨false, .c, .natural, some ⟨false, '4', rfl⟩, .quarter, false, none, .plain, false, none, none,
      none, true⟩
  ⟨plain, { plain with early := true, late := false }, by decide +kernel⟩

end NoteToken

end Partitura

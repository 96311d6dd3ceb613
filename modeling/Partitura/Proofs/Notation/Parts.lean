import Mathlib.Data.List.TakeWhile
import Partitura.Proofs.Notation.Grammar
import Partitura.Proofs.Number.Decimal

/-!
# Reading the parts of a note

Each reader of a part is told by two facts. Put before a text that does not go on with the part, what
the part writes is read as that part, and the text is left (`..._append`). And whatever a reader takes
off a text is a way to write the part that it answers (`exists_of_...`). What may follow a part is
given by the characters that a text begins with, if it is not empty (`Begins`).
-/

namespace Partitura.Notation

/-- A text begins with one of these characters, if it is not empty. -/
def Begins (marks : List Char) (cs : Chars) : Prop :=
  ∀ c ∈ cs.head?, c ∈ marks

namespace Begins

variable {marks more : List Char} {cs ds : Chars}

theorem nil : Begins marks [] := by
  intro c hc
  cases hc

theorem cons {c : Char} (h : c ∈ marks) : Begins marks (c :: cs) := by
  rintro _ ⟨⟩
  exact h

theorem append (hcs : Begins marks cs) (hds : Begins marks ds) : Begins marks (cs ++ ds) := by
  cases cs with
  | nil => exact hds
  | cons c cs => exact .cons (hcs c rfl)

theorem mono (h : Begins marks cs) (hsub : ∀ c ∈ marks, c ∈ more) : Begins more cs :=
  fun c hc => hsub c (h c hc)

theorem not_mem (h : Begins marks cs) {p : Char → Bool} (hp : ∀ c ∈ marks, p c = false) :
    ∀ c ∈ cs.head?, p c = false :=
  fun c hc => hp c (h c hc)

end Begins

/-! ## Digits -/

variable {cs rest : Chars}

theorem span_append {p : Char → Bool} {ds : Chars} (hds : ∀ c ∈ ds, p c = true)
    (hrest : ∀ c ∈ rest.head?, p c = false) :
    (ds ++ rest).takeWhile p = ds ∧ (ds ++ rest).dropWhile p = rest := by
  rw [List.takeWhile_append_of_pos hds, List.dropWhile_append_of_pos hds]
  cases rest with
  | nil => simp
  | cons c rest => simp [hrest c rfl]

theorem spanDigits_append {ds : Chars} (hds : ∀ c ∈ ds, Text.isDigit c = true)
    (hrest : ∀ c ∈ rest.head?, Text.isDigit c = false) : spanDigits (ds ++ rest) = (ds, rest) := by
  obtain ⟨htake, hdrop⟩ := span_append hds hrest
  unfold spanDigits
  rw [htake, hdrop]

theorem of_spanDigits {ds : Chars} (h : spanDigits cs = (ds, rest)) :
    cs = ds ++ rest ∧ (∀ c ∈ ds, Text.isDigit c = true) ∧
      ∀ c ∈ rest.head?, Text.isDigit c = false := by
  obtain ⟨rfl, rfl⟩ := Prod.mk.inj h
  refine ⟨List.takeWhile_append_dropWhile.symm, fun c => List.mem_takeWhile_imp, fun c hc => ?_⟩
  have hhead := List.head?_dropWhile_not Text.isDigit cs
  rwa [Option.mem_def.1 hc] at hhead

theorem valueOf_singleton {c : Char} {n : Nat} (h : Text.digit? c = some n) :
    Text.valueOf [c] = n := by
  simp [Text.valueOf, h]

theorem exists_digit {c : Char} (h : Text.isDigit c = true) : ∃ n, Text.digit? c = some n :=
  Option.isSome_iff_exists.1 h

/-! ## Letters, accidentals, octaves -/

theorem letter_append (s : Spelling) : Letter.ofChar? s.letterChar.toUpper = some s.letter := by
  unfold Spelling.letterChar
  cases s.small <;> cases s.letter <;> rfl

theorem small_or_large (c : Char) : c = c.toUpper.toLower ∨ c = c.toUpper := by
  unfold Char.toUpper
  split
  · next hsmall =>
      have hlarge : c.val + ('A'.val - 'a'.val) ≥ 'A'.val ∧
          c.val + ('A'.val - 'a'.val) ≤ 'Z'.val := by
        constructor <;> simp_all [UInt32.le_iff_toNat_le] <;> omega
      left
      apply Char.ext
      unfold Char.toLower
      simp only [hlarge, and_self, dite_true]
      rw [UInt32.add_assoc]
      exact (UInt32.add_zero _).symm
  · exact .inr rfl

/-- A letter that is read is written small or large. -/
theorem exists_of_letter {c : Char} {l : Letter} (h : Letter.ofChar? c.toUpper = some l) :
    ∃ small : Bool, c = if small then l.char.toLower else l.char := by
  unfold Letter.ofChar? at h
  have hchar : l.char = c.toUpper := by simpa using List.find?_some h
  rw [hchar]
  rcases small_or_large c with hsmall | hlarge
  · exact ⟨true, hsmall⟩
  · exact ⟨false, hlarge⟩

/-- An accidental is followed by the octave, or by the colon. -/
theorem accidental_append (a : Accidental) (o : Option ShortOctave) :
    Accidental.read (a.chars ++ (ifGiven ShortOctave.chars o ++ ':' :: rest)) =
      (a, ifGiven ShortOctave.chars o ++ ':' :: rest) := by
  cases a with
  | natural =>
      cases o with
      | none => rfl
      | some o =>
          obtain ⟨negative, digit, hdigit⟩ := o
          cases negative with
          | true => rfl
          | false =>
              have hsharp : digit ≠ '#' := by
                rintro rfl
                cases hdigit
              have hflat : digit ≠ 'b' := by
                rintro rfl
                cases hdigit
              simp [ifGiven, Accidental.chars, ShortOctave.chars, Accidental.read, hsharp, hflat]
  | sharp => rfl
  | flat => rfl

theorem of_accidental {a : Accidental} (h : Accidental.read cs = (a, rest)) :
    cs = a.chars ++ rest := by
  unfold Accidental.read at h
  split at h <;> (cases h; rfl)

/-- An octave is followed by the colon. -/
theorem octave_append (o : Option ShortOctave) :
    readShortOctave (ifGiven ShortOctave.chars o ++ ':' :: rest) =
      (o.map ShortOctave.value, ':' :: rest) := by
  cases o with
  | none => rfl
  | some o =>
      obtain ⟨negative, digit, hdigit⟩ := o
      obtain ⟨n, hn⟩ := exists_digit hdigit
      cases negative with
      | true =>
          simp [ifGiven, ShortOctave.chars, ShortOctave.value, readShortOctave, signed, hn,
            valueOf_singleton hn]
      | false =>
          have hminus : digit ≠ '-' := by
            rintro rfl
            cases hdigit
          simp [ifGiven, ShortOctave.chars, ShortOctave.value, readShortOctave, signed, hn,
            valueOf_singleton hn, hminus]

theorem exists_of_octave {v : Option Int} (h : readShortOctave cs = (v, rest)) :
    ∃ o : Option ShortOctave, cs = ifGiven ShortOctave.chars o ++ rest ∧
      v = o.map ShortOctave.value := by
  unfold readShortOctave at h
  split at h
  · next d rest' =>
      split at h
      · next n hn =>
          cases h
          refine ⟨some ⟨true, d, by simp [Text.isDigit, hn]⟩, rfl, ?_⟩
          simp [ShortOctave.value, signed, valueOf_singleton hn]
      · cases h
        exact ⟨none, rfl, rfl⟩
  · next d rest' _ =>
      split at h
      · next n hn =>
          cases h
          refine ⟨some ⟨false, d, by simp [Text.isDigit, hn]⟩, rfl, ?_⟩
          simp [ShortOctave.value, signed, valueOf_singleton hn]
      · cases h
        exact ⟨none, rfl, rfl⟩
  · cases h
    exact ⟨none, rfl, rfl⟩

/-! ## Lengths and tuplets -/

theorem code_append (code : DurationCode)
    (h : Begins ['.', 't', '*', '>', '^', '@', '+', '-', '?', '~'] rest) :
    readCode? (code.text.toList ++ rest) = some (code.text.toList, rest) := by
  have hspan : ∀ ds : Chars, (∀ c ∈ ds, Text.isDigit c = true) → ds ≠ [] →
      readCode? (ds ++ rest) = some (ds, rest) := by
    intro ds hds hne
    unfold readCode?
    rw [spanDigits_append hds (h.not_mem (by decide))]
    cases ds with
    | nil => exact absurd rfl hne
    | cons d ds => rfl
  cases code with
  | whole => rfl
  | half => rfl
  | quarter => rfl
  | eighth => exact hspan ['8'] (by decide) (by decide)
  | sixteenth => exact hspan ['1', '6'] (by decide) (by decide)
  | thirtySecond => exact hspan ['3', '2'] (by decide) (by decide)
  | numericHalf => exact hspan ['2'] (by decide) (by decide)
  | numericQuarter => exact hspan ['4'] (by decide) (by decide)

theorem of_code {code : Chars} (h : readCode? cs = some (code, rest)) : cs = code ++ rest := by
  unfold readCode? at h
  split at h
  · next c rest' hspan =>
      obtain ⟨hcs, _⟩ := of_spanDigits hspan
      split at h
      · cases h
        exact hcs
      · cases h
  · cases h
  · next hspan =>
      cases h
      exact (of_spanDigits hspan).1

theorem dot_append (dotted : Bool)
    (h : Begins ['t', '*', '>', '^', '@', '+', '-', '?', '~'] rest) :
    readDot ((if dotted then ['.'] else []) ++ rest) = (dotted, rest) := by
  cases dotted with
  | true => rfl
  | false =>
      cases rest with
      | nil => rfl
      | cons c rest =>
          have hc : c ≠ '.' := by
            rintro rfl
            exact absurd (h '.' rfl) (by decide)
          simp [readDot, hc]

theorem of_dot {dotted : Bool} (h : readDot cs = (dotted, rest)) :
    cs = (if dotted then ['.'] else []) ++ rest := by
  unfold readDot at h
  split at h <;> (cases h; rfl)

theorem tuplet_append (t : Option Digits)
    (h : Begins ['*', '>', '^', '@', '+', '-', '?', '~'] rest) :
    readTuplet (ifGiven (fun ds => 't' :: ds.chars) t ++ rest) = (t.map Digits.value, rest) := by
  cases t with
  | none =>
      cases rest with
      | nil => rfl
      | cons c rest =>
          have hc : c ≠ 't' := by
            rintro rfl
            exact absurd (h 't' rfl) (by decide)
          simp [ifGiven, readTuplet, hc]
  | some ds =>
      obtain ⟨ds, hne, hds⟩ := ds
      have hspan : spanDigits (ds ++ rest) = (ds, rest) :=
        spanDigits_append hds (h.not_mem (by decide))
      simp only [ifGiven, readTuplet, List.cons_append, hspan]
      cases ds with
      | nil => exact absurd rfl hne
      | cons d ds => rfl

theorem exists_of_tuplet {v : Option Nat} (h : readTuplet cs = (v, rest)) :
    ∃ t : Option Digits, cs = ifGiven (fun ds => 't' :: ds.chars) t ++ rest ∧
      v = t.map Digits.value := by
  unfold readTuplet at h
  split at h
  · next rest' =>
      split at h
      · cases h
        exact ⟨none, rfl, rfl⟩
      · next ds rest'' hne hspan =>
          cases h
          obtain ⟨rfl, hds, _⟩ := of_spanDigits hspan
          exact ⟨some ⟨ds, hne, hds⟩, rfl, rfl⟩
  · cases h
    exact ⟨none, rfl, rfl⟩

/-! ## Articulations and glides -/

theorem articulation_append (a : Articulation)
    (h : (∃ more, rest = '~' :: '>' :: more) ∨ Begins ['@', '+', '-', '?'] rest) :
    readArticulation (a.text.toList ++ rest) = (a, rest) := by
  have hclosed : ∀ more : Chars, rest = '>' :: more → False := by
    rintro more rfl
    rcases h with ⟨_, h⟩ | h
    · cases h
    · exact absurd (h '>' rfl) (by decide)
  cases a with
  | plain =>
      change readArticulation rest = (.plain, rest)
      rcases h with ⟨more, rfl⟩ | h
      · rfl
      · cases rest with
        | nil => rfl
        | cons c rest =>
            have hc := h c rfl
            simp only [List.mem_cons, List.not_mem_nil, or_false] at hc
            rcases hc with rfl | rfl | rfl | rfl <;> rfl
  | staccato => rfl
  | legato =>
      change readArticulation ('~' :: rest) = (.legato, rest)
      unfold readArticulation
      split
      · next heq =>
          cases heq
          exact absurd rfl (hclosed _)
      · next heq =>
          cases heq
          rfl
      · next heq => cases heq
  | accent => rfl
  | marcato => rfl

theorem of_articulation {a : Articulation} (h : readArticulation cs = (a, rest)) :
    cs = a.text.toList ++ rest := by
  unfold readArticulation at h
  split at h
  · cases h
    rfl
  · next c rest' _ =>
      split at h
      · next hc =>
          cases h
          unfold Articulation.ofChar? at hc
          split at hc <;> cases hc <;> rfl
      · cases h
        rfl
  · cases h
    rfl

theorem glide_append (g : Bool) (h : g = false → Begins ['@', '+', '-', '?'] rest) :
    readGlide (glideMark g ++ rest) = (g, rest) := by
  cases g with
  | true => rfl
  | false =>
      change readGlide rest = (false, rest)
      cases rest with
      | nil => rfl
      | cons c rest =>
          have hc := h rfl c rfl
          simp only [List.mem_cons, List.not_mem_nil, or_false] at hc
          rcases hc with rfl | rfl | rfl | rfl <;> rfl

theorem of_glide {g : Bool} (h : readGlide cs = (g, rest)) : cs = glideMark g ++ rest := by
  unfold readGlide at h
  split at h <;> (cases h; rfl)

/-! ## Velocities, shifts and probabilities -/

theorem figure_append (f : Figure) (h : Begins ['+', '-', '?', '~'] rest) :
    readDecimal? (f.chars ++ rest) = some (f.decimal, rest) := by
  obtain ⟨front, point, ⟨back, hne, hback⟩, hfront⟩ := f
  have hstop : ∀ c ∈ rest.head?, Text.isDigit c = false := h.not_mem (by decide)
  cases point with
  | true =>
      have hwhole : spanDigits (front ++ '.' :: (back ++ rest)) = (front, '.' :: (back ++ rest)) :=
        spanDigits_append hfront (by rintro _ ⟨⟩; rfl)
      have hfraction : spanDigits (back ++ rest) = (back, rest) := spanDigits_append hback hstop
      unfold readDecimal?
      simp only [Figure.chars, Figure.decimal, if_true, List.append_assoc, List.cons_append, hwhole,
        hfraction]
  | false =>
      have hwhole : spanDigits (front ++ back ++ rest) = (front ++ back, rest) := by
        refine spanDigits_append (fun c hc => ?_) hstop
        exact (List.mem_append.1 hc).elim (hfront c) (hback c)
      have hsome : (front ++ back).isEmpty = false := by
        cases front <;> cases back <;> simp_all
      unfold readDecimal?
      simp only [Figure.chars, Figure.decimal, Bool.false_eq_true, if_false, hwhole, hsome]
      split
      · next heq => exact absurd (h '.' rfl) (by decide)
      · rfl

theorem exists_of_figure {d : Decimal} (h : readDecimal? cs = some (d, rest)) :
    ∃ f : Figure, cs = f.chars ++ rest ∧ d = f.decimal := by
  cases hspan : spanDigits cs with
  | mk whole left =>
  obtain ⟨rfl, hwhole, _⟩ := of_spanDigits hspan
  -- Without a point, or with one that no digit follows, the number ends where its digits end.
  have hplain : (if whole.isEmpty then none else some (⟨whole, []⟩, left)) = some (d, rest) →
      ∃ f : Figure, whole ++ left = f.chars ++ rest ∧ d = f.decimal := by
    intro hread
    split at hread
    · cases hread
    · next hne =>
        cases hread
        refine ⟨⟨[], false, ⟨whole, fun h => hne (h ▸ rfl), hwhole⟩, by simp⟩, rfl, rfl⟩
  simp only [readDecimal?, hspan] at h
  split at h
  · next more =>
      split at h
      · exact hplain h
      · next fraction rest' hne hfraction =>
          cases h
          obtain ⟨rfl, hdigits, _⟩ := of_spanDigits hfraction
          exact ⟨⟨whole, true, ⟨fraction, hne, hdigits⟩, hwhole⟩, by simp [Figure.chars], rfl⟩
  · exact hplain h

theorem exists_of_dynamic {d : Dynamic} (h : readDynamic? cs = some (d, rest)) :
    cs = d.name.toList ++ rest := by
  unfold readDynamic? at h
  split at h <;> cases h <;> rfl

theorem dynamic_append (d : Dynamic) (h : Begins ['+', '-', '?', '~'] rest) :
    readDecimal? (d.name.toList ++ rest) = none ∧
      readDynamic? (d.name.toList ++ rest) = some (d, rest) := by
  constructor
  · cases d <;> rfl
  · cases rest with
    | nil => cases d <;> rfl
    | cons c rest =>
        have hc := h c rfl
        simp only [List.mem_cons, List.not_mem_nil, or_false] at hc
        rcases hc with rfl | rfl | rfl | rfl <;> cases d <;> rfl

theorem loudness_append (l : Option Loudness) (h : Begins ['+', '-', '?', '~'] rest) :
    readLevel (ifGiven (fun l => '@' :: l.chars) l ++ rest) = (l.map Loudness.level, rest) := by
  cases l with
  | none =>
      change readLevel rest = (none, rest)
      cases rest with
      | nil => rfl
      | cons c rest =>
          have hc := h c rfl
          simp only [List.mem_cons, List.not_mem_nil, or_false] at hc
          rcases hc with rfl | rfl | rfl | rfl <;> rfl
  | some l =>
      cases l with
      | figure f =>
          have hread := figure_append f h
          simp [ifGiven, readLevel, Loudness.chars, Loudness.level, hread]
      | dynamic d =>
          obtain ⟨hnumber, hname⟩ := dynamic_append d h
          simp [ifGiven, readLevel, Loudness.chars, Loudness.level, hnumber, hname]

theorem exists_of_loudness {v : Option Level} (h : readLevel cs = (v, rest)) :
    ∃ l : Option Loudness, cs = ifGiven (fun l => '@' :: l.chars) l ++ rest ∧
      v = l.map Loudness.level := by
  unfold readLevel at h
  split at h
  · next rest' =>
      split at h
      · next hread =>
          cases h
          obtain ⟨f, rfl, rfl⟩ := exists_of_figure hread
          exact ⟨some (.figure f), rfl, rfl⟩
      · next hread =>
          cases h
          obtain rfl := exists_of_dynamic hread
          exact ⟨some (.dynamic _), rfl, rfl⟩
      · cases h
        exact ⟨none, rfl, rfl⟩
  · cases h
    exact ⟨none, rfl, rfl⟩

theorem shift_append (s : Option Shift) (h : Begins ['?', '~'] rest) :
    readTiming (ifGiven Shift.chars s ++ rest) = (s.map Shift.value, rest) := by
  cases s with
  | none =>
      change readTiming rest = (none, rest)
      cases rest with
      | nil => rfl
      | cons c rest =>
          have hc := h c rfl
          simp only [List.mem_cons, List.not_mem_nil, or_false] at hc
          rcases hc with rfl | rfl <;> rfl
  | some s =>
      obtain ⟨negative, ds, hne, hds⟩ := s
      have hspan : spanDigits (ds ++ 'm' :: 's' :: rest) = (ds, 'm' :: 's' :: rest) :=
        spanDigits_append hds (by rintro _ ⟨⟩; rfl)
      cases negative <;>
        simp only [ifGiven, Shift.chars, Bool.false_eq_true, if_true, if_false, List.cons_append,
          List.append_assoc, List.nil_append, readTiming, hspan]
      all_goals
        cases ds with
        | nil => exact absurd rfl hne
        | cons d ds => rfl

theorem exists_of_shift {v : Option Int} (h : readTiming cs = (v, rest)) :
    ∃ s : Option Shift, cs = ifGiven Shift.chars s ++ rest ∧ v = s.map Shift.value := by
  have hsigned (negative : Bool) {more ds : Chars}
      (hspan : spanDigits more = (ds, 'm' :: 's' :: rest)) (hne : ds ≠ []) :
      ∃ s : Option Shift, (if negative then '-' else '+') :: more = ifGiven Shift.chars s ++ rest ∧
        some (signed negative (Text.valueOf ds)) = s.map Shift.value := by
    obtain ⟨rfl, hds, _⟩ := of_spanDigits hspan
    exact ⟨some ⟨negative, ds, hne, hds⟩, by simp [ifGiven, Shift.chars], rfl⟩
  unfold readTiming at h
  dsimp only at h
  split at h
  · next more =>
      split at h
      · cases h
        exact ⟨none, rfl, rfl⟩
      · next hne hspan =>
          cases h
          exact hsigned false hspan hne
      · cases h
        exact ⟨none, rfl, rfl⟩
  · next more =>
      split at h
      · cases h
        exact ⟨none, rfl, rfl⟩
      · next hne hspan =>
          cases h
          exact hsigned true hspan hne
      · cases h
        exact ⟨none, rfl, rfl⟩
  · cases h
    exact ⟨none, rfl, rfl⟩

theorem probability_append (f : Option Figure) (h : Begins ['~'] rest) :
    readProbability (ifGiven (fun f => '?' :: f.chars) f ++ rest) =
      (f.map Figure.decimal, rest) := by
  cases f with
  | none =>
      change readProbability rest = (none, rest)
      cases rest with
      | nil => rfl
      | cons c rest =>
          have hc := h c rfl
          simp only [List.mem_cons, List.not_mem_nil, or_false] at hc
          cases hc
          rfl
  | some f =>
      have hread := figure_append f (h.mono (by decide : ∀ c ∈ ['~'], c ∈ ['+', '-', '?', '~']))
      simp [ifGiven, readProbability, hread]

theorem exists_of_probability {v : Option Decimal} (h : readProbability cs = (v, rest)) :
    ∃ f : Option Figure, cs = ifGiven (fun f => '?' :: f.chars) f ++ rest ∧
      v = f.map Figure.decimal := by
  unfold readProbability at h
  split at h
  · next rest' =>
      split at h
      · next hread =>
          cases h
          obtain ⟨f, rfl, rfl⟩ := exists_of_figure hread
          exact ⟨some f, rfl, rfl⟩
      · cases h
        exact ⟨none, rfl, rfl⟩
  · cases h
    exact ⟨none, rfl, rfl⟩

end Partitura.Notation

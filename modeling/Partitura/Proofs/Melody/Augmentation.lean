import Partitura.Proofs.Phrase.InTime

/-!
# A melody played slower

A length that is multiplied is written with the code that says it, plain or dotted, and if there is
none, with the longest plain code that is not longer. Rounding down to plain codes alone keeps the
order of lengths (`beats_roundDown_mono`). The dots break it: a length just above a dotted one has no
code of its own and falls back to the code without the dot, although that is shorter (`LosesDot`). This
is the one way in which a longer request comes out shorter (`lengthOfBeats_le_iff`), for a length and
so for every entry of a melody (`augment_le_iff`).
-/

namespace Partitura

namespace Melody

section

variable [Elementary] {x y : Rat} {c d : DurationCode}

/-! ## §1  Plain codes -/

theorem plainCodes_descend : plainCodes.Pairwise fun c d => (d.beats : Rat) < c.beats := by
  unfold plainCodes
  norm_num [DurationCode.beats]

/-- Between a plain code and its double there is no other. -/
theorem beats_le_or_double_le (hc : c ∈ plainCodes) (hd : d ∈ plainCodes) :
    (d.beats : Rat) ≤ c.beats ∨ 2 * (c.beats : Rat) ≤ d.beats := by
  simp only [plainCodes, List.mem_cons, List.not_mem_nil, or_false] at hc hd
  rcases hc with rfl | rfl | rfl | rfl | rfl | rfl <;>
    rcases hd with rfl | rfl | rfl | rfl | rfl | rfl <;> norm_num [DurationCode.beats]

/-- Every plain code but the longest has its double. -/
theorem exists_double (hc : c ∈ plainCodes) :
    c = .whole ∨ ∃ d ∈ plainCodes, (d.beats : Rat) = 2 * c.beats := by
  simp only [plainCodes, List.mem_cons, List.not_mem_nil, or_false] at hc
  rcases hc with rfl | rfl | rfl | rfl | rfl | rfl
  · exact .inl rfl
  · exact .inr ⟨.whole, by decide, by norm_num [DurationCode.beats]⟩
  · exact .inr ⟨.half, by decide, by norm_num [DurationCode.beats]⟩
  · exact .inr ⟨.quarter, by decide, by norm_num [DurationCode.beats]⟩
  · exact .inr ⟨.eighth, by decide, by norm_num [DurationCode.beats]⟩
  · exact .inr ⟨.sixteenth, by decide, by norm_num [DurationCode.beats]⟩

theorem beats_le_whole (c : DurationCode) :
    (c.beats : Rat) ≤ (DurationCode.whole.beats : Rat) := by
  cases c <;> norm_num [DurationCode.beats]

theorem thirtySecond_le_beats (c : DurationCode) :
    (DurationCode.thirtySecond.beats : Rat) ≤ c.beats := by
  cases c <;> norm_num [DurationCode.beats]

/-! ## §2  Rounding down -/

/-- The longest plain code that is not longer, and at least a thirty-second. -/
def roundDown (x : Rat) : DurationCode :=
  (plainCodes.find? fun c => (c.beats : Rat) ≤ x).getD .thirtySecond

theorem roundDown_mem (x : Rat) : roundDown x ∈ plainCodes := by
  unfold roundDown
  cases hfind : plainCodes.find? fun c => (c.beats : Rat) ≤ x with
  | none => exact (by decide : DurationCode.thirtySecond ∈ plainCodes)
  | some c => exact List.mem_of_find?_eq_some hfind

theorem roundDown_fits (x : Rat) :
    ((roundDown x).beats : Rat) ≤ x ∨ roundDown x = .thirtySecond := by
  unfold roundDown
  cases hfind : plainCodes.find? fun c => (c.beats : Rat) ≤ x with
  | none => exact .inr rfl
  | some c =>
      have hfits := List.find?_some hfind
      exact .inl (of_decide_eq_true hfits)

theorem le_beats_roundDown (hc : c ∈ plainCodes) (h : (c.beats : Rat) ≤ x) :
    (c.beats : Rat) ≤ (roundDown x).beats := by
  have hfound : (plainCodes.find? fun c => (c.beats : Rat) ≤ x).isSome :=
    List.find?_isSome.2 ⟨c, hc, decide_eq_true h⟩
  obtain ⟨d, hfind⟩ := Option.isSome_iff_exists.1 hfound
  unfold roundDown
  rw [hfind]
  change (c.beats : Rat) ≤ d.beats
  obtain ⟨_, longer, shorter, hcodes, hlonger⟩ := List.find?_eq_some_iff_append.1 hfind
  have hdescend := plainCodes_descend
  rw [hcodes] at hc hdescend
  rcases List.mem_append.1 hc with hc | hc
  · -- Whatever comes before the code that is found does not fit.
    have hno := hlonger c hc
    simp [h] at hno
  · rcases List.mem_cons.1 hc with rfl | hc
    · exact le_rfl
    · exact le_of_lt (List.rel_of_pairwise_cons (List.pairwise_append.1 hdescend).2.1 hc)

/-- Rounding down to plain codes keeps the order of lengths. -/
theorem beats_roundDown_mono (hxy : x ≤ y) :
    ((roundDown x).beats : Rat) ≤ (roundDown y).beats := by
  rcases roundDown_fits x with hfits | hleast
  · exact le_beats_roundDown (roundDown_mem x) (hfits.trans hxy)
  · rw [hleast]
    exact thirtySecond_le_beats _

/-- From a plain code up to the next one, lengths are rounded down to it. -/
theorem beats_roundDown_eq (hc : c ∈ plainCodes) (hle : (c.beats : Rat) ≤ x)
    (hlt : c = .whole ∨ x < 2 * c.beats) : ((roundDown x).beats : Rat) = c.beats := by
  refine le_antisymm ?_ (le_beats_roundDown hc hle)
  rcases hlt with rfl | hlt
  · exact beats_le_whole _
  · rcases beats_le_or_double_le hc (roundDown_mem x) with hbelow | habove
    · exact hbelow
    · rcases roundDown_fits x with hfits | hleast
      · exact absurd (habove.trans hfits) (not_le.2 hlt)
      · rw [hleast]
        exact thirtySecond_le_beats c

/-! ## §3  The length of a number of beats -/

/-- The length of a dotted code. -/
def IsDotted (x : Rat) : Prop :=
  ∃ c ∈ plainCodes, x = c.beats * dotFactor

theorem dotFactor_eq : (dotFactor : Rat) = 3 / 2 := by
  norm_num [dotFactor]

theorem lengthOfBeats_cases (x : Rat) :
    (∃ c ∈ plainCodes, x = c.beats ∧ lengthOfBeats x = ⟨c, false⟩) ∨
      (∃ c ∈ plainCodes, x = c.beats * dotFactor ∧ lengthOfBeats x = ⟨c, true⟩) ∨
      (¬ IsDotted x ∧ lengthOfBeats x = ⟨roundDown x, false⟩) := by
  unfold lengthOfBeats
  cases hplain : plainCodes.find? fun c => (c.beats : Rat) == x with
  | some c =>
      have hx := List.find?_some hplain
      exact .inl ⟨c, List.mem_of_find?_eq_some hplain, (eq_of_beq hx).symm, rfl⟩
  | none =>
      refine .inr ?_
      cases hdotted : plainCodes.find? fun c => (c.beats : Rat) == x / dotFactor with
      | some c =>
          have hx := List.find?_some hdotted
          refine .inl ⟨c, List.mem_of_find?_eq_some hdotted, ?_, rfl⟩
          rw [eq_of_beq hx, dotFactor_eq]
          ring
      | none =>
          refine .inr ⟨?_, ?_⟩
          · rintro ⟨c, hc, rfl⟩
            have hno := List.find?_eq_none.1 hdotted c hc
            rw [dotFactor_eq, mul_div_cancel_right₀ _ (by norm_num)] at hno
            exact hno (beq_self_eq_true _)
          · unfold roundDown
            cases plainCodes.find? fun c => decide ((c.beats : Rat) ≤ x) with
            | none => rfl
            | some c => rfl

/-- A plain length is not a dotted one: it does not lie between a code and its double. -/
theorem not_isDotted_beats (hc : c ∈ plainCodes) : ¬ IsDotted c.beats := by
  rintro ⟨d, hd, heq⟩
  rw [dotFactor_eq] at heq
  have hpos := d.beats_pos
  rcases beats_le_or_double_le hd hc with hle | hge <;> linarith

/-- A dotted length is written as it is. -/
theorem beats_lengthOfBeats_dotted (h : IsDotted x) : ((lengthOfBeats x).beats : Rat) = x := by
  rcases lengthOfBeats_cases x with ⟨c, hc, rfl, _⟩ | ⟨c, _, hx, hlength⟩ | ⟨hno, _⟩
  · exact absurd h (not_isDotted_beats hc)
  · rw [hlength, hx]
    rfl
  · exact absurd h hno

/-- All others are rounded down. -/
theorem beats_lengthOfBeats (h : ¬ IsDotted x) :
    ((lengthOfBeats x).beats : Rat) = (roundDown x).beats := by
  rcases lengthOfBeats_cases x with ⟨c, hc, hx, hlength⟩ | ⟨c, hc, hx, _⟩ | ⟨_, hlength⟩
  · have hpos := c.beats_pos
    rw [hlength, beats_roundDown_eq hc hx.ge (.inr (by linarith))]
    rfl
  · exact absurd ⟨c, hc, hx⟩ h
  · rw [hlength]
    rfl

/-- A dot only adds to what is rounded down. -/
theorem beats_roundDown_le (x : Rat) :
    ((roundDown x).beats : Rat) ≤ (lengthOfBeats x).beats := by
  by_cases h : IsDotted x
  · rw [beats_lengthOfBeats_dotted h]
    obtain ⟨c, hc, rfl⟩ := h
    have hpos := c.beats_pos
    rw [dotFactor_eq]
    rw [beats_roundDown_eq hc (by linarith) (.inr (by linarith))]
    linarith
  · exact (beats_lengthOfBeats h).ge

/-! ## §4  Where the order is lost -/

/-- The first length is dotted, and the second is longer but not as long as the next plain code, so
that it falls back to the code without the dot. After the longest code there is no next one. -/
def LosesDot (x y : Rat) : Prop :=
  ∃ c ∈ plainCodes, x = c.beats * dotFactor ∧ x < y ∧ (c = .whole ∨ y < 2 * c.beats)

/-- What lies between a dotted length and the next plain code is not dotted itself. -/
theorem LosesDot.not_isDotted (h : LosesDot x y) : ¬ IsDotted y := by
  obtain ⟨c, hc, rfl, hlonger, hnext⟩ := h
  rintro ⟨d, hd, rfl⟩
  rw [dotFactor_eq] at hlonger hnext
  have hpos := c.beats_pos
  rcases hnext with rfl | hnext
  · have hwhole := beats_le_whole d
    linarith
  · rcases beats_le_or_double_le hc hd with hle | hge <;> linarith

theorem LosesDot.lengthOfBeats_lt (h : LosesDot x y) :
    ((lengthOfBeats y).beats : Rat) < (lengthOfBeats x).beats := by
  rw [beats_lengthOfBeats h.not_isDotted]
  obtain ⟨c, hc, rfl, hlonger, hnext⟩ := h
  rw [beats_lengthOfBeats_dotted ⟨c, hc, rfl⟩]
  rw [dotFactor_eq] at hlonger ⊢
  have hpos := c.beats_pos
  rw [beats_roundDown_eq hc (by linarith) hnext]
  linarith

theorem lengthOfBeats_le (hxy : x ≤ y) (h : ¬ LosesDot x y) :
    ((lengthOfBeats x).beats : Rat) ≤ (lengthOfBeats y).beats := by
  by_cases hdotted : IsDotted x
  · rcases eq_or_lt_of_le hxy with rfl | hlonger
    · exact le_rfl
    · obtain ⟨c, hc, hx⟩ := hdotted
      rw [beats_lengthOfBeats_dotted ⟨c, hc, hx⟩]
      -- The dot is not lost, so the second length reaches the next plain code.
      have hnext : ¬ (c = .whole ∨ y < 2 * c.beats) :=
        fun hnext => h ⟨c, hc, hx, hlonger, hnext⟩
      obtain ⟨hwhole, hreach⟩ := not_or.1 hnext
      obtain ⟨d, hd, hdouble⟩ := (exists_double hc).resolve_left hwhole
      calc x ≤ 2 * c.beats := by
            have hpos := c.beats_pos
            rw [hx, dotFactor_eq]
            linarith
        _ = d.beats := hdouble.symm
        _ ≤ (roundDown y).beats := le_beats_roundDown hd (hdouble.trans_le (not_lt.1 hreach))
        _ ≤ (lengthOfBeats y).beats := beats_roundDown_le y
  · calc ((lengthOfBeats x).beats : Rat) = (roundDown x).beats := beats_lengthOfBeats hdotted
      _ ≤ (roundDown y).beats := beats_roundDown_mono hxy
      _ ≤ (lengthOfBeats y).beats := beats_roundDown_le y

/-- The longer of two lengths is written no shorter, unless a dot is lost. -/
theorem lengthOfBeats_le_iff (hxy : x ≤ y) :
    ((lengthOfBeats x).beats : Rat) ≤ (lengthOfBeats y).beats ↔ ¬ LosesDot x y :=
  ⟨fun hle hlost => absurd hlost.lengthOfBeats_lt (not_lt.2 hle), lengthOfBeats_le hxy⟩

end

/-! ## §5  The length of an entry -/

section

open Notation

/-- The length that a written note or rest shows: the code and the dot after its colon. -/
def writtenLength? (text : String) : Option Length := do
  let (code, rest) ← readCode? (text.toList.dropWhile (· ≠ ':')).tail
  let code ← DurationCode.ofText? (String.ofList code)
  return ⟨code, (readDot rest).1⟩

theorem writtenLength?_of_chars {text : String} {name rest : Chars} {l : Length}
    (htext : text.toList = name ++ ':' :: (l.text.toList ++ rest)) (hname : ':' ∉ name)
    (hrest : Begins ['t', '*', '>', '^', '@', '+', '-', '?', '~'] rest) :
    writtenLength? text = some l := by
  obtain ⟨code, dotted⟩ := l
  have hbefore : ∀ c ∈ name, decide (c ≠ ':') = true := by
    intro c hc
    refine decide_eq_true ?_
    rintro rfl
    exact hname hc
  have hlength : (Length.mk code dotted).text.toList ++ rest =
      code.text.toList ++ ((if dotted then ['.'] else []) ++ rest) := by
    unfold Length.text
    cases dotted <;> simp
  have hdot : Begins ['.', 't', '*', '>', '^', '@', '+', '-', '?', '~']
      ((if dotted then ['.'] else []) ++ rest) :=
    .append ((Spelling.begins_dot _).mono (by decide)) (hrest.mono (by decide))
  unfold writtenLength?
  rw [htext, (span_append hbefore (by simp)).2, List.tail_cons, hlength, code_append code hdot]
  change (DurationCode.ofText? (String.ofList code.text.toList)).bind _ = _
  rw [String.ofList_toList, DurationCode.ofText?_text, dot_append dotted hrest]
  rfl

variable {α : Type} [Scalar α]

/-- What stands behind the length of a note. -/
def behindLength (n : NoteToken α) : Chars :=
  ifGiven (fun t => 't' :: (toString t).toList) n.tuplet ++ (n.articulation.text.toList ++
    (glideMark n.glide ++ (ifGiven (fun x => '@' :: (Scalar.general x).toList) n.velocity ++
      (n.shiftText ++ n.chanceText))))

theorem begins_behindLength (n : NoteToken α) :
    Begins ['t', '*', '>', '^', '@', '+', '-', '?', '~'] (behindLength n) := by
  refine .append (Spelling.begins_ifGiven (fun _ => .cons (by decide)) _) ?_
  refine .append ((Spelling.begins_articulation _).mono (by decide)) ?_
  refine .append ((Spelling.begins_glideMark _).mono (by decide)) ?_
  refine .append (Spelling.begins_ifGiven (fun _ => .cons (by decide)) _) ?_
  exact n.begins_shiftText.mono (by decide)

/-- The length that a token shows is the one that it has. -/
theorem writtenLength?_text (t : Token α) : writtenLength? t.text = some t.length := by
  cases t with
  | rest l =>
      have htext : (Token.rest l : Token α).text.toList = ['r'] ++ ':' :: (l.text.toList ++ []) := by
        simp [Token.text]
      exact writtenLength?_of_chars htext (by decide) .nil
  | note n =>
      have htext : (Token.note n).text.toList =
          n.pitch.text.toList ++ ':' :: (n.length.text.toList ++ behindLength n) := by
        simp [Token.text, behindLength, NoteToken.toList_text, NoteToken.frontText,
          NoteToken.middleText]
      exact writtenLength?_of_chars htext n.pitch.colon_not_mem_text (begins_behindLength n)

example : writtenLength? "Bb-1:16.t3*@mf" = some ⟨.sixteenth, true⟩ := rfl

end

/-! ## §6  A melody played slower -/

section

variable [Elementary]

theorem length_scaleToken (f : Rat) (t : Token Rat) :
    (scaleToken f t).length = lengthOfBeats (t.length.beats * f) := by
  cases t <;> rfl

theorem augment_ok {notes : List String} {ts : List (Token Rat)}
    (hread : tokens Rat notes = .ok ts) (f : Rat) :
    augment notes f = .ok (write (ts.map (scaleToken f))) := by
  unfold augment
  rw [hread]
  rfl

/-- An entry is written with its own length, multiplied. -/
theorem writtenLength?_augmented {ts : List (Token Rat)} {i : Nat} {t : Token Rat}
    (h : ts[i]? = some t) (f : Rat) :
    (write (ts.map (scaleToken f)))[i]?.bind writtenLength? =
      some (lengthOfBeats (t.length.beats * f)) := by
  unfold write
  rw [List.getElem?_map, List.getElem?_map, h]
  change writtenLength? (scaleToken f t).text = _
  rw [writtenLength?_text, length_scaleToken]

/-- **Augmentation is monotone but for lost dots.** A melody that is read can be multiplied by any
factors. For each note and each rest, the larger of two factors gives the longer written length or the
same, exactly if no dot is lost on the way from the one multiplied length to the other. -/
theorem augment_le_iff {notes : List String} {ts : List (Token Rat)} {f g : Rat}
    (hread : tokens Rat notes = .ok ts) (hfg : f ≤ g) :
    ∃ shorter longer : List String,
      augment notes f = .ok shorter ∧ augment notes g = .ok longer ∧
      shorter.length = ts.length ∧ longer.length = ts.length ∧
      ∀ (i : Nat) (t : Token Rat), ts[i]? = some t → ∃ k l : Length,
        shorter[i]?.bind writtenLength? = some k ∧ longer[i]?.bind writtenLength? = some l ∧
        ((k.beats : Rat) ≤ l.beats ↔ ¬ LosesDot (t.length.beats * f) (t.length.beats * g)) := by
  refine ⟨_, _, augment_ok hread f, augment_ok hread g, by simp [write], by simp [write], ?_⟩
  intro i t ht
  refine ⟨_, _, writtenLength?_augmented ht f, writtenLength?_augmented ht g, ?_⟩
  exact lengthOfBeats_le_iff (mul_le_mul_of_nonneg_left hfg t.length.beats_pos.le)

end

/-- A dotted rest, a staccato quarter and an eighth of a triplet. -/
def sigh : List String :=
  ["r:q.", "C4:q*", "E4:8t3"]

def sighTokens : List (Token Rat) :=
  [.rest ⟨.quarter, true⟩,
   .note { pitch := ⟨⟨.c, .natural⟩, 4⟩, length := ⟨.quarter, false⟩, articulation := .staccato },
   .note { pitch := ⟨⟨.e, .natural⟩, 4⟩, length := ⟨.eighth, false⟩, tuplet := some 3 }]

/-- The theorem at work: by the larger factor the rest is written no shorter, but the quarter is. -/
theorem sigh_augmented : ∃ _ : Elementary, tokens Rat sigh = .ok sighTokens ∧
    ∃ shorter longer : List String,
      augment sigh (3 / 2 : Rat) = .ok shorter ∧ augment sigh (7 / 4 : Rat) = .ok longer ∧
      (∃ k l : Length, shorter[0]?.bind writtenLength? = some k ∧
        longer[0]?.bind writtenLength? = some l ∧ (k.beats : Rat) ≤ l.beats) ∧
      (∃ k l : Length, shorter[1]?.bind writtenLength? = some k ∧
        longer[1]?.bind writtenLength? = some l ∧ (l.beats : Rat) < k.beats) := by
  let _ := Elementary.coarse
  have hread : tokens Rat sigh = .ok sighTokens := rfl
  obtain ⟨shorter, longer, hshorter, hlonger, _, _, hlengths⟩ :=
    augment_le_iff (f := 3 / 2) (g := 7 / 4) hread (by norm_num)
  refine ⟨inferInstance, hread, shorter, longer, hshorter, hlonger, ?_, ?_⟩
  · obtain ⟨k, l, hk, hl, hle⟩ := hlengths 0 _ rfl
    refine ⟨k, l, hk, hl, hle.2 ?_⟩
    rintro ⟨c, _, hdotted, _⟩
    cases c <;> norm_num [Token.length, Length.beats, DurationCode.beats, dotFactor] at hdotted
  · obtain ⟨k, l, hk, hl, hle⟩ := hlengths 1 _ rfl
    refine ⟨k, l, hk, hl, not_le.1 fun hno => hle.1 hno ?_⟩
    refine ⟨.quarter, by decide, ?_, ?_, .inr ?_⟩
    all_goals norm_num [Token.length, Length.beats, DurationCode.beats, dotFactor]

/-- A longer request comes out shorter: one and a half quarters are a dotted quarter, but one and three
quarters are a quarter. -/
theorem quarter_loses_dot : ∃ _ : Elementary,
    (0 < (3 / 2 : Rat) ∧ (3 / 2 : Rat) ≤ 7 / 4) ∧
    augment ["C4:q"] (3 / 2 : Rat) = .ok ["C4:q."] ∧ augment ["C4:q"] (7 / 4 : Rat) = .ok ["C4:q"] ∧
    ∃ k l : Length, writtenLength? "C4:q." = some k ∧ writtenLength? "C4:q" = some l ∧
      ¬ (k.beats : Rat) ≤ l.beats := by
  let _ := Elementary.coarse
  have hread : tokens Rat ["C4:q"] =
      .ok [.note { pitch := ⟨⟨.c, .natural⟩, 4⟩, length := ⟨.quarter, false⟩ }] := rfl
  refine ⟨inferInstance, by norm_num, ?_, ?_, ⟨.quarter, true⟩, ⟨.quarter, false⟩, rfl, rfl, ?_⟩
  · rw [augment_ok hread]
    exact congrArg Except.ok (by decide +kernel)
  · rw [augment_ok hread]
    exact congrArg Except.ok (by decide +kernel)
  · norm_num [Length.beats, DurationCode.beats, dotFactor]

end Melody

end Partitura

import Mathlib.Data.List.DropRight
import Partitura.Proofs.Melody.Certain
import Partitura.Proofs.Melody.Moving
import Partitura.Proofs.Phrase.Placing

/-!
# A melody played backwards

Compact texts are split before a melody is reversed, and what they are split into is not split again
(`Compact.expand_expand`). So reversing twice leaves the single notes. A reversed melody takes the time
of the melody, and each of its notes lies as far from the beginning as the end of the note, by its
written length, lay from the end (`ofTokensFrom_reverse`): `retrograde_reverses_time`.
-/

namespace Partitura

/-! ## §1  Splitting compact texts once and twice -/

namespace Text

theorem dropWhile_stripEnd (cs : List Char) :
    (stripEnd (cs.dropWhile isBlank)).dropWhile isBlank = stripEnd (cs.dropWhile isBlank) := by
  have hshort : stripEnd (cs.dropWhile isBlank) <+: cs.dropWhile isBlank :=
    List.rdropWhile_prefix isBlank _
  rw [List.dropWhile_eq_self_iff]
  intro hpos hblank
  have hlength := hpos.trans_le hshort.length_le
  have hhead := List.dropWhile_get_zero_not isBlank cs hlength
  rw [hshort.getElem hpos] at hblank
  exact hhead hblank

/-- A text is stripped once. -/
theorem stripChars_stripChars (cs : List Char) : stripChars (stripChars cs) = stripChars cs := by
  unfold stripChars
  rw [dropWhile_stripEnd]
  exact List.rdropWhile_idempotent isBlank _

/-- Words hold no blanks. -/
theorem isBlank_of_mem_wordsFrom {word cs : List Char} {w : String}
    (hword : ∀ c ∈ word, isBlank c = false) (hw : w ∈ wordsFrom word cs) :
    ∀ c ∈ w.toList, isBlank c = false := by
  have hread {word : List Char} (hword : ∀ c ∈ word, isBlank c = false) :
      ∀ c ∈ (String.ofList word.reverse).toList, isBlank c = false := by
    intro c hc
    rw [String.toList_ofList] at hc
    exact hword c (List.mem_reverse.1 hc)
  have hnone : ∀ c ∈ ([] : List Char), isBlank c = false := by simp
  induction cs generalizing word with
  | nil =>
      unfold wordsFrom at hw
      split at hw
      · cases hw
      · cases List.mem_singleton.1 hw
        exact hread hword
  | cons d cs ih =>
      unfold wordsFrom at hw
      split at hw
      · split at hw
        · exact ih hnone hw
        · rcases List.mem_cons.1 hw with rfl | hw
          · exact hread hword
          · exact ih hnone hw
      · next hd =>
          refine ih ?_ hw
          intro c hc
          rcases List.mem_cons.1 hc with rfl | hc
          · exact Bool.eq_false_iff.2 hd
          · exact hword c hc

end Text

namespace Compact

/-- A text without a bar line is one note if no space is left in it when it is stripped. -/
theorem notesOf_single {text : String} (hspace : ' ' ∉ Text.stripChars text.toList)
    (hbar : '|' ∉ text.toList) : notesOf text = [Text.strip text] := by
  unfold notesOf
  rw [if_neg]
  simp [hspace, hbar]

/-- What a text is split into is not split again. -/
theorem notesOf_of_mem {text single : String} (h : single ∈ notesOf text) :
    notesOf single = [single] := by
  unfold notesOf at h
  split at h
  · have hblank := Text.isBlank_of_mem_wordsFrom (by simp) h
    have hstrip := Text.stripChars_of_not_blank hblank
    have hspace : ' ' ∉ single.toList := fun hmem => absurd (hblank ' ' hmem) (by decide)
    have hbar : '|' ∉ single.toList := by
      intro hmem
      have hsource := (Text.mem_of_mem_wordsFrom h hmem).resolve_left nofun
      rw [String.toList_ofList] at hsource
      obtain ⟨c, _, hc⟩ := List.mem_map.1 hsource
      split at hc
      · exact absurd hc (by decide)
      · next hne => exact hne hc
    rw [notesOf_single (hstrip.symm ▸ hspace) hbar, Text.strip, hstrip, String.ofList_toList]
  · next hcompact =>
      cases List.mem_singleton.1 h
      have hneither : ' ' ∉ Text.stripChars text.toList ∧ '|' ∉ text.toList := by
        simpa using hcompact
      have hstrip : Text.stripChars (Text.strip text).toList = (Text.strip text).toList := by
        rw [Text.strip, String.toList_ofList, Text.stripChars_stripChars]
      have hspace : ' ' ∉ Text.stripChars (Text.strip text).toList := by
        rw [hstrip, Text.strip, String.toList_ofList]
        exact hneither.1
      have hbar : '|' ∉ (Text.strip text).toList := by
        rw [Text.strip, String.toList_ofList]
        exact fun hmem => hneither.2 (Text.mem_of_mem_stripChars hmem)
      rw [notesOf_single hspace hbar, Text.strip, hstrip, String.ofList_toList]

theorem notesOf_of_mem_expand {texts : List String} {single : String} (h : single ∈ expand texts) :
    notesOf single = [single] := by
  obtain ⟨text, _, hmem⟩ := List.mem_flatMap.1 h
  exact notesOf_of_mem hmem

/-- **Splitting is done once.** -/
theorem expand_expand (texts : List String) : expand (expand texts) = expand texts :=
  expand_of_single fun _ h => notesOf_of_mem_expand h

end Compact

namespace Melody

theorem expand_retrograde (notes : List String) :
    Compact.expand (retrograde notes) = retrograde notes := by
  refine Compact.expand_of_single fun text htext => ?_
  exact Compact.notesOf_of_mem_expand (List.mem_reverse.1 htext)

theorem retrograde_retrograde (notes : List String) :
    retrograde (retrograde notes) = Compact.expand notes := by
  change (Compact.expand (retrograde notes)).reverse = _
  rw [expand_retrograde, retrograde, List.reverse_reverse]

/-- A reversed melody is read like the melody, from its end. -/
theorem tokens_retrograde {α : Type} [Scalar α] {notes : List String} {ts : List (Token α)}
    (h : tokens α notes = .ok ts) : tokens α (retrograde notes) = .ok ts.reverse := by
  unfold tokens
  rw [expand_retrograde]
  exact Outcome.mapM_of_forall₂ (List.forall₂_reverse_iff.2 (Outcome.mapM_ok h))

end Melody

/-! ## §2  Playing a reversed melody -/

/-- A note that ended, by a written length, before the end now begins as much after the beginning; the
rest of it stays. -/
def Note.mirror (total : Rat) (n : Note Rat) (length : Rat) : Note Rat :=
  { n with start := total - n.start - length }

namespace Phrase

variable [Elementary] {c : Context Rat} {useOwn : Bool} {scale start : Rat}

/-- The written lengths of the notes among tokens, at a scale. -/
def noteLengths (scale : Rat) (ts : List (Token Rat)) : List Rat :=
  ts.filterMap fun
    | .note t => some (t.beats * scale)
    | .rest _ => none

theorem length_noteLengths (scale : Rat) (ts : List (Token Rat)) :
    (noteLengths scale ts).length = Melody.countNotes ts := by
  induction ts with
  | nil => rfl
  | cons t ts ih =>
      cases t with
      | rest l => simpa [noteLengths] using ih
      | note t => simpa [noteLengths] using ih

/-- Tokens in reverse order are played from another start in reverse order: each note as long before
the other end as it was behind the start. -/
theorem ofTokensFrom_reverse {ts : List (Token Rat)} {notes : List (Note Rat)} {finish : Rat}
    (h : ofTokensFrom c scale useOwn start ts = .ok (notes, finish)) (start' : Rat) :
    ofTokensFrom c scale useOwn start' ts.reverse =
      .ok ((List.zipWith (Note.mirror (start' + finish)) notes (noteLengths scale ts)).reverse,
        start' + (finish - start)) := by
  induction ts generalizing start notes with
  | nil =>
      cases h
      rw [sub_self, add_zero]
      rfl
  | cons t ts ih =>
      -- The first token is now the last, and is played from where the others end.
      have hlast (beats : Rat) : start' + (finish - (start + beats * scale)) + beats * scale =
          start' + (finish - start) := by
        ring
      rw [List.reverse_cons]
      cases t with
      | rest l =>
          have halone : ofTokensFrom c scale useOwn (start' + (finish - (start + l.beats * scale)))
              [.rest l] = .ok ([], start' + (finish - start)) := by
            rw [← hlast l.beats]
            rfl
          have hwhole := ofTokensFrom_append (ih h) halone
          simpa [noteLengths] using hwhole
      | note t =>
          obtain ⟨n, more, hn, hmore, rfl⟩ := of_ofTokensFrom_note h
          have hmirror : { n with start := start' + (finish - (start + t.beats * scale)) } =
              n.mirror (start' + finish) (t.beats * scale) := by
            unfold Note.mirror
            rw [start_noteOfToken hn]
            congr 1
            ring
          have halone : ofTokensFrom c scale useOwn (start' + (finish - (start + t.beats * scale)))
              [.note t] = .ok ([n.mirror (start' + finish) (t.beats * scale)],
                start' + (finish - start)) := by
            rw [← hmirror, ← hlast t.beats]
            exact ofTokensFrom_note (noteOfToken_elsewhere hn _) rfl
          have hwhole := ofTokensFrom_append (ih hmore) halone
          simpa [noteLengths] using hwhole

end Phrase

open Phrase

/-- **Retrograde is time reversal.** Reversing twice leaves the single notes, which are split no
further. And wherever notes can be played they can be played backwards: the phrase takes as long, and
its notes are the same ones in reverse order, except that a note of a written length begins as long
before the end as it ended, by that length, behind the start. -/
theorem Melody.retrograde_reverses_time :
    (∀ notes : List String, retrograde (retrograde notes) = Compact.expand notes ∧
      Compact.expand (Compact.expand notes) = Compact.expand notes) ∧
    ∀ [Elementary] (c : Context Rat) (scale : Rat) (useOwn : Bool) (notes : List String)
      (p : Phrase Rat), ofNotes c scale useOwn notes = .ok p →
        ∃ ts p', Melody.tokens Rat notes = .ok ts ∧
          ofNotes c scale useOwn (retrograde notes) = .ok p' ∧ p'.beats = p.beats ∧
          (noteLengths scale ts).length = p.notes.length ∧
          p'.notes = (List.zipWith (Note.mirror p.beats) p.notes (noteLengths scale ts)).reverse := by
  refine ⟨fun notes => ⟨retrograde_retrograde notes, Compact.expand_expand notes⟩, ?_⟩
  intro _ c scale useOwn notes p hp
  obtain ⟨ts, hread, _⟩ := Outcome.bind_ok hp
  have hplayed := (ofNotes_ok_iff hread).1 hp
  have hreversed := ofTokensFrom_reverse hplayed 0
  rw [zero_add, zero_add, sub_zero] at hreversed
  have hlength : (noteLengths scale ts).length = p.notes.length := by
    obtain ⟨played, hagain, hlength⟩ := ofTokensFrom_ok c scale useOwn 0 ts
    obtain ⟨hnotes, _⟩ := Prod.mk.inj (Except.ok.inj (hplayed.symm.trans hagain))
    rw [length_noteLengths, hnotes, hlength]
  let reversed : Phrase Rat :=
    ⟨(List.zipWith (Note.mirror p.beats) p.notes (noteLengths scale ts)).reverse, p.beats⟩
  have hreversed' : ofNotes c scale useOwn (retrograde notes) = .ok reversed :=
    (ofNotes_ok_iff (tokens_retrograde hread)).2 hreversed
  exact ⟨ts, reversed, hread, hreversed', rfl, hlength, rfl⟩

/-- The theorem at work: the long note comes first now, and the note of the triplet begins a third of a
beat before the end, though it sounds for a tenth of a beat only. -/
theorem Melody.stumble_reversed : ∃ _ : Elementary, ∃ p p' : Phrase Rat,
    ofNotes plainContext 1.0 true stumble = .ok p ∧ p.beats = 13 / 3 ∧
    p.notes.map Note.start = [0, 4 / 3] ∧
    ofNotes plainContext 1.0 true (retrograde stumble) = .ok p' ∧ p'.beats = 13 / 3 ∧
    p'.notes.map Note.start = [0, 4] := by
  let _ := Elementary.coarse
  obtain ⟨p, hp, hchecked⟩ := Outcome.exists_of_any (r := ofNotes plainContext 1.0 true stumble)
    (p := fun p => p.beats = 13 / 3 && p.notes.map Note.start = [0, 4 / 3]) (by decide +kernel)
  obtain ⟨hbeats, hstarts⟩ : p.beats = 13 / 3 ∧ p.notes.map Note.start = [0, 4 / 3] := by
    simpa using hchecked
  obtain ⟨ts, p', hread, hp', hbeats', _, hnotes'⟩ :=
    retrograde_reverses_time.2 plainContext 1.0 true stumble p hp
  obtain rfl : stumbleTokens = ts := Except.ok.inj (tokens_stumble.symm.trans hread)
  have hlengths : noteLengths 1.0 stumbleTokens = [1 / 3, 3] := by decide +kernel
  refine ⟨inferInstance, p, p', hp, hbeats, hstarts, hp', hbeats'.trans hbeats, ?_⟩
  have htwo : p.notes.length = 2 := by simpa using congrArg List.length hstarts
  obtain ⟨first, last, hnotes⟩ := List.length_eq_two.1 htwo
  rw [hnotes] at hstarts hnotes'
  obtain ⟨hfirst, hlast⟩ : first.start = 0 ∧ last.start = 4 / 3 := by simpa using hstarts
  rw [hnotes', hlengths, hbeats]
  norm_num [Note.mirror, hfirst, hlast]

end Partitura

import Partitura.Melody.Continuation
import Partitura.Pattern.Resolution
import Partitura.Proofs.Notation.Writing

/-!
# Notes that always sound

A note may sound with a probability only if the mark of one stands in its text. No way of changing a
melody adds the mark: what is read without it is written without it (§2), so transforms (§3) and
continuations (§4) of a melody without the mark have none either.
-/

namespace Partitura

open Notation

variable {α : Type} [Scalar α]

/-! ## §1  Texts -/

namespace Text

variable {c : Char} {cs : List Char}

theorem mem_of_mem_wordsFrom {word : List Char} {w : String} (hw : w ∈ wordsFrom word cs)
    (h : c ∈ w.toList) : c ∈ word ∨ c ∈ cs := by
  induction cs generalizing word with
  | nil =>
      unfold wordsFrom at hw
      split at hw
      · cases hw
      · cases List.mem_singleton.1 hw
        rw [String.toList_ofList] at h
        exact .inl (List.mem_reverse.1 h)
  | cons d cs ih =>
      unfold wordsFrom at hw
      split at hw
      · split at hw
        · exact .inr (List.mem_cons_of_mem d ((ih hw).resolve_left nofun))
        · rcases List.mem_cons.1 hw with rfl | hw
          · rw [String.toList_ofList] at h
            exact .inl (List.mem_reverse.1 h)
          · exact .inr (List.mem_cons_of_mem d ((ih hw).resolve_left nofun))
      · rcases ih hw with hword | hcs
        · rcases List.mem_cons.1 hword with rfl | hword
          · exact .inr List.mem_cons_self
          · exact .inl hword
        · exact .inr (List.mem_cons_of_mem d hcs)

end Text

/-- Written notes without the mark of a probability. -/
def Certain (notes : List String) : Prop :=
  ∀ text ∈ notes, '?' ∉ text.toList

theorem Certain.sublist {notes notes' : List String} (h : Certain notes)
    (hsub : notes'.Sublist notes) : Certain notes' :=
  fun text htext => h text (hsub.mem htext)

theorem Certain.append {notes notes' : List String} (h : Certain notes) (h' : Certain notes') :
    Certain (notes ++ notes') :=
  fun text htext => (List.mem_append.1 htext).elim (h text) (h' text)

theorem Certain.expand {notes : List String} (h : Certain notes) : Certain (Compact.expand notes) := by
  intro text htext hmark
  obtain ⟨compact, hcompact, htext⟩ := List.mem_flatMap.1 htext
  refine h compact hcompact ?_
  unfold Compact.notesOf at htext
  split at htext
  · have hmem := (Text.mem_of_mem_wordsFrom htext hmark).resolve_left nofun
    rw [String.toList_ofList] at hmem
    obtain ⟨c, hc, hmap⟩ := List.mem_map.1 hmem
    split at hmap
    · exact absurd hmap (by decide)
    · exact hmap ▸ hc
  · cases List.mem_singleton.1 htext
    rw [Text.strip, String.toList_ofList] at hmark
    exact Text.mem_of_mem_stripChars hmark

/-! ## §2  Tokens -/

/-- A token that sounds always, if it sounds at all. -/
def Token.Certain : Token α → Prop
  | .note n => n.probability = none
  | .rest _ => True

theorem Token.certain_of_parse {text : String} {t : Token α} (h : parse text = .ok t)
    (hmark : '?' ∉ text.toList) : t.Certain := by
  cases t with
  | rest l => trivial
  | note n =>
      obtain ⟨s, hwrites, _, rfl⟩ := (NoteToken.parse_ok_iff n).1 (parse_note_iff.1 h)
      have hchars : '?' ∉ s.chars := fun hmem =>
        hmark (Text.mem_of_mem_stripChars (hwrites ▸ hmem))
      cases hprobability : s.probability with
      | none =>
          change s.probability.map _ = none
          rw [hprobability]
          rfl
      | some f =>
          refine absurd ?_ hchars
          simp [Spelling.chars, hprobability, ifGiven]

theorem Token.Certain.text {t : Token α} (h : t.Certain) : '?' ∉ t.text.toList := by
  intro hmem
  cases t with
  | rest l =>
      have hrest : ∀ l : Length, '?' ∉ ("r:" ++ l.text).toList := by
        rintro ⟨code, dotted⟩
        cases code <;> cases dotted <;> decide
      exact hrest l hmem
  | note n =>
      have hnone : n.chanceText = [] := by
        unfold NoteToken.chanceText
        rw [h]
        rfl
      have hdigit : Text.isDigit '?' = false := by decide
      have hmarks : '?' ∉ Spelling.frontMarks ∧ '?' ∉ NoteToken.middleMarks := by decide
      rw [Token.text, NoteToken.toList_text, hnone, List.append_nil, List.mem_append] at hmem
      rcases hmem with hmem | hmem
      · rcases NoteToken.mem_frontText hmem with hfront | hfront
        · exact absurd hfront (by rw [hdigit]; decide)
        · exact hmarks.1 hfront
      · rcases NoteToken.mem_middleText hmem with hmiddle | hmiddle
        · exact absurd hmiddle (by rw [hdigit]; decide)
        · exact hmarks.2 hmiddle

theorem Certain.tokens {notes : List String} (h : Certain notes) {ts : List (Token α)}
    (hread : Melody.tokens α notes = .ok ts) : ∀ t ∈ ts, t.Certain := by
  intro t ht
  obtain ⟨text, htext, hparse⟩ := exists_of_mem_right (Outcome.mapM_ok hread) ht
  exact Token.certain_of_parse hparse (h.expand text htext)

theorem certain_write {ts : List (Token α)} (h : ∀ t ∈ ts, t.Certain) :
    Certain (Melody.write ts) := by
  intro text htext
  obtain ⟨t, ht, rfl⟩ := List.mem_map.1 htext
  exact (h t ht).text

/-! ## §3  Transforms -/

namespace Melody

/-- Tokens that are changed one by one, without a word about their probability. -/
theorem certain_write_map {f : Token α → Token α} (hf : ∀ t : Token α, t.Certain → (f t).Certain)
    {ts : List (Token α)} (h : ∀ t ∈ ts, t.Certain) : Certain (write (ts.map f)) := by
  refine certain_write fun t ht => ?_
  obtain ⟨t', ht', rfl⟩ := List.mem_map.1 ht
  exact hf t' (h t' ht')

omit [Scalar α] in
theorem certain_mapMidi (f : Int → Int) {t : Token α} (h : t.Certain) : (mapMidi f t).Certain := by
  cases t with
  | note n => exact h
  | rest l => trivial

theorem certain_scaleToken (factor : α) {t : Token α} (h : t.Certain) :
    (scaleToken factor t).Certain := by
  cases t with
  | note n => exact h
  | rest l => trivial

variable {notes changed : List String}

theorem certain_transpose (h : Certain notes) {semitones : Int}
    (hchanged : transpose α notes semitones = .ok changed) : Certain changed := by
  obtain ⟨ts, hts, hchanged⟩ := Outcome.bind_ok hchanged
  cases hchanged
  refine certain_write_map (fun t ht => ?_) (h.tokens hts)
  unfold transposeToken
  split
  · exact ht
  · exact certain_mapMidi _ ht

theorem certain_augmentBy (h : Certain notes) {factor : Value α}
    (hchanged : augmentBy notes factor = .ok changed) : Certain changed := by
  obtain ⟨ts, hts, hchanged⟩ := Outcome.bind_ok hchanged
  split at hchanged
  · cases hchanged
    exact nofun
  · obtain ⟨x, _, hchanged⟩ := Outcome.bind_ok hchanged
    cases hchanged
    exact certain_write_map (fun t => certain_scaleToken x) (h.tokens hts)

theorem certain_invert (h : Certain notes) {axis : Option String}
    (hchanged : invert α notes axis = .ok changed) : Certain changed := by
  obtain ⟨ts, hts, hchanged⟩ := Outcome.bind_ok hchanged
  have hts := h.tokens hts
  cases axis with
  | some text =>
      obtain ⟨midi, _, hchanged⟩ := Outcome.bind_ok hchanged
      cases hchanged
      exact certain_write_map (fun t => certain_mapMidi _) hts
  | none =>
      dsimp only at hchanged
      split at hchanged
      · cases hchanged
        exact certain_write_map (fun t => certain_mapMidi _) hts
      · cases hchanged
        exact certain_write hts

theorem certain_transform (h : Certain notes) {operation : String} {params : Fields α}
    (hchanged : transform notes operation params = .ok changed) : Certain changed := by
  unfold transform at hchanged
  dsimp only at hchanged
  split at hchanged
  · obtain ⟨_, _, hchanged⟩ := Outcome.bind_ok hchanged
    obtain ⟨axis, _, hchanged⟩ := Outcome.bind_ok hchanged
    exact certain_invert h hchanged
  · cases hchanged
    exact fun text htext => h.expand text (List.mem_reverse.1 htext)
  · exact certain_augmentBy h hchanged
  · exact certain_augmentBy h hchanged
  · obtain ⟨semitones, _, hchanged⟩ := Outcome.bind_ok hchanged
    exact certain_transpose h hchanged
  · obtain ⟨octaves, _, hchanged⟩ := Outcome.bind_ok hchanged
    exact certain_transpose h hchanged
  · cases hchanged

end Melody

theorem certain_shiftNotes {notes changed : List String} (h : Certain notes) {semitones octaves : Int}
    (hchanged : shiftNotes α semitones octaves notes = .ok changed) : Certain changed := by
  have octavesLater {moved : List String} (hmoved : Certain moved)
      (hlater : (if octaves = 0 then pure moved else Melody.transpose α moved (octaves * octaveSize))
        = .ok changed) : Certain changed := by
    split at hlater
    · cases hlater
      exact hmoved
    · exact Melody.certain_transpose hmoved hlater
  unfold shiftNotes at hchanged
  dsimp only at hchanged
  split at hchanged
  · exact octavesLater h hchanged
  · obtain ⟨moved, hmoved, hchanged⟩ := Outcome.bind_ok hchanged
    exact octavesLater (Melody.certain_transpose h hmoved) hchanged

/-! ## §4  Continuations -/

namespace Melody

variable {motif notes : List String}

theorem certain_sequence (h : Certain motif) {repetitions interval : Int}
    (hnotes : sequence α motif repetitions interval = .ok notes) : Certain notes := by
  obtain ⟨copies, hcopies, hnotes⟩ := Outcome.bind_ok hnotes
  cases hnotes
  intro text htext
  obtain ⟨copy, hcopy, htext⟩ := List.mem_flatten.1 htext
  obtain ⟨i, _, hi⟩ := exists_of_mem_right (Outcome.mapM_ok hcopies) hcopy
  exact certain_transpose h hi text htext

theorem certain_extendFrom {steps : List Int} {last : String} (h : '?' ∉ last.toList) {index more : Nat}
    (hnotes : extendFrom α steps last index more = .ok notes) : Certain notes := by
  induction more generalizing last index notes with
  | zero =>
      cases hnotes
      exact nofun
  | succ more ih =>
      obtain ⟨moved, hmoved, hnotes⟩ := Outcome.bind_ok hnotes
      have hlast : Certain [last] := fun text htext => List.mem_singleton.1 htext ▸ h
      have hcertain := certain_transpose hlast hmoved
      cases moved with
      | nil => cases hnotes
      | cons next rest =>
          obtain ⟨later, hlater, hnotes⟩ := Outcome.bind_ok hnotes
          cases hnotes
          have hnext := hcertain next List.mem_cons_self
          exact List.forall_mem_cons.2 ⟨hnext, ih hnext hlater⟩

theorem certain_extend (h : Certain motif) {additional : Int}
    (hnotes : extend α motif additional = .ok notes) : Certain notes := by
  unfold extend at hnotes
  split at hnotes
  · cases hnotes
    exact h
  · obtain ⟨steps, _, hnotes⟩ := Outcome.bind_ok hnotes
    split at hnotes
    · next last hlast =>
        split at hnotes
        · cases hnotes
          exact h
        · obtain ⟨later, hlater, hnotes⟩ := Outcome.bind_ok hnotes
          cases hnotes
          exact h.append (certain_extendFrom (h last (List.mem_of_getLast? hlast)) hlater)
    · cases hnotes
      exact h

theorem certain_fragmentsFrom (h : Certain motif) {size index more : Nat}
    (hnotes : fragmentsFrom α motif size index more = .ok notes) : Certain notes := by
  induction more generalizing size index notes with
  | zero =>
      cases hnotes
      exact nofun
  | succ more ih =>
      obtain ⟨next, _, hnotes⟩ := Outcome.bind_ok hnotes
      obtain ⟨moved, hmoved, hnotes⟩ := Outcome.bind_ok hnotes
      obtain ⟨later, hlater, hnotes⟩ := Outcome.bind_ok hnotes
      cases hnotes
      refine Certain.append (certain_transpose ?_ hmoved) (ih hlater)
      split
      · exact h.sublist (List.take_sublist _ _)
      · exact h.sublist (List.drop_sublist _ _)

theorem certain_develop (h : Certain motif) {steps interval : Int}
    (hnotes : develop α motif steps interval = .ok notes) : Certain notes := by
  obtain ⟨copies, hcopies, hnotes⟩ := Outcome.bind_ok hnotes
  have hfront : Certain (motif ++ copies.drop motif.length) :=
    h.append ((certain_sequence h hcopies).sublist (List.drop_sublist _ _))
  dsimp only at hnotes
  split at hnotes
  · obtain ⟨pieces, hpieces, hnotes⟩ := Outcome.bind_ok hnotes
    cases hnotes
    exact hfront.append (certain_fragmentsFrom h hpieces)
  · cases hnotes
    exact hfront.append nofun

/-- A continuation of notes without the mark has none. -/
theorem certain_continueWith (h : Certain motif) {steps interval : Int} {t : Technique}
    (hnotes : continueWith α motif steps interval t = .ok notes) : Certain notes := by
  cases t with
  | ascendingSequence => exact certain_sequence h hnotes
  | descendingSequence => exact certain_sequence h hnotes
  | extension => exact certain_extend h hnotes
  | fragmentation => exact certain_fragmentsFrom h hnotes
  | development => exact certain_develop h hnotes

end Melody

end Partitura

import Partitura.Melody.Continuation
import Partitura.Proofs.Faults
import Partitura.Proofs.Melody.Moving

/-!
# What stops a continuation

A text that can be read holds at least one note, and so does the text of a token, so a note can be
taken from what is left of it after a move (`exists_transpose`). Continuing a motif therefore stops at
misspelled notes, and at whole numbers if these may stop anything (`stops_continueWith`).
-/

namespace Partitura

variable {α : Type} [Scalar α] {P : Fault → Prop}

/-! ## §1  Texts that hold a note -/

theorem Text.wordsFrom_ne_nil {word cs : List Char} (h : word ≠ [] ∨ ∃ c ∈ cs, isBlank c = false) :
    wordsFrom word cs ≠ [] := by
  induction cs generalizing word with
  | nil =>
      obtain h | ⟨c, hc, _⟩ := h
      · unfold wordsFrom
        rw [if_neg (by simpa using h)]
        exact List.cons_ne_nil _ _
      · cases hc
  | cons c cs ih =>
      unfold wordsFrom
      split
      · next hblank =>
          split
          · next hword =>
              refine ih (.inr ?_)
              obtain h | ⟨d, hd, hd'⟩ := h
              · exact absurd (List.isEmpty_iff.1 hword) h
              · rcases List.mem_cons.1 hd with rfl | hd
                · rw [hblank] at hd'
                  cases hd'
                · exact ⟨d, hd, hd'⟩
          · exact List.cons_ne_nil _ _
      · exact ih (.inl (List.cons_ne_nil _ _))

/-- Not all of a text are blanks and bar lines. -/
theorem Compact.notesOf_ne_nil {text : String} {c : Char} (hc : c ∈ text.toList)
    (hblank : Text.isBlank c = false) (hbar : c ≠ '|') : notesOf text ≠ [] := by
  unfold notesOf
  split
  · refine Text.wordsFrom_ne_nil (.inr ⟨c, ?_, hblank⟩)
    rw [String.toList_ofList]
    exact List.mem_map.2 ⟨c, hc, if_neg hbar⟩
  · exact List.cons_ne_nil _ _

namespace Token

/-- What can be read begins with a letter, blanks aside. -/
theorem exists_letter_of_parse {text : String} {t : Token α} (h : parse text = .ok t) :
    ∃ c ∈ text.toList, Text.isBlank c = false ∧ c ≠ '|' := by
  have hletters : ∀ c ∈ "abcdefgABCDEFGrR".toList, Text.isBlank c = false ∧ c ≠ '|' := by decide
  suffices hfirst : ∃ c rest, c ∈ "abcdefgABCDEFGrR".toList ∧
      Text.stripChars text.toList = c :: rest by
    obtain ⟨c, rest, hc, hstrip⟩ := hfirst
    exact ⟨c, Text.mem_of_mem_stripChars (hstrip ▸ List.mem_cons_self), hletters c hc⟩
  cases t with
  | note n =>
      obtain ⟨s, hwrites, _⟩ := (NoteToken.parse_ok_iff n).1 (parse_note_iff.1 h)
      exact ⟨s.letterChar, _, List.mem_append_left "rR".toList (Notation.Spelling.letterChar_mem s),
        hwrites.symm.trans s.chars_eq⟩
  | rest l =>
      unfold parse isRest at h
      split at h
      · next heq => exact ⟨'r', _, by decide, heq⟩
      · next heq => exact ⟨'R', _, by decide, heq⟩
      · obtain ⟨_, _, h⟩ := Outcome.bind_ok h
        cases h

/-- What can be read is a note. -/
theorem notesOf_ne_nil {text : String} {t : Token α} (h : parse text = .ok t) :
    Compact.notesOf text ≠ [] := by
  obtain ⟨c, hc, hblank, hbar⟩ := exists_letter_of_parse h
  exact Compact.notesOf_ne_nil hc hblank hbar

end Token

namespace Melody

/-! ## §2  Moving a single note -/

/-- A text that holds a note still holds one after a move. -/
theorem exists_transpose {text : String} {semitones : Int} {notes : List String}
    (h : Compact.notesOf text ≠ []) (hnotes : transpose α [text] semitones = .ok notes) :
    ∃ (next : Token α) (rest : List String), notes = next.text :: rest := by
  obtain ⟨ts, hts, hnotes⟩ := Outcome.bind_ok hnotes
  cases hnotes
  cases ts with
  | nil =>
      have hlength := (Outcome.mapM_ok hts).length_eq
      rw [Compact.expand, List.flatMap_singleton, List.length_nil, List.length_eq_zero_iff] at hlength
      exact absurd hlength h
  | cons t ts => exact ⟨_, _, rfl⟩

theorem notesOf_text_ne_nil (t : Token α) : Compact.notesOf t.text ≠ [] := by
  rw [Compact.notesOf_text]
  exact List.cons_ne_nil _ _

/-! ## §3  Techniques -/

variable (hP : Fault.Covers α P)

include hP

theorem stops_moved (notes : List String) (semitones : Int) :
    Outcome.StopsWith P (transpose α notes semitones) :=
  hP.of_misspelt (stops_transpose notes semitones)

theorem stops_sequence (motif : List String) (repetitions interval : Int) :
    Outcome.StopsWith P (sequence α motif repetitions interval) :=
  (Outcome.StopsWith.mapM (fun _ => stops_moved hP _ _) _).bind fun _ => .ok _

theorem stops_extendFrom (steps : List Int) {last : String} (hlast : Compact.notesOf last ≠ [])
    (index more : Nat) : Outcome.StopsWith P (extendFrom α steps last index more) := by
  induction more generalizing last index with
  | zero => exact .ok []
  | succ more ih =>
      refine (stops_moved hP _ _).bind_of_ok fun notes hnotes => ?_
      obtain ⟨next, rest, rfl⟩ := exists_transpose hlast hnotes
      exact (ih (notesOf_text_ne_nil next) _).bind fun _ => .ok _

theorem stops_extend (motif : List String) (additional : Int) :
    Outcome.StopsWith P (extend α motif additional) := by
  have hread : Outcome.StopsWith P (motif.mapM (Token.parse (α := α))) :=
    .mapM (fun _ => hP.of_misspelt (Token.stops_parse _)) _
  unfold extend
  split
  · exact .ok _
  · unfold intervals
    rw [bind_assoc]
    refine hread.bind_of_ok fun ts hts => ?_
    refine (Outcome.StopsWith.ok (intervalsBetween ts)).bind fun steps => ?_
    split
    · next last hlast =>
        obtain ⟨t, _, ht⟩ :=
          exists_of_mem_right (Outcome.mapM_ok hts).flip (List.mem_of_getLast? hlast)
        split
        · exact .ok _
        · exact (stops_extendFrom hP _ (Token.notesOf_ne_nil ht) _ _).bind fun _ => .ok _
    · exact .ok _

theorem stops_fragmentsFrom (motif : List String) (size index more : Nat) :
    Outcome.StopsWith P (fragmentsFrom α motif size index more) := by
  induction more generalizing size index with
  | zero => exact .ok []
  | succ more ih =>
      refine Outcome.StopsWith.bind ((hP.toWhole _ _).bind fun _ => .ok _) fun size => ?_
      exact (stops_moved hP _ _).bind fun _ => (ih _ _).bind fun _ => .ok _

theorem stops_develop (motif : List String) (steps interval : Int) :
    Outcome.StopsWith P (develop α motif steps interval) := by
  refine (stops_sequence hP _ _ _).bind fun copies => ?_
  dsimp only
  split
  · exact (stops_fragmentsFrom hP _ _ _ _).bind fun _ => .ok _
  · exact .ok _

/-- **Continuing a motif stops only at notes that cannot be read, or where counting stops.** -/
theorem stops_continueWith (motif : List String) (steps interval : Int) (t : Technique) :
    Outcome.StopsWith P (continueWith α motif steps interval t) := by
  cases t with
  | ascendingSequence | descendingSequence => exact stops_sequence hP _ _ _
  | extension => exact stops_extend hP _ _
  | fragmentation => exact stops_fragmentsFrom hP _ _ _ _
  | development => exact stops_develop hP _ _ _

end Melody

end Partitura

import Partitura.Harmony.Chord
import Partitura.Proofs.Faults

/-!
# Chords have tones

A chord that can be read has at least one tone (`ChordToken.notesOf_ne_nil`): every quality of the
tables has some, and alterations move tones or add them but take none away. Only a rest has none, and
the symbol of a chord may be that of a rest. All tones are written as pitches.
-/

namespace Partitura

namespace ChordQuality

theorem ne_nil_of_lookup_table {quality : String} {tones : List Int}
    (h : table.lookup quality = some tones) : tones ≠ [] := by
  have hall : ∀ entry ∈ table, entry.2 ≠ [] := by decide
  exact hall _ (mem_of_lookup h)

theorem ne_nil_of_voiced? {quality voicing : String} {tones : List Int}
    (h : voiced? quality voicing = some tones) : tones ≠ [] := by
  have hall : ∀ entry ∈ voicings, ∀ layout ∈ entry.2, layout.2 ≠ [] := by decide
  obtain ⟨layouts, hlayouts, hlayout⟩ := Option.bind_eq_some_iff.1 h
  exact hall _ (mem_of_lookup hlayouts) _ (mem_of_lookup hlayout)

theorem alter_ne_nil {tones : List Int} (h : tones ≠ []) (a : Alteration) : alter tones a ≠ [] := by
  unfold alter
  split
  · exact h
  · dsimp only
    split
    · exact fun hnil => h ((List.set_eq_nil_iff _ _).1 hnil)
    · exact List.append_ne_nil_of_right_ne_nil _ (List.cons_ne_nil _ _)

theorem foldl_alter_ne_nil {tones : List Int} (h : tones ≠ []) (alterations : List Alteration) :
    alterations.foldl alter tones ≠ [] := by
  induction alterations generalizing tones with
  | nil => exact h
  | cons a alterations ih => exact ih (alter_ne_nil h a)

theorem mergeSort_ne_nil {tones : List Int} (h : tones ≠ []) : tones.mergeSort (· ≤ ·) ≠ [] := by
  rwa [ne_eq, ← List.length_eq_zero_iff, List.length_mergeSort, List.length_eq_zero_iff]

theorem tones_ne_nil (quality : String) : tones quality ≠ [] := by
  unfold tones
  split
  · next h => exact ne_nil_of_lookup_table h
  · have hstart (base : String) : (table.lookup base).getD triad ≠ [] := by
      cases h : table.lookup base with
      | none => exact List.cons_ne_nil _ _
      | some tones => exact ne_nil_of_lookup_table h
    exact mergeSort_ne_nil (foldl_alter_ne_nil (hstart _) _)

end ChordQuality

namespace ChordToken

theorem stops_parse (text : String) (octave : Int) :
    Outcome.StopsWith Fault.Misspelt (parse text octave) := by
  unfold parse
  split
  · exact (Token.stops_parseRest text).bind fun _ => .ok _
  · split
    · exact (Length.stops_parse _ _).bind fun _ => .ok _
    · exact .error ⟨_, rfl⟩

theorem stops_notesOf (symbol : String) (octave : Int) :
    Outcome.StopsWith Fault.Misspelt (notesOf symbol octave) :=
  (stops_parse _ _).bind fun _ => .ok _

theorem ofWritten_ne_nil {w : Written} {octave : Int} {t : ChordToken}
    (h : ofWritten w octave = .ok t) : t.notes ≠ [] := by
  obtain ⟨length, _, h⟩ := Outcome.bind_ok h
  cases h
  refine List.append_ne_nil_of_right_ne_nil _ fun hnil => ?_
  have htones := List.map_eq_nil_iff.1 hnil
  cases hlayout : w.voicing.bind (ChordQuality.voiced? w.quality) with
  | none =>
      rw [hlayout] at htones
      exact ChordQuality.tones_ne_nil _ htones
  | some layout =>
      rw [hlayout] at htones
      obtain ⟨voicing, _, hvoiced⟩ := Option.bind_eq_some_iff.1 hlayout
      exact ChordQuality.ne_nil_of_voiced? hvoiced htones

/-- The tones of a chord are written pitches. -/
theorem exists_pitch_of_ofWritten {w : Written} {octave : Int} {t : ChordToken}
    (h : ofWritten w octave = .ok t) : ∀ tone ∈ t.notes, ∃ p : Pitch, tone = p.text := by
  obtain ⟨length, _, h⟩ := Outcome.bind_ok h
  rw [← Outcome.pure_ok h, List.forall_mem_append]
  constructor
  · intro tone htone
    obtain ⟨bass, _, rfl⟩ := List.mem_map.1 htone
    exact ⟨_, rfl⟩
  · intro tone htone
    obtain ⟨semitones, _, rfl⟩ := List.mem_map.1 htone
    exact ⟨_, rfl⟩

theorem exists_pitch_of_notesOf {symbol : String} {octave : Int} {tones : List String}
    (h : notesOf symbol octave = .ok tones) : ∀ tone ∈ tones, ∃ p : Pitch, tone = p.text := by
  obtain ⟨t, ht, h⟩ := Outcome.bind_ok h
  rw [← Outcome.pure_ok h]
  unfold parse at ht
  split at ht
  · obtain ⟨token, _, ht⟩ := Outcome.bind_ok ht
    rw [← Outcome.pure_ok ht]
    exact List.forall_mem_nil _
  · split at ht
    · exact exists_pitch_of_ofWritten ht
    · cases ht

/-- **A chord has a tone, unless its symbol is that of a rest.** -/
theorem notesOf_ne_nil {symbol : String} {octave : Int} {tones : List String}
    (hrest : Token.isRest (symbol ++ ":q") = false) (h : notesOf symbol octave = .ok tones) :
    tones ≠ [] := by
  obtain ⟨t, ht, h⟩ := Outcome.bind_ok h
  cases h
  unfold parse at ht
  rw [hrest, if_neg (by decide)] at ht
  split at ht
  · exact ofWritten_ne_nil ht
  · cases ht

end ChordToken

end Partitura

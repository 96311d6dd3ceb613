import Partitura.Phrase.Expansion
import Partitura.Proofs.Melody.Certain
import Partitura.Proofs.Phrase.Finish
import Partitura.Proofs.Phrase.Walk

/-!
# Phrases that always sound

Only written notes can carry a probability. Chords, degrees, drums and all that is made up by rules
have none (§2), and no envelope and no snapping to the key adds one (§3).
-/

namespace Partitura

variable {α : Type} [Scalar α]

/-- Notes without a probability. -/
def AlwaysSound (notes : List (Note α)) : Prop :=
  ∀ n ∈ notes, n.probability = none

omit [Scalar α] in
theorem AlwaysSound.nil : AlwaysSound ([] : List (Note α)) :=
  nofun

omit [Scalar α] in
theorem AlwaysSound.cons {n : Note α} {notes : List (Note α)} (hn : n.probability = none)
    (h : AlwaysSound notes) : AlwaysSound (n :: notes) :=
  List.forall_mem_cons.2 ⟨hn, h⟩

omit [Scalar α] in
theorem AlwaysSound.append {notes more : List (Note α)} (h : AlwaysSound notes)
    (hmore : AlwaysSound more) : AlwaysSound (notes ++ more) :=
  fun n hn => (List.mem_append.1 hn).elim (h n) (hmore n)

omit [Scalar α] in
/-- Notes that are made one by one. -/
theorem alwaysSound_of_mapM {β : Type} {f : β → Outcome (Note α)} {xs : List β}
    {notes : List (Note α)} (h : xs.mapM f = .ok notes)
    (hf : ∀ x n, f x = .ok n → n.probability = none) : AlwaysSound notes := by
  intro n hn
  obtain ⟨x, _, hx⟩ := exists_of_mem_right (Outcome.mapM_ok h) hn
  exact hf x n hx

namespace Phrase

variable {c : Context α} {notes : List (Note α)} {finish : α}

/-! ## §1  Written notes -/

theorem alwaysSound_ofTokensFrom {scale start : α} {useOwn : Bool} {ts : List (Token α)}
    (hts : ∀ t ∈ ts, t.Certain) (h : ofTokensFrom c scale useOwn start ts = .ok (notes, finish)) :
    AlwaysSound notes := by
  induction ts generalizing start notes with
  | nil =>
      cases h
      exact .nil
  | cons t ts ih =>
      obtain ⟨ht, hrest⟩ := List.forall_mem_cons.1 hts
      cases t with
      | rest l => exact ih hrest h
      | note token =>
          obtain ⟨note, hnote, h⟩ := Outcome.bind_ok h
          obtain ⟨⟨more, last⟩, hmore, h⟩ := Outcome.bind_ok h
          obtain ⟨pitch, _, hnote⟩ := Outcome.bind_ok hnote
          cases h
          cases hnote
          exact .cons ht (ih hrest hmore)

theorem alwaysSound_ofNotes {scale : α} {useOwn : Bool} {texts : List String}
    (htexts : Certain texts) {p : Phrase α} (h : ofNotes c scale useOwn texts = .ok p) :
    AlwaysSound p.notes := by
  obtain ⟨ts, hts, h⟩ := Outcome.bind_ok h
  obtain ⟨⟨notes, finish⟩, hnotes, h⟩ := Outcome.bind_ok h
  cases h
  exact alwaysSound_ofTokensFrom (htexts.tokens hts) hnotes

/-! ## §2  Notes that are made up -/

theorem alwaysSound_ofChordsFrom {start : α} {chords : List String}
    (h : (ofChordsFrom c start chords).Yields (notes, finish)) : AlwaysSound notes := by
  induction chords generalizing start notes with
  | nil =>
      cases h.of_pure
      exact .nil
  | cons text rest ih =>
      obtain ⟨token, _, h⟩ := h.of_bind
      obtain ⟨_, _, h⟩ := h.of_bind
      obtain ⟨tones, htones, h⟩ := h.of_bind
      obtain ⟨⟨more, last⟩, hmore, h⟩ := h.of_bind
      cases h.of_pure
      refine .append (alwaysSound_of_mapM htones.of_lift fun pitch n hn => ?_) (ih hmore)
      obtain ⟨placed, _, hn⟩ := Outcome.bind_ok hn
      cases hn
      rfl

theorem alwaysSound_ofDegreesFrom {rhythm : List String} {start : α} {index : Nat}
    {degrees : List (Value α)} (h : ofDegreesFrom c rhythm start index degrees = .ok (notes, finish)) :
    AlwaysSound notes := by
  induction degrees generalizing start index notes with
  | nil =>
      cases h
      exact .nil
  | cons v rest ih =>
      obtain ⟨entry, _, h⟩ := Outcome.bind_ok h
      obtain ⟨length, _, h⟩ := Outcome.bind_ok h
      obtain ⟨note?, hnote, h⟩ := Outcome.bind_ok h
      obtain ⟨⟨more, last⟩, hmore, h⟩ := Outcome.bind_ok h
      cases h
      refine .append (fun n hn => ?_) (ih hmore)
      cases Option.mem_toList.1 hn
      unfold entryNote? at hnote
      split at hnote
      · cases hnote
      · obtain ⟨midi, _, hnote⟩ := Outcome.bind_ok hnote
        obtain ⟨pitch, _, hnote⟩ := Outcome.bind_ok hnote
        cases hnote
        rfl

theorem alwaysSound_ofTonesFrom {tones : List String} {length gate start : α} {order : List Int}
    (h : ofTonesFrom c tones length gate start order = .ok (notes, finish)) : AlwaysSound notes := by
  induction order generalizing start notes with
  | nil =>
      cases h
      exact .nil
  | cons number rest ih =>
      obtain ⟨tone, _, h⟩ := Outcome.bind_ok h
      obtain ⟨pitch, _, h⟩ := Outcome.bind_ok h
      obtain ⟨⟨more, last⟩, hmore, h⟩ := Outcome.bind_ok h
      cases h
      exact .cons rfl (ih hmore)

theorem alwaysSound_lineNotes (drum kit : String) (length velocity : α) (steps : List String) :
    AlwaysSound (lineNotes drum kit length velocity steps) := by
  intro n hn
  obtain ⟨step, _, hstep⟩ := List.mem_filterMap.1 hn
  obtain ⟨v, _, rfl⟩ := Option.map_eq_some_iff.1 hstep
  rfl

theorem alwaysSound_ofLooseDrums {d : DrumsContent α} {length : α} {p : Phrase α}
    (h : ofLooseDrums c d length = .ok p) : AlwaysSound p.notes := by
  unfold ofLooseDrums at h
  dsimp only at h
  split at h
  all_goals
    obtain ⟨steps, _, h⟩ := Outcome.bind_ok h
    obtain ⟨times, _, h⟩ := Outcome.bind_ok h
    cases h
    refine (alwaysSound_lineNotes _ _ _ _ _).append fun n hn => ?_
    rw [← List.map_uncurry_zip_eq_zipWith] at hn
    obtain ⟨hit, _, rfl⟩ := List.mem_map.1 hn
    rfl

theorem alwaysSound_ofDrums {d : DrumsContent α} {p : Phrase α} (h : ofDrums c d = .ok p) :
    AlwaysSound p.notes := by
  obtain ⟨length, _, h⟩ := Outcome.bind_ok h
  dsimp only at h
  split at h
  · exact alwaysSound_ofLooseDrums h
  · cases h
    intro n hn
    obtain ⟨line, _, hline⟩ := List.mem_flatMap.1 hn
    exact alwaysSound_lineNotes _ _ _ _ _ n hline

theorem alwaysSound_ofEuclidean {e : EuclideanContent α} {p : Phrase α}
    (h : ofEuclidean c e = .ok p) : AlwaysSound p.notes := by
  obtain ⟨length, _, h⟩ := Outcome.bind_ok h
  obtain ⟨pitch, _, h⟩ := Outcome.bind_ok h
  cases h
  intro n hn
  obtain ⟨i, _, rfl⟩ := List.mem_map.1 hn
  rfl

theorem alwaysSound_ofVoicingsFrom {start : α} {voicings : List (List String)}
    (h : ofVoicingsFrom c start voicings = .ok (notes, finish)) : AlwaysSound notes := by
  induction voicings generalizing start notes with
  | nil =>
      cases h
      exact .nil
  | cons voicing rest ih =>
      obtain ⟨tones, htones, h⟩ := Outcome.bind_ok h
      obtain ⟨⟨more, last⟩, hmore, h⟩ := Outcome.bind_ok h
      cases h
      refine .append (alwaysSound_of_mapM htones fun pitch n hn => ?_) (ih hmore)
      obtain ⟨placed, _, hn⟩ := Outcome.bind_ok hn
      cases hn
      rfl

theorem alwaysSound_ofStatesFrom {k : Key} {m : MarkovContent α} {durations : List String} {start : α}
    {index : Nat} {states : List String}
    (h : (ofStatesFrom k m durations start index states).Yields (notes, finish)) :
    AlwaysSound notes := by
  induction states generalizing start index notes with
  | nil =>
      unfold ofStatesFrom at h
      cases h.of_pure
      exact .nil
  | cons state rest ih =>
      unfold ofStatesFrom at h
      obtain ⟨length, _, h⟩ := h.of_bind
      dsimp only at h
      split at h
      all_goals
        obtain ⟨next, _, h⟩ := h.of_bind
        obtain ⟨pitch?, _, h⟩ := h.of_bind
        cases pitch? with
        | none => exact ih h
        | some pitch =>
            obtain ⟨snapped, _, h⟩ := h.of_bind
            obtain ⟨roll, _, h⟩ := h.of_bind
            obtain ⟨⟨more, last⟩, hmore, h⟩ := h.of_bind
            cases h.of_pure
            exact .cons rfl (ih hmore)

theorem alwaysSound_ofMarkov {m : MarkovContent α} {p : Phrase α} (h : (ofMarkov c m).Yields p) :
    AlwaysSound p.notes := by
  rcases yields_ofMarkov h with ⟨_, rfl⟩ | ⟨_, k, table, walked, hwalked, hnotes⟩
  · exact .nil
  · obtain ⟨states, _, hstates⟩ := yields_walkNotes hwalked
    have hsound := alwaysSound_ofStatesFrom hstates
    intro n hn
    obtain ⟨n', hn', hplaced⟩ := exists_of_mem_right (Outcome.mapM_ok hnotes) hn
    obtain ⟨pitch, _, hplaced⟩ := Outcome.bind_ok hplaced
    cases hplaced
    exact hsound n' hn'

/-! ## §3  Finishes -/

theorem alwaysSound_applyFinish (h : AlwaysSound notes) {f : Finish α} {finished : List (Note α)}
    (hfinished : (applyFinish c f notes).Yields finished) : AlwaysSound finished := by
  obtain ⟨s, s', hfinished⟩ := hfinished
  intro n hn
  obtain ⟨n', hn', hkeeps, _⟩ := exists_of_mem_right (forall₂_applyFinish hfinished).1 hn
  exact hkeeps.probability.trans (h n' hn')

end Phrase

end Partitura

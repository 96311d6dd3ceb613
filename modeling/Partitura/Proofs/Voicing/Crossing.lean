import Partitura.Proofs.Voicing.Greatest

/-!
# Crossing voices

Voices cross where one of them is at or above the next. To avoid that is a rule, and rules are asked of
steps: a step may not lead to a voicing that crosses. No step leads to the first voicing of a
progression. So with the rule in force, and nothing said to be set aside, every voicing after the first
one rises from voice to voice (`lead_rising_iff`), and the first one is taken as it scores, crossing or
not (`crowd_crosses`).

The first voicing has to rise where the ranges stand apart, because then no candidate crosses at all.
-/

namespace Partitura.Voicing

/-! ## §1  Rising voicings -/

/-- Every voice is below the next. -/
abbrev Rising (v : Voicing) : Prop :=
  v.IsChain (· < ·)

theorem rising_cons_cons {a b : Int} {rest : Voicing} :
    Rising (a :: b :: rest) ↔ a < b ∧ Rising (b :: rest) :=
  List.isChain_cons_cons

theorem hasCrossing_eq_false_iff {v : Voicing} : hasCrossing v = false ↔ Rising v := by
  induction v with
  | nil => exact iff_of_true rfl .nil
  | cons a rest ih =>
      cases rest with
      | nil => exact iff_of_true rfl (.singleton a)
      | cons b rest =>
          rw [hasCrossing, rising_cons_cons, ← ih]
          simp

/-- Voices within ranges of which each ends below the next. -/
theorem rising_of_apart {v : Voicing} {rs : List PitchRange}
    (hrange : List.Forall₂ (fun m r => r.1 ≤ m ∧ m ≤ r.2) v rs)
    (hapart : rs.IsChain fun a b => a.2 < b.1) : Rising v := by
  induction hrange with
  | nil => exact .nil
  | @cons m r v rs hm hrest ih =>
      cases hrest with
      | nil => exact .singleton m
      | cons hm' hrest =>
          obtain ⟨hlt, hapart⟩ := List.isChain_cons_cons.1 hapart
          refine rising_cons_cons.2 ⟨?_, ih hapart⟩
          omega

theorem rising_of_allowed {r : Rules} {v w : Voicing} (havoid : r.avoidVoiceCrossing = true)
    (h : allowed r v w = true) : Rising w := by
  rw [← hasCrossing_eq_false_iff]
  simp only [allowed, havoid, Bool.and_eq_true, Bool.true_and, Bool.not_eq_true'] at h
  exact h.2

/-- Where every step is allowed, every voicing but the first one rises. -/
theorem Admissible.rising_tail {r : Rules} {offered : List (List Voicing)} {sequence : List Voicing}
    (h : Admissible r offered sequence) (havoid : r.avoidVoiceCrossing = true) :
    ∀ w ∈ sequence.tail, Rising w := by
  intro w hw
  obtain ⟨i, hi⟩ := List.mem_iff_getElem?.1 hw
  rw [List.getElem?_tail] at hi
  have hlength : i + 1 < sequence.length := (List.getElem?_eq_some_iff.1 hi).1
  have hbefore : sequence[i]? = some sequence[i] := List.getElem?_eq_getElem (by omega)
  exact rising_of_allowed havoid (h.steps i _ w hbefore hi List.not_mem_nil)

theorem avoidVoiceCrossing_ofNames {names : List String}
    (h : Constraint.avoidVoiceCrossing.name ∈ names) :
    (Rules.ofNames names).avoidVoiceCrossing = true :=
  List.contains_iff_mem.2 h

/-! ## §2  Progressions -/

section Leading

variable {α : Type} {progression : List String} {voices : Int} {style : String} {extra : List String}
  {given : Fields α} {led : Led}

/-- A progression that is led has ranges, chords and candidates. -/
theorem lead_ok (hne : progression ≠ [])
    (hled : lead progression voices style extra given = .ok led) :
    ∃ rs chords offered, ranges voices given = .ok rs ∧ Offers rs progression chords offered := by
  unfold lead at hled
  rw [if_neg fun hempty => hne (List.isEmpty_iff.1 hempty)] at hled
  obtain ⟨rs, hranges, hled⟩ := Outcome.bind_ok hled
  obtain ⟨chords, hchords, hled⟩ := Outcome.bind_ok hled
  obtain ⟨offered, hoffered, _⟩ := Outcome.bind_ok hled
  exact ⟨rs, chords, offered, hranges, Outcome.mapM_ok hchords, Outcome.mapM_ok hoffered⟩

/-- Without a warning, the voices are led through candidates and every step is allowed. -/
theorem admissible_of_quiet {rs : List PitchRange} {chords : List (List String)}
    {offered : List (List Voicing)} (hne : progression ≠ [])
    (hled : lead progression voices style extra given = .ok led) (hquiet : led.warnings = [])
    (hranges : ranges voices given = .ok rs) (hoffers : Offers rs progression chords offered) :
    ∃ sequence, led.voicings = sequence.map (·.map Pitch.textOfMidi) ∧
      Admissible (Rules.ofNames (effectiveConstraints style extra)) offered sequence := by
  rw [lead_eq style extra hne hranges hoffers] at hled
  by_cases hnone : [] ∈ offered
  · obtain ⟨i, hi⟩ := bestSequence_error (Rules.ofNames (effectiveConstraints style extra)) hnone
    rw [hi] at hled
    cases hled
    cases hquiet
  · have hoffered : offered ≠ [] := by
      rintro rfl
      obtain ⟨hwritten, ⟨⟩⟩ := hoffers
      exact hne (List.forall₂_nil_right_iff.1 hwritten)
    obtain ⟨sequence, said, hbest, hsound, _⟩ :=
      bestSequence_ok (Rules.ofNames (effectiveConstraints style extra)) hoffered hnone
    rw [hbest] at hled
    cases hled
    cases hquiet
    exact ⟨sequence, rfl, hsound⟩

/-- **Without a warning, no voices cross after the first chord.** Where crossing is to be avoided and no
warning is given, every voicing but the first one rises. So all of them rise if and only if the first
one does, and in particular if the ranges of the voices stand apart. -/
theorem lead_rising_iff
    (havoid : Constraint.avoidVoiceCrossing.name ∈ effectiveConstraints style extra)
    (hled : lead progression voices style extra given = .ok led) (hquiet : led.warnings = []) :
    ∃ sequence : List Voicing, led.voicings = sequence.map (·.map Pitch.textOfMidi) ∧
      (∀ v ∈ sequence.tail, Rising v) ∧
      ((∀ v ∈ sequence, Rising v) ↔ ∀ v ∈ sequence.head?, Rising v) ∧
      ∀ rs, ranges voices given = .ok rs → rs.IsChain (fun a b => a.2 < b.1) →
        ∀ v ∈ sequence, Rising v := by
  by_cases hempty : progression = []
  · subst hempty
    cases hled
    refine ⟨[], rfl, ?_, ?_, ?_⟩
    · simp
    · simp
    · simp
  · obtain ⟨rs, chords, offered, hranges, hoffers⟩ := lead_ok hempty hled
    obtain ⟨sequence, hvoicings, hsound⟩ := admissible_of_quiet hempty hled hquiet hranges hoffers
    have htail := hsound.rising_tail (avoidVoiceCrossing_ofNames havoid)
    refine ⟨sequence, hvoicings, htail, ?_, ?_⟩
    · cases sequence with
      | nil => simp
      | cons first rest =>
          rw [List.forall_mem_cons]
          simp only [List.head?_cons, Option.mem_some_iff, forall_eq']
          exact ⟨fun h => h.1, fun h => ⟨h, htail⟩⟩
    · intro rs' hranges' hapart v hv
      rw [hranges] at hranges'
      cases hranges'
      obtain ⟨pitches, _, numbers, _, hv⟩ := exists_of_mem_right (hoffers.voices hsound.chosen) hv
      exact rising_of_apart hv.inRange hapart

end Leading

/-- Ranges that stand apart. -/
theorem narrow_apart : [(48, 50), (55, 57), (64, 66)].IsChain fun a b : PitchRange => a.2 < b.1 := by
  decide

/-- The theorem at work: from C to A minor no voices cross. -/
theorem narrow_rising :
    Constraint.avoidVoiceCrossing.name ∈ effectiveConstraints "jazz" [] ∧
      ∃ (led : Led) (sequence : List Voicing),
        lead ["C", "Am"] 3 "jazz" [] narrow = .ok led ∧ led.warnings = [] ∧
          led.voicings = sequence.map (·.map Pitch.textOfMidi) ∧ ∀ v ∈ sequence, Rising v := by
  have havoid : Constraint.avoidVoiceCrossing.name ∈ effectiveConstraints "jazz" [] := by
    decide +kernel
  have hoffers : ∃ chords, Offers [(48, 50), (55, 57), (64, 66)] ["C", "Am"] chords
      [[[48, 55, 64]], [[48, 57, 64]]] := by
    apply exists_offers_of_eq
    decide +kernel
  obtain ⟨chords, hoffers⟩ := hoffers
  have hallowed : ∃ v ∈ [[48, 55, 64]], ∃ w ∈ [[48, 57, 64]],
      allowed (Rules.ofNames (effectiveConstraints "jazz" [])) v w = true := by
    decide +kernel
  obtain ⟨v, w, hbest, _⟩ := bestSequence_pair hallowed
  have hled := lead_of_bestSequence narrow_ranges hoffers hbest
  obtain ⟨sequence, hvoicings, _, _, hrising⟩ := lead_rising_iff havoid hled rfl
  exact ⟨havoid, _, sequence, hled, rfl, hvoicings,
    hrising _ narrow_ranges narrow_apart⟩

/-- **The first voicing may cross.** The style avoids crossing, another voicing of C minor does not
cross and may be followed by the same voicing of the seventh chord, and nothing is said. But bass and
tenor begin on one and the same C. -/
theorem crowd_crosses :
    Constraint.avoidVoiceCrossing.name ∈ effectiveConstraints "bach" [] ∧
      lead ["Cm", "C7"] 4 "bach" [] crowd =
        .ok { voicings := [["C2", "C2", "G2", "D#3"], ["A#1", "C2", "G2", "E3"]] } ∧
      ["C2", "C2", "G2", "D#3"].mapM Pitch.midiOf = .ok [36, 36, 43, 51] ∧
      ¬ Rising [36, 36, 43, 51] ∧
      Admissible .strict [crowdedMinor, crowdedSeventh] [[36, 39, 43, 51], [34, 36, 43, 52]] ∧
      Rising [36, 39, 43, 51] := by
  have hallowed : ∃ v ∈ crowdedMinor, ∃ w ∈ crowdedSeventh, allowed .strict v w = true := by
    decide
  obtain ⟨chords, hoffers⟩ := crowd_offers
  obtain ⟨v, w, hbest, hforemost⟩ := bestSequence_pair hallowed
  obtain ⟨rfl, rfl⟩ := foremost_crowded hforemost
  have hled := lead_of_bestSequence crowd_ranges hoffers (rules_bach ▸ hbest)
  have hsecond : Admissible .strict [crowdedMinor] [[36, 39, 43, 51]] :=
    Sound.start (by decide)
  refine ⟨by decide +kernel, hled, by rfl, by decide, ?_, by decide⟩
  exact hsecond.snoc rfl (by decide) fun _ => by decide

end Partitura.Voicing

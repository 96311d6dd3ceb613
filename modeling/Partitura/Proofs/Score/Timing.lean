import Mathlib.Tactic.Positivity
import Partitura.Proofs.Score.Entries
import Partitura.Proofs.Score.Playing
import Partitura.Proofs.Tempo.Slices

/-!
# Beats and seconds inside an occurrence

On exact numbers a bar has a positive length (§1), so a section of no fewer than no bars does not end
before it begins, and no time inside it lies before its start (§2). Each of its automations is sampled
at 21 beats, evenly from its start to its end (§3).
-/

namespace Partitura

variable [Elementary]

/-! ## §1  Bars -/

omit [Elementary] in
theorem TimeSignature.ofText?_pos {text : String} {meter : TimeSignature}
    (h : TimeSignature.ofText? text = some meter) :
    0 < meter.numerator ∧ 0 < meter.denominator := by
  unfold TimeSignature.ofText? at h
  obtain ⟨⟨numerator, rest⟩, _, h⟩ := Option.bind_eq_some_iff.1 h
  dsimp only at h
  split at h
  · obtain ⟨⟨denominator, rest'⟩, _, h⟩ := Option.bind_eq_some_iff.1 h
    obtain ⟨_, hguard, h⟩ := Option.bind_eq_some_iff.1 h
    cases h
    unfold guard at hguard
    split at hguard
    · next hparts =>
        simp only [Bool.and_eq_true, decide_eq_true_eq] at hparts
        exact ⟨hparts.1.2, hparts.2⟩
    · cases hguard
  · cases h

/-- A bar is longer than nothing. -/
theorem TimeSignature.beatsPerBar_pos {v : Value Rat} {meter : TimeSignature} {beats : Rat}
    (hparse : TimeSignature.parse v = .ok meter) (hbeats : meter.beatsPerBar = .ok beats) :
    0 < beats := by
  unfold TimeSignature.parse at hparse
  split at hparse
  · next t htext =>
      cases hparse
      obtain ⟨hnumerator, hdenominator⟩ := TimeSignature.ofText?_pos htext
      have hn : (0 : Rat) < meter.numerator := by
        exact_mod_cast hnumerator
      have hd : (0 : Rat) < meter.denominator := by
        exact_mod_cast hdenominator
      have hvalue : (meter.beatsPerBar : Outcome Rat) =
          .ok (meter.numerator * 4.0 / meter.denominator) := rfl
      rw [hvalue] at hbeats
      rw [← Except.ok.inj hbeats]
      positivity
  · cases hparse

/-- A section does not end before it begins. -/
theorem Score.beats_nonneg {s : Score Rat} {o : CompileOptions Rat} {c : Compilation Rat}
    (h : s.compile o = .ok c) {x : CompiledSection Rat} (hx : x ∈ c.sections)
    (hbars : 0 ≤ x.occurrence.body.bars) : 0 ≤ x.occurrence.beats := by
  obtain ⟨meter, beatsPerBar, entry, body, hmeter, hbeats, _, _, hoccur, _⟩ :=
    Score.compiled_of_mem h hx
  obtain ⟨key, _, hoccur⟩ := Outcome.bind_ok hoccur
  rw [← Outcome.pure_ok hoccur] at hbars ⊢
  exact mul_nonneg hbars (le_of_lt (TimeSignature.beatsPerBar_pos hmeter hbeats))

/-! ## §2  Seconds -/

namespace Occurrence

variable {o : Occurrence Rat}

/-- No note of a section comes before its start. -/
theorem InTrackOrder.beat_nonneg {patterns : PatternTable Rat} {played : List (PlayedNote Rat)}
    (h : o.InTrackOrder patterns played) {n : PlayedNote Rat} (hn : n ∈ played) : 0 ≤ n.beat := by
  obtain ⟨beat, hmax⟩ := h.begins hn
  rw [hmax, Exact.max_eq, Exact.start_eq]
  exact le_max_left 0 beat

/-- No beat of a section comes before its start. -/
theorem secondsAt_nonneg (htempo : 0 < o.tempo) {beat time : Rat} (hbeat : 0 ≤ beat)
    (h : o.secondsAt beat = .ok time) : 0 ≤ time := by
  unfold secondsAt Section.secondsAt at h
  split at h
  · next a _ =>
      rcases le_or_gt o.beats 0 with hnone | hsome
      · rw [a.seconds_of_nonpos hnone] at h
        rw [← Except.ok.inj h]
        norm_num
      · rw [a.seconds_eq hsome hbeat] at h
        rw [← Except.ok.inj h]
        exact a.elapsed_nonneg hsome beat
  · unfold beatsToSeconds at h
    rw [Exact.divide_eq (ne_of_gt htempo)] at h
    rw [← Except.ok.inj h]
    positivity

/-! ## §3  Samples -/

/-- The samples of one automation: 21, evenly from the start of the section to its end. -/
def SampledEvenly (o : Occurrence Rat) (path : String) (a : Automation Rat)
    (samples : List (AutomationEvent Rat)) : Prop :=
  List.Forall₂ (fun (i : ℕ) e => e.path = path ∧ e.beat = i / 20 * o.beats ∧
    o.secondsAt e.beat = .ok e.time ∧ a.value (i / 20) = .ok e.value) (List.range 21) samples

theorem sample_ok {path : String} {a : Automation Rat} {samples : List (AutomationEvent Rat)}
    (h : o.sample path a = .ok samples) : o.SampledEvenly path a samples := by
  obtain ⟨points, hpoints, h⟩ := Outcome.bind_ok h
  have hvalues : List.Forall₂ (fun (i : ℕ) p => p.1 = i / 20 * o.beats ∧ a.value (i / 20) = .ok p.2)
      (List.range 21) points := by
    refine (Outcome.mapM_ok hpoints).imp fun i p hp => ?_
    have hposition : divide (Scalar.ofNat i : Rat) (Scalar.ofInt Automation.standardResolution) =
        .ok (i / 20) := by
      rw [Exact.ofNat_eq, Exact.ofInt_eq, Exact.divide_eq]
      · norm_num [Automation.standardResolution]
      · norm_num [Automation.standardResolution]
    obtain ⟨position, hp', hp⟩ := Outcome.bind_ok hp
    cases hposition.symm.trans hp'
    obtain ⟨value, hvalue, hp⟩ := Outcome.bind_ok hp
    cases Outcome.pure_ok hp
    exact ⟨rfl, hvalue⟩
  refine forall₂_comp ?_ hvalues (Outcome.mapM_ok h)
  rintro i ⟨beat, value⟩ e ⟨hbeat, hvalue⟩ he
  obtain ⟨time, htime, he⟩ := Outcome.bind_ok he
  cases Outcome.pure_ok he
  exact ⟨rfl, hbeat, htime, hvalue⟩

end Occurrence

end Partitura

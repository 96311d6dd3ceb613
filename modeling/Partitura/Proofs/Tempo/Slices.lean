import Mathlib.Algebra.BigOperators.Group.Finset.Basic
import Mathlib.Algebra.Order.BigOperators.Group.Finset
import Mathlib.Tactic.Linarith
import Mathlib.Tactic.Positivity
import Partitura.Number.Exact
import Partitura.Proofs.Computation
import Partitura.Proofs.Curve.Points
import Partitura.Tempo.Seconds

/-!
# The seconds of an automated section, in closed form

On exact numbers the time up to a beat never fails: every automation has a tempo at every position,
and it is at least 1 (§1). The loop over the slices then comes to a sum (§2): the seconds of all slices
that end by the beat, and those of the part of a slice that is left, unless it is too short to count
(`Automation.seconds_eq`).
-/

namespace Partitura.Automation

variable [Elementary] (a : Automation Rat)

/-! ## §1  The tempo at a position -/

theorem alongCurve_ok (start finish t : Rat) (curve : String) :
    ∃ v, alongCurve start finish t curve = .ok v := by
  unfold alongCurve
  split
  · -- Both ends of a move in equal ratios are positive.
    have hlow : Scalar.max ratioFloor start ≠ 0 := by
      rw [Exact.max_eq]
      have hfloor : (0 : Rat) < ratioFloor := by
        unfold ratioFloor
        norm_num
      exact ne_of_gt (lt_of_lt_of_le hfloor (le_max_left _ _))
    simp only [Exact.divide_eq hlow, Exact.powerOf_eq]
    exact ⟨_, rfl⟩
  · exact ⟨_, rfl⟩
  · exact ⟨_, rfl⟩
  · exact ⟨_, rfl⟩

theorem value_ok (t : Rat) : ∃ v, a.value t = .ok v := by
  unfold value
  split
  · exact alongCurve_ok _ _ _ _
  · next h =>
      obtain ⟨v, hv, _⟩ := throughPoints_reaches (fun hnil => h (List.isEmpty_iff.2 hnil)) t
      exact ⟨v, hv⟩

/-- The tempo at a position. -/
def tempo (t : Rat) : Rat :=
  match a.tempoAt t with
  | .ok bpm => bpm
  | .error _ => minTempo

theorem tempoAt_eq (t : Rat) : a.tempoAt t = .ok (a.tempo t) := by
  obtain ⟨v, hv⟩ := a.value_ok t
  have h : a.tempoAt t = .ok (Scalar.max minTempo v) := by
    unfold tempoAt
    rw [hv]
    rfl
  unfold tempo
  rw [h]

theorem tempo_of_value {t v : Rat} (h : a.value t = .ok v) : a.tempo t = max 1 v := by
  have htempo : a.tempoAt t = .ok (Scalar.max minTempo v) := by
    unfold tempoAt
    rw [h]
    rfl
  rw [tempoAt_eq] at htempo
  rw [Except.ok.inj htempo, Exact.max_eq]
  unfold minTempo
  norm_num

theorem one_le_tempo (t : Rat) : 1 ≤ a.tempo t := by
  obtain ⟨v, hv⟩ := a.value_ok t
  rw [a.tempo_of_value hv]
  exact le_max_left 1 v

theorem tempo_pos (t : Rat) : 0 < a.tempo t :=
  lt_of_lt_of_le one_pos (a.one_le_tempo t)

/-! ## §2  The loop -/

/-- The position at which a part of a slice is sampled: its middle. -/
def sampledAt (sectionBeats position span : Rat) : Rat :=
  min 1 ((position + span / 2) / sectionBeats)

/-- The seconds of a part of a slice. -/
def sliceTime (sectionBeats position span : Rat) : Rat :=
  span * 60 / a.tempo (sampledAt sectionBeats position span)

theorem sliceSeconds_eq (sectionBeats position span : Rat) :
    a.sliceSeconds sectionBeats position span = .ok (a.sliceTime sectionBeats position span) := by
  unfold sliceSeconds sliceTime sampledAt
  simp only [Exact.min_eq, tempoAt_eq]
  norm_num

theorem sliceTime_pos {sectionBeats position span : Rat} (h : 0 < span) :
    0 < a.sliceTime sectionBeats position span := by
  have hpos := a.tempo_pos (sampledAt sectionBeats position span)
  unfold sliceTime
  positivity

/-- The beats of a slice. -/
def sliceBeats (sectionBeats : Rat) : Rat :=
  sectionBeats / 64

/-- How many slices end by a beat, less what is too short to count. -/
def fullSlices (sectionBeats beat : Rat) : ℕ :=
  min ⌈(beat - sliceTolerance) / sliceBeats sectionBeats⌉₊ ⌊beat / sliceBeats sectionBeats⌋₊

/-- The seconds of the first slices. -/
def through (sectionBeats : Rat) (n : ℕ) : Rat :=
  ∑ i ∈ Finset.range n, a.sliceTime sectionBeats (i * sliceBeats sectionBeats) (sliceBeats sectionBeats)

/-- The seconds up to a beat: those of all full slices and of the part that is left. -/
def elapsed (sectionBeats beat : Rat) : Rat :=
  let reached := fullSlices sectionBeats beat * sliceBeats sectionBeats
  a.through sectionBeats (fullSlices sectionBeats beat) +
    if reached < beat - sliceTolerance then a.sliceTime sectionBeats reached (beat - reached) else 0

variable {sectionBeats beat : Rat}

omit [Elementary] in
theorem sliceBeats_pos (h : 0 < sectionBeats) : 0 < sliceBeats sectionBeats := by
  unfold sliceBeats
  positivity

theorem sliceTolerance_pos : (0 : Rat) < sliceTolerance := by
  unfold sliceTolerance
  norm_num

theorem through_succ (n : ℕ) :
    a.through sectionBeats (n + 1) = a.through sectionBeats n +
      a.sliceTime sectionBeats (n * sliceBeats sectionBeats) (sliceBeats sectionBeats) :=
  Finset.sum_range_succ _ _

/-- A slice counts in full just if it ends by the beat and begins clearly before it. -/
theorem lt_fullSlices (h : 0 < sectionBeats) {i : ℕ} :
    i < fullSlices sectionBeats beat ↔
      i * sliceBeats sectionBeats < beat - sliceTolerance ∧
        (i + 1) * sliceBeats sectionBeats ≤ beat := by
  have hslice := sliceBeats_pos h
  unfold fullSlices
  rw [lt_min_iff, Nat.lt_ceil, lt_div_iff₀ hslice, ← Nat.succ_le_iff,
    Nat.le_floor_iff' (Nat.succ_ne_zero i), le_div_iff₀ hslice, Nat.cast_succ]

/-- What is left after the full slices is no more than a slice. -/
theorem part_le (h : 0 < sectionBeats)
    (hleft : fullSlices sectionBeats beat * sliceBeats sectionBeats < beat - sliceTolerance) :
    beat - fullSlices sectionBeats beat * sliceBeats sectionBeats ≤ sliceBeats sectionBeats := by
  by_contra hmore
  refine absurd ((lt_fullSlices h).2 ⟨hleft, ?_⟩) (lt_irrefl _)
  linarith

theorem elapsed_of_part
    (hleft : fullSlices sectionBeats beat * sliceBeats sectionBeats < beat - sliceTolerance) :
    a.elapsed sectionBeats beat = a.through sectionBeats (fullSlices sectionBeats beat) +
      a.sliceTime sectionBeats (fullSlices sectionBeats beat * sliceBeats sectionBeats)
        (beat - fullSlices sectionBeats beat * sliceBeats sectionBeats) := by
  unfold elapsed
  dsimp only
  rw [if_pos hleft]

theorem elapsed_of_none
    (hleft : ¬ fullSlices sectionBeats beat * sliceBeats sectionBeats < beat - sliceTolerance) :
    a.elapsed sectionBeats beat = a.through sectionBeats (fullSlices sectionBeats beat) := by
  unfold elapsed
  dsimp only
  rw [if_neg hleft, add_zero]

/-- One turn of the loop over a part of a slice. -/
theorem addSlices_step {position seconds : Rat} {fuel : ℕ}
    (h : position < beat - sliceTolerance) :
    a.addSlices sectionBeats (sliceBeats sectionBeats) beat (fuel + 1) position seconds =
      a.addSlices sectionBeats (sliceBeats sectionBeats) beat fuel
        (position + min (sliceBeats sectionBeats) (beat - position))
        (seconds + a.sliceTime sectionBeats position
          (min (sliceBeats sectionBeats) (beat - position))) := by
  rw [addSlices, if_pos h]
  simp only [sliceSpan, Exact.min_eq, sliceSeconds_eq]
  rfl

/-- The loop stops where no beats are left to count. -/
theorem addSlices_stop {position seconds : Rat} {fuel : ℕ}
    (h : ¬ position < beat - sliceTolerance) :
    a.addSlices sectionBeats (sliceBeats sectionBeats) beat fuel position seconds = .ok seconds := by
  cases fuel with
  | zero => rfl
  | succ fuel => rw [addSlices, if_neg h]

/-- The loop over full slices. -/
theorem addSlices_full (h : 0 < sectionBeats) (fuel : ℕ) {n : ℕ}
    (hn : n ≤ fullSlices sectionBeats beat) :
    a.addSlices sectionBeats (sliceBeats sectionBeats) beat (fuel + n) 0 0 =
      a.addSlices sectionBeats (sliceBeats sectionBeats) beat fuel
        (n * sliceBeats sectionBeats) (a.through sectionBeats n) := by
  induction n generalizing fuel with
  | zero => simp [through]
  | succ n ih =>
      obtain ⟨hbegins, hends⟩ := (lt_fullSlices h).1 hn
      have hspan : min (sliceBeats sectionBeats) (beat - n * sliceBeats sectionBeats) =
          sliceBeats sectionBeats := by
        refine min_eq_left ?_
        linarith
      -- One more turn after the first `n`, with one unit of fuel less.
      rw [show fuel + (n + 1) = fuel + 1 + n from by omega, ih (fuel + 1) (Nat.le_of_succ_le hn),
        addSlices_step a hbegins, hspan, ← through_succ, Nat.cast_succ, add_one_mul]

/-- The bound on the loop is beyond what it takes. -/
theorem fullSlices_lt_sliceBound : fullSlices sectionBeats beat <
    sliceBound (sliceBeats sectionBeats) beat := by
  have hfull : fullSlices sectionBeats beat ≤ ⌊beat / sliceBeats sectionBeats⌋₊ :=
    min_le_right _ _
  have hceil : ⌊beat / sliceBeats sectionBeats⌋₊ ≤ (beat / sliceBeats sectionBeats).ceil.toNat := by
    rw [← Int.floor_toNat]
    refine Int.toNat_le_toNat ?_
    have hle : beat / sliceBeats sectionBeats ≤ (beat / sliceBeats sectionBeats).ceil :=
      Rat.le_ceil
    exact_mod_cast (Int.floor_le _).trans hle
  change fullSlices sectionBeats beat <
    2 * (beat / sliceBeats sectionBeats).ceil.toNat + sliceCount
  unfold sliceCount
  omega

/-- The first beat takes no time. -/
theorem elapsed_zero : a.elapsed sectionBeats 0 = 0 := by
  have hnone : fullSlices sectionBeats 0 = 0 := by
    unfold fullSlices
    rw [zero_div, Nat.floor_zero]
    exact Nat.min_zero _
  have hshort : ¬ (0 : Rat) < 0 - sliceTolerance := by
    have htolerance := sliceTolerance_pos
    linarith
  rw [elapsed_of_none a (by rwa [hnone, Nat.cast_zero, zero_mul]), hnone]
  exact Finset.sum_range_zero _

/-- The loop adds up what the closed form says. -/
theorem addSlices_eq (h : 0 < sectionBeats) {fuel : ℕ} (hfuel : fullSlices sectionBeats beat < fuel) :
    a.addSlices sectionBeats (sliceBeats sectionBeats) beat fuel 0 0 =
      .ok (a.elapsed sectionBeats beat) := by
  obtain ⟨spare, rfl⟩ : ∃ spare, fuel = spare + 1 + fullSlices sectionBeats beat :=
    ⟨fuel - fullSlices sectionBeats beat - 1, by omega⟩
  rw [addSlices_full a h (spare + 1) le_rfl]
  by_cases hleft :
      (fullSlices sectionBeats beat : Rat) * sliceBeats sectionBeats < beat - sliceTolerance
  · -- The loop ends after what is left.
    have hend : ¬ fullSlices sectionBeats beat * sliceBeats sectionBeats +
        (beat - fullSlices sectionBeats beat * sliceBeats sectionBeats) < beat - sliceTolerance := by
      have htolerance := sliceTolerance_pos
      linarith
    rw [elapsed_of_part a hleft, addSlices_step a hleft, min_eq_right (part_le h hleft),
      addSlices_stop a hend]
  · rw [elapsed_of_none a hleft, addSlices_stop a hleft]

/-- **The seconds up to a beat, in closed form.** -/
theorem seconds_eq (h : 0 < sectionBeats) (hbeat : 0 ≤ beat) :
    a.seconds sectionBeats beat = .ok (a.elapsed sectionBeats beat) := by
  rcases hbeat.eq_or_lt with rfl | hpos
  · rw [elapsed_zero]
    unfold seconds
    rw [if_pos (by simp [Exact.zero_eq])]
    norm_num
  · have hslice : sectionBeats / Scalar.ofNat sliceCount = sliceBeats sectionBeats := by
      rw [Exact.ofNat_eq]
      rfl
    unfold seconds
    rw [if_neg (by simp [Exact.zero_eq, h, hpos])]
    dsimp only
    rw [hslice]
    have hfuel : fullSlices sectionBeats beat < sliceBound (sliceBeats sectionBeats) beat :=
      fullSlices_lt_sliceBound
    convert addSlices_eq a h hfuel using 2 <;> norm_num

/-- In a section without beats no time goes by. -/
theorem seconds_of_nonpos (h : sectionBeats ≤ 0) (beat : Rat) :
    a.seconds sectionBeats beat = .ok 0.0 := by
  unfold seconds
  rw [if_pos (by simp [Exact.zero_eq, h])]

/-! ## §3  Order -/

theorem through_mono (h : 0 < sectionBeats) : Monotone (a.through sectionBeats) := by
  refine monotone_nat_of_le_succ fun n => ?_
  rw [through_succ]
  exact le_add_of_nonneg_right (le_of_lt (a.sliceTime_pos (sliceBeats_pos h)))

/-- A part of a slice only adds to the full ones. -/
theorem through_le_elapsed (beat : Rat) :
    a.through sectionBeats (fullSlices sectionBeats beat) ≤ a.elapsed sectionBeats beat := by
  by_cases hleft :
      (fullSlices sectionBeats beat : Rat) * sliceBeats sectionBeats < beat - sliceTolerance
  · have hspan : 0 < beat - fullSlices sectionBeats beat * sliceBeats sectionBeats := by
      have htolerance := sliceTolerance_pos
      linarith
    rw [elapsed_of_part a hleft]
    exact le_add_of_nonneg_right (le_of_lt (a.sliceTime_pos hspan))
  · rw [elapsed_of_none a hleft]

/-- Time does not begin before the section does. -/
theorem elapsed_nonneg (h : 0 < sectionBeats) (beat : Rat) : 0 ≤ a.elapsed sectionBeats beat :=
  calc (0 : Rat) = a.through sectionBeats 0 := by simp [through]
    _ ≤ a.through sectionBeats (fullSlices sectionBeats beat) := a.through_mono h (Nat.zero_le _)
    _ ≤ a.elapsed sectionBeats beat := a.through_le_elapsed beat

end Partitura.Automation

import Mathlib.Tactic.FieldSimp
import Partitura.Proofs.Tempo.Direction
import Partitura.Tempo.Seconds

/-!
# The seconds of an automated section lie between those of its tempos

The loop over the slices is written with a bound on its turns. Without it, turn by turn, it is the relation
`Loops`, which has no rule for a division by zero; it comes to an end after no more turns than slices have
begun (`exists_loops`).

What part of a section takes is bounded by the least and the greatest tempo that it passes through
(`bounded_by_tempos`). Slices that lie between the two beats are sampled between them too, so each takes
what it takes at such a tempo (`paced_through`). The only beats for which this may fail are those that the
loop leaves out at its end, because they are too few to be worth a turn, and no beat takes more than a
minute.
-/

namespace Partitura

namespace Automation

variable [Elementary] (a : Automation Rat) {sectionBeats beat : Rat}

/-! ## §1  The loop, turn by turn -/

/-- So many turns of the loop lead from a position and the seconds up to there to the seconds in the end.
Every turn divides by the beats of the section and by a tempo, and neither is zero. -/
inductive Loops (a : Automation Rat) (sectionBeats beat : Rat) : ℕ → Rat → Rat → Rat → Prop
  | done {position seconds : Rat} (h : ¬ position < beat - sliceTolerance) :
      Loops a sectionBeats beat 0 position seconds seconds
  | turn {n : ℕ} {position span seconds total bpm : Rat} (h : position < beat - sliceTolerance)
      (hspan : span = min (sliceBeats sectionBeats) (beat - position)) (hbeats : sectionBeats ≠ 0)
      (htempo : a.tempoAt (sampledAt sectionBeats position span) = .ok bpm) (hbpm : bpm ≠ 0)
      (hrest : Loops a sectionBeats beat n (position + span) (seconds + span * 60 / bpm) total) :
      Loops a sectionBeats beat (n + 1) position seconds total

/-- What the turns come to, the loop comes to if its bound leaves room for them. -/
theorem Loops.addSlices_eq {n : ℕ} {position seconds total : Rat}
    (h : a.Loops sectionBeats beat n position seconds total) {fuel : ℕ} (hfuel : n ≤ fuel) :
    a.addSlices sectionBeats (sliceBeats sectionBeats) beat fuel position seconds = .ok total := by
  induction h generalizing fuel with
  | done h => exact addSlices_stop a h
  | turn h hspan _ htempo _ _ ih =>
      obtain ⟨fuel, rfl⟩ : ∃ spare, fuel = spare + 1 := ⟨fuel - 1, by omega⟩
      rw [tempoAt_eq] at htempo
      rw [addSlices_step a h, ← hspan, sliceTime, Except.ok.inj htempo]
      exact ih (Nat.le_of_succ_le_succ hfuel)

/-- No more turns are taken than slices begin between the position and the beat. -/
theorem exists_loops_of_le (h : 0 < sectionBeats) {n : ℕ} {position : Rat}
    (hn : beat - position ≤ n * sliceBeats sectionBeats) (seconds : Rat) :
    ∃ m ≤ n, ∃ total, a.Loops sectionBeats beat m position seconds total := by
  have hslice := sliceBeats_pos h
  induction n generalizing position seconds with
  | zero =>
      have htolerance := sliceTolerance_pos
      rw [Nat.cast_zero, zero_mul] at hn
      exact ⟨0, le_rfl, seconds, .done (by linarith)⟩
  | succ n ih =>
      by_cases hleft : position < beat - sliceTolerance
      · set span := min (sliceBeats sectionBeats) (beat - position) with hspan
        have hrest : beat - (position + span) ≤ n * sliceBeats sectionBeats := by
          rw [Nat.cast_succ, add_one_mul] at hn
          rcases min_choice (sliceBeats sectionBeats) (beat - position) with hmin | hmin
          · rw [hspan, hmin]
            linarith
          · have hnone : 0 ≤ n * sliceBeats sectionBeats := mul_nonneg n.cast_nonneg hslice.le
            rw [hspan, hmin]
            linarith
        obtain ⟨m, hm, total, hloops⟩ := ih hrest
          (seconds + span * 60 / a.tempo (sampledAt sectionBeats position span))
        exact ⟨m + 1, Nat.succ_le_succ hm, total, .turn hleft hspan h.ne' (a.tempoAt_eq _)
          (a.tempo_pos _).ne' hloops⟩
      · exact ⟨0, Nat.zero_le _, seconds, .done hleft⟩

/-- The loop comes to an end after no more turns than slices have begun, and without dividing by zero. -/
theorem exists_loops (h : 0 < sectionBeats) (beat : Rat) :
    ∃ n ≤ ⌈64 * beat / sectionBeats⌉₊, a.Loops sectionBeats beat n 0 0 (a.elapsed sectionBeats beat) := by
  have hbegun : beat - 0 ≤ ⌈64 * beat / sectionBeats⌉₊ * sliceBeats sectionBeats := by
    have hceil : 64 * beat / sectionBeats ≤ ⌈64 * beat / sectionBeats⌉₊ := Nat.le_ceil _
    rw [div_le_iff₀ h] at hceil
    unfold sliceBeats
    linarith
  obtain ⟨n, hn, total, hloops⟩ := a.exists_loops_of_le h hbegun 0
  have hfuel : fullSlices sectionBeats beat < n + fullSlices sectionBeats beat + 1 := by omega
  have htotal := hloops.addSlices_eq a (show n ≤ n + fullSlices sectionBeats beat + 1 by omega)
  rw [a.addSlices_eq h hfuel] at htotal
  exact ⟨n, hn, Except.ok.inj htotal ▸ hloops⟩

/-! ## §2  Paces -/

/-- Beats that each take so many seconds, at least and at most. -/
structure Paced (least most beats seconds : Rat) : Prop where
  least : beats * least ≤ seconds
  most : seconds ≤ beats * most

omit [Elementary] in
theorem Paced.add {least most beats beats' seconds seconds' : Rat} (h : Paced least most beats seconds)
    (h' : Paced least most beats' seconds') :
    Paced least most (beats + beats') (seconds + seconds') where
  least := by
    rw [add_mul]
    exact add_le_add h.least h'.least
  most := by
    rw [add_mul]
    exact add_le_add h.most h'.most

/-- From one position to another the tempo stays between two bounds. -/
def PlaysBetween (low high first last : Rat) : Prop :=
  ∀ t, first ≤ t → t ≤ last → ∃ bpm, a.tempoAt t = .ok bpm ∧ low ≤ bpm ∧ bpm ≤ high

variable {low high first last : Rat}

theorem PlaysBetween.tempo {a : Automation Rat} (h : a.PlaysBetween low high first last) {t : Rat}
    (hfirst : first ≤ t) (hlast : t ≤ last) : low ≤ a.tempo t ∧ a.tempo t ≤ high := by
  obtain ⟨bpm, hbpm, hbounds⟩ := h t hfirst hlast
  rw [tempoAt_eq] at hbpm
  rw [Except.ok.inj hbpm]
  exact hbounds

/-- A part of a slice takes what it takes at a tempo between the bounds. -/
theorem paced_slice (hlow : 0 < low) {position span : Rat} (hspan : 0 ≤ span)
    (h : low ≤ a.tempo (sampledAt sectionBeats position span) ∧
      a.tempo (sampledAt sectionBeats position span) ≤ high) :
    Paced (60 / high) (60 / low) span (a.sliceTime sectionBeats position span) := by
  have htempo := a.tempo_pos (sampledAt sectionBeats position span)
  unfold sliceTime
  rw [mul_div_assoc]
  exact ⟨mul_le_mul_of_nonneg_left (div_le_div_of_nonneg_left (by norm_num) htempo h.2) hspan,
    mul_le_mul_of_nonneg_left (div_le_div_of_nonneg_left (by norm_num) hlow h.1) hspan⟩

/-- No beat takes more than a minute. -/
theorem paced_slice_slow {position span : Rat} (hspan : 0 ≤ span) :
    Paced 0 60 span (a.sliceTime sectionBeats position span) := by
  have hpaced := a.paced_slice one_pos hspan
    ⟨a.one_le_tempo (sampledAt sectionBeats position span), le_rfl⟩
  have htempo := a.tempo_pos (sampledAt sectionBeats position span)
  refine ⟨?_, by simpa using hpaced.most⟩
  rw [mul_zero]
  exact (mul_nonneg hspan (by positivity)).trans hpaced.least

/-- Full slices of one pace. -/
theorem paced_through {least most : Rat} {m n : ℕ} (hmn : m ≤ n)
    (h : ∀ k, m ≤ k → k < n → Paced least most (sliceBeats sectionBeats)
      (a.sliceTime sectionBeats (k * sliceBeats sectionBeats) (sliceBeats sectionBeats))) :
    Paced least most (n * sliceBeats sectionBeats - m * sliceBeats sectionBeats)
      (a.through sectionBeats n - a.through sectionBeats m) := by
  induction n, hmn using Nat.le_induction with
  | base =>
      rw [sub_self, sub_self]
      exact ⟨by rw [zero_mul], by rw [zero_mul]⟩
  | succ n hmn ih =>
      have hmore := (ih fun k hk hkn => h k hk (Nat.lt_succ_of_lt hkn)).add
        (h n hmn (Nat.lt_succ_self n))
      rw [through_succ, Nat.cast_succ, add_one_mul, add_sub_right_comm, add_sub_right_comm]
      exact hmore

omit [Elementary] in
/-- What lies between two beats is sampled between their positions. -/
theorem sampledAt_between (h : 0 < sectionBeats) {i : ℕ} {position span : Rat}
    (hposition : i * sliceBeats sectionBeats ≤ position) (hspan : 0 ≤ span)
    (hend : position + span ≤ beat) :
    min 1 ((i : Rat) / 64) ≤ sampledAt sectionBeats position span ∧
      sampledAt sectionBeats position span ≤ min 1 (beat / sectionBeats) := by
  have hstart : (i : Rat) / 64 ≤ (position + span / 2) / sectionBeats := by
    rw [le_div_iff₀ h]
    unfold sliceBeats at hposition
    linarith
  have hmiddle : (position + span / 2) / sectionBeats ≤ beat / sectionBeats :=
    div_le_div_of_nonneg_right (by linarith) h.le
  unfold sampledAt
  exact ⟨min_le_min_left 1 hstart, min_le_min_left 1 hmiddle⟩

/-! ## §3  From the edge of a slice -/

/-- The full slices end by the beat. -/
theorem fullSlices_mul_le (h : 0 < sectionBeats) (hbeat : 0 ≤ beat) :
    fullSlices sectionBeats beat * sliceBeats sectionBeats ≤ beat := by
  have hslice := sliceBeats_pos h
  rw [← le_div_iff₀ hslice]
  have hfloor : (fullSlices sectionBeats beat : Rat) ≤ ⌊beat / sliceBeats sectionBeats⌋₊ := by
    exact_mod_cast min_le_right _ _
  exact hfloor.trans (Nat.floor_le (div_nonneg hbeat hslice.le))

/-- Where fewer slices count than have ended, the rest is left out. -/
theorem left_out_of_lt (h : 0 < sectionBeats) {i : ℕ} (hbeat : i * sliceBeats sectionBeats ≤ beat)
    (hi : fullSlices sectionBeats beat < i) :
    beat - sliceTolerance ≤ fullSlices sectionBeats beat * sliceBeats sectionBeats := by
  by_contra hleft
  have hends : ((fullSlices sectionBeats beat : Rat) + 1) * sliceBeats sectionBeats ≤ beat := by
    refine (mul_le_mul_of_nonneg_right ?_ (sliceBeats_pos h).le).trans hbeat
    exact_mod_cast hi
  exact absurd ((lt_fullSlices h).2 ⟨not_le.1 hleft, hends⟩) (lt_irrefl _)

/-- At the edge of a slice no part of one counts. -/
theorem elapsed_edge (h : 0 < sectionBeats) (i : ℕ) :
    fullSlices sectionBeats (i * sliceBeats sectionBeats) ≤ i ∧
      i * sliceBeats sectionBeats - sliceTolerance ≤
        fullSlices sectionBeats (i * sliceBeats sectionBeats) * sliceBeats sectionBeats ∧
      a.elapsed sectionBeats (i * sliceBeats sectionBeats) =
        a.through sectionBeats (fullSlices sectionBeats (i * sliceBeats sectionBeats)) := by
  have hslice := sliceBeats_pos h
  have htolerance := sliceTolerance_pos
  have hle : fullSlices sectionBeats (i * sliceBeats sectionBeats) ≤ i := by
    have hstart : 0 ≤ i * sliceBeats sectionBeats := mul_nonneg i.cast_nonneg hslice.le
    exact_mod_cast le_of_mul_le_mul_right (fullSlices_mul_le h hstart) hslice
  have hreached : i * sliceBeats sectionBeats - sliceTolerance ≤
      fullSlices sectionBeats (i * sliceBeats sectionBeats) * sliceBeats sectionBeats := by
    rcases hle.eq_or_lt with heq | hlt
    · rw [heq]
      linarith
    · exact left_out_of_lt h le_rfl hlt
  exact ⟨hle, hreached, a.elapsed_of_none (not_lt.2 hreached)⟩

/-- The beats behind an edge, but for a few at the end, take what they take at a tempo between the
bounds. -/
theorem exists_paced_behind (h : 0 < sectionBeats) (hlow : 0 < low) {i : ℕ}
    (hplays : a.PlaysBetween low high (min 1 ((i : Rat) / 64)) (min 1 (beat / sectionBeats)))
    (hbeat : 0 ≤ beat) (hi : i ≤ fullSlices sectionBeats beat) :
    ∃ finish, beat - sliceTolerance ≤ finish ∧ finish ≤ beat ∧
      Paced (60 / high) (60 / low) (finish - i * sliceBeats sectionBeats)
        (a.elapsed sectionBeats beat - a.through sectionBeats i) := by
  have hslice := sliceBeats_pos h
  have hreached := fullSlices_mul_le h hbeat
  have hpart {position span : Rat} (hposition : i * sliceBeats sectionBeats ≤ position)
      (hspan : 0 ≤ span) (hend : position + span ≤ beat) :
      Paced (60 / high) (60 / low) span (a.sliceTime sectionBeats position span) := by
    obtain ⟨hfirst, hlast⟩ := sampledAt_between h hposition hspan hend
    exact a.paced_slice hlow hspan (hplays.tempo hfirst hlast)
  have hfull : Paced (60 / high) (60 / low)
      (fullSlices sectionBeats beat * sliceBeats sectionBeats - i * sliceBeats sectionBeats)
      (a.through sectionBeats (fullSlices sectionBeats beat) - a.through sectionBeats i) := by
    refine a.paced_through hi fun k hik hk => hpart ?_ hslice.le ?_
    · exact mul_le_mul_of_nonneg_right (by exact_mod_cast hik) hslice.le
    · rw [← add_one_mul]
      exact ((lt_fullSlices h).1 hk).2
  by_cases hleft :
      (fullSlices sectionBeats beat : Rat) * sliceBeats sectionBeats < beat - sliceTolerance
  · have htolerance := sliceTolerance_pos
    have hstart : i * sliceBeats sectionBeats ≤
        fullSlices sectionBeats beat * sliceBeats sectionBeats :=
      mul_le_mul_of_nonneg_right (by exact_mod_cast hi) hslice.le
    have hboth := hfull.add (hpart hstart (sub_nonneg.2 hreached) (add_sub_cancel _ _).le)
    refine ⟨beat, by linarith, le_rfl, ?_⟩
    rw [elapsed_of_part a hleft]
    convert hboth using 1 <;> ring
  · refine ⟨fullSlices sectionBeats beat * sliceBeats sectionBeats, not_lt.1 hleft, hreached, ?_⟩
    rw [elapsed_of_none a hleft]
    exact hfull

/-- Slices that are so few that the loop may leave them out. -/
theorem few_slices (h : 0 < sectionBeats) {m n : ℕ} (hmn : m ≤ n)
    (hfew : n * sliceBeats sectionBeats - sliceTolerance ≤ m * sliceBeats sectionBeats) :
    0 ≤ a.through sectionBeats n - a.through sectionBeats m ∧
      a.through sectionBeats n - a.through sectionBeats m ≤ 60 * sliceTolerance := by
  have hpaced : Paced 0 60 (n * sliceBeats sectionBeats - m * sliceBeats sectionBeats)
      (a.through sectionBeats n - a.through sectionBeats m) :=
    a.paced_through hmn fun _ _ _ => a.paced_slice_slow (sliceBeats_pos h).le
  have hleast := hpaced.least
  have hmost := hpaced.most
  constructor <;> linarith

/-- What lies behind the edge of a slice takes no less than at the greatest tempo and no more than at the
least, but for the beats that the loop leaves out. -/
theorem elapsed_between (h : 0 < sectionBeats) (hlow : 0 < low) {i : ℕ}
    (hbeat : i * sliceBeats sectionBeats ≤ beat)
    (hplays : a.PlaysBetween low high (min 1 ((i : Rat) / 64)) (min 1 (beat / sectionBeats))) :
    (beat - i * sliceBeats sectionBeats) * (60 / high) - 60 * sliceTolerance ≤
        a.elapsed sectionBeats beat - a.elapsed sectionBeats (i * sliceBeats sectionBeats) ∧
      a.elapsed sectionBeats beat - a.elapsed sectionBeats (i * sliceBeats sectionBeats) ≤
        (beat - i * sliceBeats sectionBeats) * (60 / low) + 60 * sliceTolerance := by
  have hslice := sliceBeats_pos h
  have htolerance := sliceTolerance_pos
  obtain ⟨hle, hreached, helapsed⟩ := a.elapsed_edge h i
  -- All tempos are at least 1, and so is the greatest of those in between.
  have hhigh : 1 ≤ high := by
    have hplace : (i : Rat) / 64 ≤ beat / sectionBeats := by
      unfold sliceBeats at hbeat
      rw [div_le_div_iff₀ (by norm_num) h]
      linarith
    exact (a.one_le_tempo _).trans (hplays.tempo le_rfl (min_le_min_left 1 hplace)).2
  have hpace : 0 ≤ 60 / high := by positivity
  have hpace' : 60 / high ≤ 60 := div_le_self (by norm_num) hhigh
  have hpace'' : 0 ≤ 60 / low := by positivity
  rw [helapsed]
  rcases le_or_gt i (fullSlices sectionBeats beat) with hi | hi
  · have hstart : 0 ≤ i * sliceBeats sectionBeats := mul_nonneg i.cast_nonneg hslice.le
    obtain ⟨hnonneg, hfew⟩ := a.few_slices h hle hreached
    obtain ⟨finish, hfinish, hfinish', hpaced⟩ :=
      a.exists_paced_behind h hlow hplays (hstart.trans hbeat) hi
    have hleast := hpaced.least
    have hmost := hpaced.most
    constructor
    · nlinarith
    · nlinarith
  · -- Neither beat has a part of a slice, and between them lies what may be left out.
    have hreached' := left_out_of_lt h hbeat hi
    have hbefore : fullSlices sectionBeats beat * sliceBeats sectionBeats ≤
        i * sliceBeats sectionBeats := mul_le_mul_of_nonneg_right (by exact_mod_cast hi.le) hslice.le
    obtain ⟨hnonneg, hfew⟩ := a.few_slices h (fullSlices_mono h hbeat)
      ((sub_le_sub_right hbefore _).trans hreached)
    rw [elapsed_of_none a (not_lt.2 hreached')]
    constructor
    · nlinarith
    · nlinarith

/-! ## §4  Tempos and seconds -/

omit [Elementary] in
theorem edge_eq (sectionBeats : Rat) (i : ℕ) :
    i * sectionBeats / 64 = i * sliceBeats sectionBeats :=
  mul_div_assoc _ _ _

/-- What is left out takes so many seconds at most. -/
theorem left_out_seconds : 60 * sliceTolerance = (6e-11 : Rat) := by
  unfold sliceTolerance
  norm_num

/-- The seconds from the edge of a slice to a later beat. -/
theorem seconds_between (h : 0 < sectionBeats) (hlow : 0 < low) {i : ℕ}
    (hbeat : i * sectionBeats / 64 ≤ beat)
    (hplays : a.PlaysBetween low high (min 1 ((i : Rat) / 64)) (min 1 (beat / sectionBeats))) :
    ∃ t₁ t₂, a.seconds sectionBeats (i * sectionBeats / 64) = .ok t₁ ∧
      a.seconds sectionBeats beat = .ok t₂ ∧
      (beat - i * sectionBeats / 64) * 60 / high - 6e-11 ≤ t₂ - t₁ ∧
      t₂ - t₁ ≤ (beat - i * sectionBeats / 64) * 60 / low + 6e-11 := by
  rw [edge_eq] at hbeat ⊢
  have hstart : 0 ≤ i * sliceBeats sectionBeats := mul_nonneg i.cast_nonneg (sliceBeats_pos h).le
  obtain ⟨hleast, hmost⟩ := a.elapsed_between h hlow hbeat hplays
  rw [left_out_seconds] at hleast hmost
  refine ⟨_, _, a.seconds_eq h hstart, a.seconds_eq h (hstart.trans hbeat), ?_, ?_⟩
  · rwa [mul_div_assoc]
  · rwa [mul_div_assoc]

/-- Where the tempo does not move, the seconds are those of a fixed tempo. -/
theorem seconds_flat (h : 0 < sectionBeats) {i : ℕ} {bpm : Rat}
    (hbeat : i * sectionBeats / 64 ≤ beat)
    (hflat : ∀ t, min 1 ((i : Rat) / 64) ≤ t → t ≤ min 1 (beat / sectionBeats) →
      a.tempoAt t = .ok bpm) :
    ∃ t₁ t₂ t₃, a.seconds sectionBeats (i * sectionBeats / 64) = .ok t₁ ∧
      a.seconds sectionBeats beat = .ok t₂ ∧
      beatsToSeconds (beat - i * sectionBeats / 64) bpm = .ok t₃ ∧ |t₂ - t₁ - t₃| ≤ 6e-11 := by
  have hpos : 0 < bpm := by
    have hplace : (i : Rat) / 64 ≤ beat / sectionBeats := by
      rw [div_le_div_iff₀ (by norm_num) h]
      linarith
    have htempo := hflat _ le_rfl (min_le_min_left 1 hplace)
    rw [tempoAt_eq] at htempo
    exact Except.ok.inj htempo ▸ a.tempo_pos _
  obtain ⟨t₁, t₂, ht₁, ht₂, hleast, hmost⟩ := a.seconds_between h hpos hbeat
    fun t hfirst hlast => ⟨bpm, hflat t hfirst hlast, le_rfl, le_rfl⟩
  have hfixed : beatsToSeconds (beat - i * sectionBeats / 64) bpm =
      .ok ((beat - i * sectionBeats / 64) * 60 / bpm) := by
    unfold beatsToSeconds
    rw [Exact.divide_eq hpos.ne']
    norm_num
  refine ⟨t₁, t₂, _, ht₁, ht₂, hfixed, abs_le.2 ⟨?_, ?_⟩⟩ <;> linarith

/-- **The seconds of a section lie between those of its tempos.** From the edge of a slice to any later
beat they are no fewer than at the greatest tempo in between and no more than at the least, give or take
what the loop leaves out. The loop takes no more turns than slices have begun, and divides by nothing that
is zero. So a flat automation agrees with a fixed tempo, and beats beyond the section run at its last
tempo. -/
theorem bounded_by_tempos (a : Automation Rat) {sectionBeats : Rat} (h : 0 < sectionBeats) :
    (∀ (i : ℕ) (beat low high : Rat), 0 < low → i * sectionBeats / 64 ≤ beat →
      a.PlaysBetween low high (min 1 (i / 64)) (min 1 (beat / sectionBeats)) →
      ∃ t₁ t₂, a.seconds sectionBeats (i * sectionBeats / 64) = .ok t₁ ∧
        a.seconds sectionBeats beat = .ok t₂ ∧
        (beat - i * sectionBeats / 64) * 60 / high - 6e-11 ≤ t₂ - t₁ ∧
        t₂ - t₁ ≤ (beat - i * sectionBeats / 64) * 60 / low + 6e-11) ∧
    (∀ beat, 0 ≤ beat → ∃ n ≤ ⌈64 * beat / sectionBeats⌉₊, ∃ total,
      a.seconds sectionBeats beat = .ok total ∧ a.Loops sectionBeats beat n 0 0 total) ∧
    (∀ beat bpm, 0 ≤ beat → (∀ t, 0 ≤ t → t ≤ 1 → a.tempoAt t = .ok bpm) →
      ∃ t₁ t₂, a.seconds sectionBeats beat = .ok t₁ ∧ beatsToSeconds beat bpm = .ok t₂ ∧
        |t₁ - t₂| ≤ 6e-11) ∧
    ∀ (i : ℕ) (beat bpm : Rat), 64 ≤ i → i * sectionBeats / 64 ≤ beat → a.tempoAt 1 = .ok bpm →
      ∃ t₁ t₂ t₃, a.seconds sectionBeats (i * sectionBeats / 64) = .ok t₁ ∧
        a.seconds sectionBeats beat = .ok t₂ ∧
        beatsToSeconds (beat - i * sectionBeats / 64) bpm = .ok t₃ ∧ |t₂ - t₁ - t₃| ≤ 6e-11 := by
  refine ⟨fun i beat low high hlow hbeat hplays => a.seconds_between h hlow hbeat hplays,
    fun beat hbeat => ?_, fun beat bpm hbeat hflat => ?_, fun i beat bpm hi hbeat hlast => ?_⟩
  · obtain ⟨n, hn, hloops⟩ := a.exists_loops h beat
    exact ⟨n, hn, _, a.seconds_eq h hbeat, hloops⟩
  · -- A flat automation plays all of the section, from its first edge on, at one tempo.
    have hstart : ((0 : ℕ) : Rat) * sectionBeats / 64 = 0 := by simp
    obtain ⟨t₁, t₂, t₃, ht₁, ht₂, ht₃, hclose⟩ := a.seconds_flat h (hstart.trans_le hbeat)
      fun t hfirst hlast => hflat t (by simpa using hfirst) (hlast.trans (min_le_left _ _))
    rw [hstart, a.seconds_eq h le_rfl, elapsed_zero] at ht₁
    rw [hstart, sub_zero] at ht₃
    obtain rfl := Except.ok.inj ht₁
    rw [sub_zero] at hclose
    exact ⟨t₂, t₃, ht₂, ht₃, hclose⟩
  · -- Beyond the section there is only one position.
    have hcount : (1 : Rat) ≤ i / 64 := by
      rw [le_div_iff₀ (by norm_num)]
      exact_mod_cast hi
    refine a.seconds_flat h hbeat fun t hfirst hend => ?_
    rw [min_eq_left hcount] at hfirst
    rwa [le_antisymm (hend.trans (min_le_left _ _)) hfirst]

/-- A tempo that climbs from 60 to 120. -/
def climb : Automation Rat where
  start := 60
  finish := 120

/-- From the middle of a climb on the tempo lies between 90 and 120. -/
theorem climb_playsBetween : climb.PlaysBetween 90 120 (1 / 2) 1 := by
  intro t hfirst hlast
  refine ⟨climb.tempo t, climb.tempoAt_eq t, ?_⟩
  rw [climb.tempo_straight rfl rfl (by norm_num [climb]) (by norm_num [climb]) (by linarith) hlast]
  unfold climb
  constructor <;> linarith

/-- A tempo that stays. -/
def level : Automation Rat where
  start := 100
  finish := 100

theorem level_tempoAt {t : Rat} (hfirst : 0 ≤ t) (hlast : t ≤ 1) : level.tempoAt t = .ok 100 := by
  rw [tempoAt_eq, level.tempo_straight rfl rfl (by norm_num [level]) (by norm_num [level]) hfirst hlast]
  norm_num [level]

omit [Elementary] in
/-- The theorem at work over four beats: from the middle of the climb to two beats beyond its end, beyond
its end, and at a tempo that stays. -/
theorem climb_bounded : ∃ _ : Elementary,
    (∃ t₁ t₂, climb.seconds 4 2 = .ok t₁ ∧ climb.seconds 4 6 = .ok t₂ ∧
      2 - 6e-11 ≤ t₂ - t₁ ∧ t₂ - t₁ ≤ 8 / 3 + 6e-11) ∧
    (∃ n ≤ 96, ∃ total, climb.seconds 4 6 = .ok total ∧ climb.Loops 4 6 n 0 0 total) ∧
    (∃ t₁ t₂, level.seconds 4 3 = .ok t₁ ∧ beatsToSeconds (3 : Rat) 100 = .ok t₂ ∧
      |t₁ - t₂| ≤ 6e-11) ∧
    ∃ t₁ t₂ t₃, climb.seconds 4 4 = .ok t₁ ∧ climb.seconds 4 6 = .ok t₂ ∧
      beatsToSeconds (2 : Rat) 120 = .ok t₃ ∧ |t₂ - t₁ - t₃| ≤ 6e-11 := by
  let _ := Elementary.coarse
  have hbeats : (0 : Rat) < 4 := by norm_num
  have hlast : climb.tempoAt 1 = .ok 120 := by
    rw [tempoAt_eq, climb.tempo_straight rfl rfl (by norm_num [climb]) (by norm_num [climb])
      zero_le_one le_rfl]
    norm_num [climb]
  obtain ⟨hbetween, hturns, _, hbeyond⟩ := bounded_by_tempos climb hbeats
  obtain ⟨_, _, hflat, _⟩ := bounded_by_tempos level hbeats
  refine ⟨inferInstance, ?_, ?_, ?_, ?_⟩
  · obtain ⟨t₁, t₂, ht₁, ht₂, hleast, hmost⟩ := hbetween 32 6 90 120 (by norm_num) (by norm_num)
      (by norm_num; exact climb_playsBetween)
    norm_num at ht₁ hleast hmost
    exact ⟨t₁, t₂, ht₁, ht₂, by norm_num; linarith, by norm_num; linarith⟩
  · obtain ⟨n, hn, total, htotal, hloops⟩ := hturns 6 (by norm_num)
    norm_num at hn
    exact ⟨n, hn, total, htotal, hloops⟩
  · exact hflat 3 100 (by norm_num) fun t => level_tempoAt
  · obtain ⟨t₁, t₂, t₃, ht₁, ht₂, ht₃, hclose⟩ := hbeyond 64 6 120 le_rfl (by norm_num) hlast
    norm_num at ht₁ ht₃
    exact ⟨t₁, t₂, t₃, ht₁, ht₂, ht₃, hclose⟩

end Automation

end Partitura

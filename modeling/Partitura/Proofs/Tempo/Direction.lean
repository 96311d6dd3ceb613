import Mathlib.Tactic.NormNum.Basic
import Mathlib.Tactic.Ring
import Partitura.Proofs.Score.Timing
import Partitura.Proofs.Tempo.Slices
import Partitura.Score.Analysis

/-!
# Which way time runs under a moving tempo

A slice is played at the tempo of its middle, but a part of one at the tempo of the middle of that
part. Two beats of one slice are therefore timed at two tempos, and if the tempo rises fast enough in
between, the later beat comes first.

Time runs forward just if that never happens, that is, if in no slice the tempo rises out of
proportion to the beats that have gone by in it (`Automation.runsForward_iff`). A straight ramp is
always of this kind (`Automation.steady_of_straight`), points that jump need not be.
-/

namespace Partitura.Automation

variable [Elementary] (a : Automation Rat)

/-! ## §1  Notions -/

/-- No beat comes before an earlier one. -/
def RunsForward (sectionBeats : Rat) : Prop :=
  ∀ b₁ b₂, 0 ≤ b₁ → b₁ ≤ b₂ →
    ∃ t₁ t₂, a.seconds sectionBeats b₁ = .ok t₁ ∧ a.seconds sectionBeats b₂ = .ok t₂ ∧ t₁ ≤ t₂

/-- The tempo at which the first `x` beats of a slice are played, if it stops there. -/
def partTempo (sectionBeats : Rat) (slice : ℕ) (x : Rat) : Rat :=
  a.tempo (sampledAt sectionBeats (slice * sliceBeats sectionBeats) x)

/-- In no slice does the tempo rise out of proportion to the beats that have gone by in it. -/
def Steady (sectionBeats : Rat) : Prop :=
  ∀ k < sliceCount, ∀ x y, sliceTolerance < x → x ≤ y → y ≤ sliceBeats sectionBeats →
    x * a.partTempo sectionBeats k y ≤ y * a.partTempo sectionBeats k x

/-! ## §2  Inside one slice -/

variable {sectionBeats : Rat}

/-- More of a slice takes no less time just if the tempo has not risen out of proportion. -/
theorem sliceTime_le_iff {k : ℕ} {x y : Rat} :
    a.sliceTime sectionBeats (k * sliceBeats sectionBeats) x ≤
        a.sliceTime sectionBeats (k * sliceBeats sectionBeats) y ↔
      x * a.partTempo sectionBeats k y ≤ y * a.partTempo sectionBeats k x := by
  have hx := a.tempo_pos (sampledAt sectionBeats (k * sliceBeats sectionBeats) x)
  have hy := a.tempo_pos (sampledAt sectionBeats (k * sliceBeats sectionBeats) y)
  unfold sliceTime partTempo
  rw [div_le_div_iff₀ hx hy]
  constructor
  · intro h
    linarith
  · intro h
    linarith

omit [Elementary] in
/-- Beyond the section everything is sampled at its end. -/
theorem sampledAt_beyond (h : 0 < sectionBeats) {k : ℕ} (hk : sliceCount ≤ k) {x : Rat}
    (hx : 0 ≤ x) : sampledAt sectionBeats (k * sliceBeats sectionBeats) x = 1 := by
  have hcount : (64 : Rat) ≤ k := by
    exact_mod_cast hk
  unfold sampledAt sliceBeats
  refine min_eq_left ?_
  rw [le_div_iff₀ h]
  nlinarith

/-- Steadiness holds in the slices beyond the section as well. -/
theorem Steady.sliceTime_le (hsteady : a.Steady sectionBeats) (h : 0 < sectionBeats) (k : ℕ)
    {x y : Rat} (hx : sliceTolerance < x) (hxy : x ≤ y) (hy : y ≤ sliceBeats sectionBeats) :
    a.sliceTime sectionBeats (k * sliceBeats sectionBeats) x ≤
      a.sliceTime sectionBeats (k * sliceBeats sectionBeats) y := by
  rw [sliceTime_le_iff]
  rcases lt_or_ge k sliceCount with hk | hk
  · exact hsteady k hk x y hx hxy hy
  · -- Beyond the section both parts are played at its last tempo.
    have hpos : 0 ≤ x := le_of_lt (sliceTolerance_pos.trans hx)
    unfold partTempo
    rw [sampledAt_beyond h hk hpos, sampledAt_beyond h hk (hpos.trans hxy)]
    exact mul_le_mul_of_nonneg_right hxy (le_of_lt (a.tempo_pos 1))

/-- The slices that have ended by a beat inside a slice are those before it. -/
theorem fullSlices_inside (h : 0 < sectionBeats) (k : ℕ) {x : Rat} (hx : sliceTolerance < x)
    (hless : x < sliceBeats sectionBeats) :
    fullSlices sectionBeats (k * sliceBeats sectionBeats + x) = k := by
  have htolerance := sliceTolerance_pos
  refine le_antisymm (not_lt.1 fun hk => ?_) ?_
  · have hends := ((lt_fullSlices h).1 hk).2
    linarith
  · -- The slice before, if there is one, ends where this one begins.
    cases k with
    | zero => exact Nat.zero_le _
    | succ k =>
        refine (lt_fullSlices h).2 ⟨?_, ?_⟩
        · push_cast
          linarith
        · push_cast
          linarith

theorem fullSlices_end (h : 0 < sectionBeats) (k : ℕ)
    (hlong : sliceTolerance < sliceBeats sectionBeats) :
    fullSlices sectionBeats (k * sliceBeats sectionBeats + sliceBeats sectionBeats) = k + 1 := by
  have htolerance := sliceTolerance_pos
  refine le_antisymm (not_lt.1 fun hk => ?_) ((lt_fullSlices h).2 ⟨?_, ?_⟩)
  · have hends := ((lt_fullSlices h).1 hk).2
    push_cast at hends
    linarith
  · linarith
  · linarith

/-- The seconds up to a beat inside a slice, or at its end. -/
theorem elapsed_within (h : 0 < sectionBeats) (k : ℕ) {x : Rat} (hx : sliceTolerance < x)
    (hend : x ≤ sliceBeats sectionBeats) :
    a.elapsed sectionBeats (k * sliceBeats sectionBeats + x) =
      a.through sectionBeats k + a.sliceTime sectionBeats (k * sliceBeats sectionBeats) x := by
  rcases hend.lt_or_eq with hless | rfl
  · have hfull := fullSlices_inside h k hx hless
    rw [elapsed_of_part a (by rw [hfull]; linarith), hfull, add_sub_cancel_left]
  · have hfull := fullSlices_end h k hx
    -- At its end the slice counts in full, and nothing of the next one does.
    have hnone : ¬ ((k + 1 : ℕ) : Rat) * sliceBeats sectionBeats <
        k * sliceBeats sectionBeats + sliceBeats sectionBeats - sliceTolerance := by
      have htolerance := sliceTolerance_pos
      push_cast
      linarith
    rw [elapsed_of_none a (by rwa [hfull]), hfull, through_succ]

/-! ## §3  From slice to slice -/

theorem fullSlices_mono (h : 0 < sectionBeats) {b₁ b₂ : Rat} (hle : b₁ ≤ b₂) :
    fullSlices sectionBeats b₁ ≤ fullSlices sectionBeats b₂ := by
  refine le_of_forall_lt fun i hi => ?_
  obtain ⟨hbegins, hends⟩ := (lt_fullSlices h).1 hi
  refine (lt_fullSlices h).2 ⟨?_, hends.trans hle⟩
  linarith

/-- Under a steady tempo a slice that is begun takes no longer than all of it. -/
theorem Steady.elapsed_le_through (hsteady : a.Steady sectionBeats) (h : 0 < sectionBeats)
    (beat : Rat) :
    a.elapsed sectionBeats beat ≤ a.through sectionBeats (fullSlices sectionBeats beat + 1) := by
  by_cases hleft :
      (fullSlices sectionBeats beat : Rat) * sliceBeats sectionBeats < beat - sliceTolerance
  · have hx : sliceTolerance < beat - fullSlices sectionBeats beat * sliceBeats sectionBeats := by
      linarith
    rw [elapsed_of_part a hleft, through_succ]
    exact add_le_add_right (hsteady.sliceTime_le a h _ hx (part_le h hleft) le_rfl) _
  · rw [elapsed_of_none a hleft]
    exact a.through_mono h (Nat.le_succ _)

/-- Under a steady tempo no beat of a slice comes before an earlier one. -/
theorem Steady.elapsed_le_of_same (hsteady : a.Steady sectionBeats) (h : 0 < sectionBeats)
    {b₁ b₂ : Rat} (hle : b₁ ≤ b₂) (hsame : fullSlices sectionBeats b₁ = fullSlices sectionBeats b₂) :
    a.elapsed sectionBeats b₁ ≤ a.elapsed sectionBeats b₂ := by
  by_cases hleft :
      (fullSlices sectionBeats b₁ : Rat) * sliceBeats sectionBeats < b₁ - sliceTolerance
  · have hleft₂ : (fullSlices sectionBeats b₂ : Rat) * sliceBeats sectionBeats <
        b₂ - sliceTolerance := by
      rw [← hsame]
      linarith
    rw [elapsed_of_part a hleft, elapsed_of_part a hleft₂, hsame]
    rw [hsame] at hleft
    refine add_le_add_right (hsteady.sliceTime_le a h _ ?_ (sub_le_sub_right hle _)
      (part_le h hleft₂)) _
    linarith
  · rw [elapsed_of_none a hleft, hsame]
    exact a.through_le_elapsed b₂

/-- Under a steady tempo no beat comes before an earlier one. -/
theorem Steady.elapsed_le (hsteady : a.Steady sectionBeats) (h : 0 < sectionBeats) {b₁ b₂ : Rat}
    (hle : b₁ ≤ b₂) : a.elapsed sectionBeats b₁ ≤ a.elapsed sectionBeats b₂ := by
  have hslices : fullSlices sectionBeats b₁ ≤ fullSlices sectionBeats b₂ := fullSlices_mono h hle
  rcases hslices.eq_or_lt with heq | hlt
  · exact hsteady.elapsed_le_of_same a h hle heq
  · -- The later beat lies beyond the slice that the earlier one lies in.
    calc a.elapsed sectionBeats b₁
        ≤ a.through sectionBeats (fullSlices sectionBeats b₁ + 1) :=
          hsteady.elapsed_le_through a h b₁
      _ ≤ a.through sectionBeats (fullSlices sectionBeats b₂) := a.through_mono h hlt
      _ ≤ a.elapsed sectionBeats b₂ := a.through_le_elapsed b₂

/-- **Time runs forward just if the tempo is steady.** -/
theorem runsForward_iff (h : 0 < sectionBeats) :
    a.RunsForward sectionBeats ↔ a.Steady sectionBeats := by
  have hslice := sliceBeats_pos h
  constructor
  · intro hforward k _ x y hx hxy hy
    -- Two beats of one slice share the full slices before, so the parts of it compare alone.
    have hstart : 0 ≤ k * sliceBeats sectionBeats := mul_nonneg k.cast_nonneg (le_of_lt hslice)
    have hpos := sliceTolerance_pos.trans hx
    obtain ⟨t₁, t₂, ht₁, ht₂, hle⟩ := hforward (k * sliceBeats sectionBeats + x)
      (k * sliceBeats sectionBeats + y) (by linarith) (by linarith)
    rw [a.seconds_eq h (by linarith), a.elapsed_within h k hx (hxy.trans hy)] at ht₁
    rw [a.seconds_eq h (by linarith), a.elapsed_within h k (hx.trans_le hxy) hy] at ht₂
    rw [← Except.ok.inj ht₁, ← Except.ok.inj ht₂] at hle
    exact (a.sliceTime_le_iff).1 (le_of_add_le_add_left hle)
  · intro hsteady b₁ b₂ hb₁ hle
    exact ⟨_, _, a.seconds_eq h hb₁, a.seconds_eq h (hb₁.trans hle), hsteady.elapsed_le a h hle⟩

/-! ## §4  Straight ramps -/

/-- The tempo on a straight ramp between tempos that need no raising. -/
theorem tempo_straight (hpoints : a.points = []) (hcurve : a.curve = "linear") (hstart : 1 ≤ a.start)
    (hfinish : 1 ≤ a.finish) {t : Rat} (h₀ : 0 ≤ t) (h₁ : t ≤ 1) :
    a.tempo t = a.start + t * (a.finish - a.start) := by
  have hvalue : a.value t = .ok (a.start + t * (a.finish - a.start)) := by
    unfold value
    rw [hpoints, hcurve]
    rfl
  have hleast : 1 ≤ a.start + t * (a.finish - a.start) := by
    nlinarith
  rw [a.tempo_of_value hvalue]
  exact max_eq_right hleast

omit [Elementary] in
/-- Inside the section everything is sampled where it is. -/
theorem sampledAt_inside (h : 0 < sectionBeats) {k : ℕ} (hk : k < sliceCount) {x : Rat}
    (hx : x ≤ sliceBeats sectionBeats) :
    sampledAt sectionBeats (k * sliceBeats sectionBeats) x = k / 64 + x / (2 * sectionBeats) ∧
      k / 64 + x / (2 * sectionBeats) ≤ 1 := by
  have hcount : (k : Rat) ≤ 63 := by
    exact_mod_cast Nat.le_of_lt_succ hk
  have hplace : (k * sliceBeats sectionBeats + x / 2) / sectionBeats =
      k / 64 + x / (2 * sectionBeats) := by
    unfold sliceBeats
    field_simp
  have hshare : x / (2 * sectionBeats) ≤ 1 / 128 := by
    rw [div_le_iff₀ (by linarith)]
    unfold sliceBeats at hx
    linarith
  have hinside : k / 64 + x / (2 * sectionBeats) ≤ 1 := by
    linarith
  refine ⟨?_, hinside⟩
  unfold sampledAt
  rw [hplace]
  exact min_eq_right hinside

/-- A straight ramp is steady, up or down. -/
theorem steady_of_straight (hpoints : a.points = []) (hcurve : a.curve = "linear")
    (hstart : 1 ≤ a.start) (hfinish : 1 ≤ a.finish) (h : 0 < sectionBeats) :
    a.Steady sectionBeats := by
  intro k hk x y hx hxy hy
  have hpos := sliceTolerance_pos.trans hx
  have hshare (z : Rat) (hz : 0 ≤ z) : 0 ≤ (k : Rat) / 64 + z / (2 * sectionBeats) := by
    positivity
  obtain ⟨hatx, hlex⟩ := sampledAt_inside h hk (hxy.trans hy)
  obtain ⟨haty, hley⟩ := sampledAt_inside h hk hy
  unfold partTempo
  rw [hatx, haty,
    a.tempo_straight hpoints hcurve hstart hfinish (hshare x (le_of_lt hpos)) hlex,
    a.tempo_straight hpoints hcurve hstart hfinish (hshare y (le_of_lt (hpos.trans_le hxy))) hley]
  -- What is gained is the tempo at the start of the slice, times the beats between the two.
  have hcount : (k : Rat) ≤ 63 := by
    exact_mod_cast Nat.le_of_lt_succ hk
  have hk₀ : (0 : Rat) ≤ k := k.cast_nonneg
  have htempo : 0 ≤ a.start + k / 64 * (a.finish - a.start) := by
    nlinarith
  have hgain := mul_nonneg (sub_nonneg.2 hxy) htempo
  have hdifference : y * (a.start + (k / 64 + x / (2 * sectionBeats)) * (a.finish - a.start)) -
      x * (a.start + (k / 64 + y / (2 * sectionBeats)) * (a.finish - a.start)) =
        (y - x) * (a.start + k / 64 * (a.finish - a.start)) := by
    ring
  linarith

end Partitura.Automation

namespace Partitura

variable [Elementary]

/-! ## §5  Compiled notes -/

/-- Under a steady tempo a note that has a duration lasts. -/
theorem Occurrence.timeNote_nonneg {o : Occurrence Rat} {a : Automation Rat}
    (htempo : o.body.automation.lookup AutomationPath.tempoPath = some a) (hsteady : a.Steady o.beats)
    {n : PlayedNote Rat} (hbeat : 0 ≤ n.beat) (hduration : 0 < n.duration)
    {timed : TimedNote Rat} (h : o.timeNote n = .ok timed) : 0 ≤ timed.seconds := by
  have hlookup (beat : Rat) : o.secondsAt beat = a.seconds o.beats beat := by
    unfold Occurrence.secondsAt Section.secondsAt
    rw [htempo]
  obtain ⟨time, htime, h⟩ := Outcome.bind_ok h
  obtain ⟨finish, hfinish, h⟩ := Outcome.bind_ok h
  rw [hlookup] at htime hfinish
  have hseconds : timed.seconds = finish - time := by
    rw [← Outcome.pure_ok h]
  rw [hseconds, sub_nonneg]
  rcases le_or_gt o.beats 0 with hnone | hsome
  · -- In a section without beats every time is zero.
    rw [a.seconds_of_nonpos hnone] at htime hfinish
    rw [← Except.ok.inj htime, ← Except.ok.inj hfinish]
  · obtain ⟨t₁, t₂, ht₁, ht₂, hle⟩ := (a.runsForward_iff hsome).2 hsteady n.beat
      (n.beat + n.duration) hbeat (le_add_of_nonneg_right (le_of_lt hduration))
    rw [Except.ok.inj (htime.symm.trans ht₁), Except.ok.inj (hfinish.symm.trans ht₂)]
    exact hle

/-- **Time runs forward just under a steady tempo.** In a section whose tempo moves, no beat comes
before an earlier one if and only if the tempo is steady; and then every compiled note with a
duration lasts. -/
theorem forward_iff_steady :
    (∀ (a : Automation Rat) (sectionBeats : Rat), 0 < sectionBeats →
      (a.RunsForward sectionBeats ↔ a.Steady sectionBeats)) ∧
    ∀ (s : Score Rat) (o : CompileOptions Rat) (c : Compilation Rat), s.compile o = .ok c →
      ∀ x ∈ c.sections, ∀ a,
        x.occurrence.body.automation.lookup AutomationPath.tempoPath = some a →
        a.Steady x.occurrence.beats →
        ∀ n ∈ x.notes, 0 < n.note.duration → 0 ≤ n.seconds := by
  refine ⟨fun a sectionBeats h => a.runsForward_iff h, ?_⟩
  intro s o c hcompile x hx a htempo hsteady n hn hduration
  have hcompiled := Occurrence.compile_yields (Score.yields_of_mem hcompile hx)
  have hbeat : 0 ≤ n.note.beat := hcompiled.inTrackOrder.beat_nonneg (List.mem_map_of_mem hn)
  exact Occurrence.timeNote_nonneg htempo hsteady hbeat hduration (hcompiled.timed n hn)

/-- A bar at a tempo that climbs from 60 to 120, with two notes. -/
def climbing : Score Rat :=
  { Score.simple [("piano", ["C4:h", "E4:h"])] 1 100 "C major" with
    sections :=
      [("main",
        { bars := 1
          tracks := [("piano", { patterns := ["piano"] })]
          automation := [("tempo", { start := 60, finish := 120 })] })] }

/-- Whether a section climbs over four beats and has a note with a duration. -/
def climbs (x : CompiledSection Rat) : Bool :=
  match x.occurrence.body.automation.lookup AutomationPath.tempoPath with
  | some a =>
    a.points.isEmpty && a.curve = "linear" && a.start = 60 && a.finish = 120 &&
      x.occurrence.beats = 4 && x.notes.any fun n => decide (0 < n.note.duration)
  | none => false

set_option maxRecDepth 10000 in
omit [Elementary] in
theorem climbing_climbs :
    letI := Elementary.coarse
    (climbing.compile {}).toOption.any (fun c => c.sections.any climbs) = true := by
  decide +kernel

omit [Elementary] in
/-- The theorem at work: over a bar that climbs, time runs forward, and a note of it lasts. -/
theorem forward_climbing : ∃ _ : Elementary, ∃ (c : Compilation Rat) (a : Automation Rat),
    climbing.compile {} = .ok c ∧ a.RunsForward 4 ∧
      ∃ x ∈ c.sections, ∃ n ∈ x.notes, 0 < n.note.duration ∧ 0 ≤ n.seconds := by
  let _ := Elementary.coarse
  obtain ⟨c, hc, hclimbs⟩ := Outcome.exists_of_any climbing_climbs
  obtain ⟨x, hx, hclimbs⟩ := List.any_eq_true.1 hclimbs
  unfold climbs at hclimbs
  split at hclimbs
  · next a htempo =>
      simp only [Bool.and_eq_true, decide_eq_true_eq, List.isEmpty_iff, List.any_eq_true] at hclimbs
      obtain ⟨⟨⟨⟨⟨hpoints, hcurve⟩, hstart⟩, hfinish⟩, hbeats⟩, n, hn, hduration⟩ := hclimbs
      have hsteady : a.Steady 4 := a.steady_of_straight hpoints hcurve
        (by rw [hstart]; norm_num) (by rw [hfinish]; norm_num) (by norm_num)
      refine ⟨_, c, a, hc, (forward_iff_steady.1 a 4 (by norm_num)).2 hsteady, x, hx, n, hn,
        hduration, ?_⟩
      exact forward_iff_steady.2 climbing {} c hc x hx a htempo (hbeats ▸ hsteady) n hn hduration
  · cases hclimbs

/-! ## §6  A leap -/

namespace Automation

/-- A tempo that leaps from 60 to 240 in the middle of the first of 64 slices. -/
def leap : Automation Rat where
  start := 60
  finish := 240
  points := [⟨0, 60⟩, ⟨1 / 256, 60⟩, ⟨1 / 256, 240⟩, ⟨1, 240⟩]

theorem inOrder_leap : inOrder leap.points = leap.points := by
  refine inOrder_of_ascending ?_
  simp only [leap, List.pairwise_cons]
  norm_num

theorem tempo_leap_before : leap.tempo (1 / 256) = 60 := by
  have hvalue : leap.value (1 / 256) = .ok 60 := by
    unfold value throughPoints
    rw [inOrder_leap]
    simp only [leap]
    norm_num [inStretch?, between]
  rw [tempo_of_value leap hvalue]
  norm_num

theorem tempo_leap_after : leap.tempo (3 / 512) = 240 := by
  have hvalue : leap.value (3 / 512) = .ok 240 := by
    unfold value throughPoints
    rw [inOrder_leap]
    simp only [leap]
    norm_num [inStretch?, between]
  rw [tempo_of_value leap hvalue]
  norm_num

/-- The seconds up to a beat of the first slice. -/
theorem seconds_leap {x : Rat} (hx : sliceTolerance < x) (hslice : x ≤ 1) :
    leap.seconds 64 x = .ok (x * 60 / leap.tempo (x / 128)) := by
  have hpos := sliceTolerance_pos.trans hx
  have hbeats : (0 : Rat) < 64 := by
    norm_num
  have hwithin : leap.elapsed 64 (0 + x) = 0 + leap.sliceTime 64 0 x := by
    have h := leap.elapsed_within hbeats 0 hx (by unfold sliceBeats; linarith)
    rwa [Nat.cast_zero, zero_mul, through, Finset.range_zero, Finset.sum_empty] at h
  have hmiddle : sampledAt 64 0 x = x / 128 := by
    unfold sampledAt
    rw [min_eq_right] <;> linarith
  rw [leap.seconds_eq hbeats (le_of_lt hpos)]
  rw [zero_add, zero_add] at hwithin
  rw [hwithin, sliceTime, hmiddle]

omit [Elementary] in
/-- **Time can run backwards.** No tempo here is less than 60, and yet the beat at 3/4 comes before
the one at 1/2. -/
theorem leap_runs_backwards : ∃ _ : Elementary, (∀ p ∈ leap.points, 1 ≤ p.value) ∧
    leap.seconds 64 (1 / 2) = .ok (1 / 2) ∧ leap.seconds 64 (3 / 4) = .ok (3 / 16) ∧
    ¬ leap.RunsForward 64 := by
  let _ := Elementary.coarse
  have hearlier : leap.seconds 64 (1 / 2) = .ok (1 / 2) := by
    rw [seconds_leap (by unfold sliceTolerance; norm_num) (by norm_num),
      show (1 / 2 : Rat) / 128 = 1 / 256 from by norm_num, tempo_leap_before]
    norm_num
  have hlater : leap.seconds 64 (3 / 4) = .ok (3 / 16) := by
    rw [seconds_leap (by unfold sliceTolerance; norm_num) (by norm_num),
      show (3 / 4 : Rat) / 128 = 3 / 512 from by norm_num, tempo_leap_after]
    norm_num
  refine ⟨_, ?_, hearlier, hlater, fun hforward => ?_⟩
  · simp only [leap, List.forall_mem_cons]
    norm_num
  · obtain ⟨t₁, t₂, ht₁, ht₂, hle⟩ := hforward (1 / 2) (3 / 4) (by norm_num) (by norm_num)
    rw [hearlier] at ht₁
    rw [hlater] at ht₂
    rw [← Except.ok.inj ht₁, ← Except.ok.inj ht₂] at hle
    norm_num at hle

end Automation

end Partitura

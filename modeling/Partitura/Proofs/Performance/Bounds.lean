import Mathlib.Algebra.Order.Group.MinMax
import Mathlib.Tactic.Linarith
import Mathlib.Tactic.NormNum
import Mathlib.Tactic.Ring
import Partitura.Proofs.Performance
import Partitura.Proofs.Performance.Stopping
import Partitura.Proofs.Random.Chances

/-!
# How far a performance goes

Swing, groove and human variation each move a note by a bounded amount, and what is played stays within
the sum of the three (`Performance.plays_within`). A start is held at 0 twice on the way, once by human
variation and once when the note is played. That takes it no further from where it was, because no note
starts before 0.

Each stage has one lemma on what it yields, whatever is drawn: `applySwing_near`, `Groove.shift_near`,
`Humanize.timing_yields`, `Humanize.duration_yields`. `Performance.playNote_within` adds them up for a
note.

Beats are counted exactly.
-/

namespace Partitura

variable [Elementary]

/-! ## §1  Stages that know no chance -/

/-- Swing delays a note by a sixth of a beat at most. -/
theorem applySwing_near {beat amount swung : Rat} (hamount : 0 ≤ amount)
    (h : applySwing beat amount Performance.swungDivision = .ok swung) :
    |swung - beat| ≤ amount / 6 := by
  have hidle : |beat - beat| ≤ amount / 6 := by
    rw [sub_self, abs_zero]
    positivity
  unfold applySwing at h
  split at h
  · cases h
    exact hidle
  · obtain ⟨within, _, h⟩ := Outcome.bind_ok h
    obtain ⟨quotient, _, h⟩ := Outcome.bind_ok h
    obtain ⟨part, _, h⟩ := Outcome.bind_ok h
    cases h
    split
    · have hdelay : (Performance.swungDivision / 3.0 * amount : Rat) = amount / 6 := by
        unfold Performance.swungDivision
        norm_num
        ring
      rw [hdelay, add_sub_cancel_left, abs_of_nonneg (by positivity)]
    · exact hidle

namespace Groove

omit [Elementary] in
theorem cyclic_mem {α : Type} [Scalar α] {xs : List α} {i : Int} {x : α} (h : cyclic xs i = .ok x) :
    x ∈ xs := by
  unfold cyclic at h
  split at h
  · cases h
  · next hempty =>
      cases h
      have hlength : 0 < xs.length := List.length_pos_iff.2 (by simpa using hempty)
      have hplace : (i % (xs.length : Int)).toNat < xs.length := by
        have hlt := Int.emod_lt_of_pos i (Int.natCast_pos.2 hlength)
        omega
      rw [List.getD_eq_getElem?_getD, List.getElem?_eq_getElem hplace]
      exact List.getElem_mem hplace

/-- The beats by which a groove moves a note at most. -/
def reach (g : Groove Rat) : Rat :=
  (g.offsets.map abs).foldr max 0

omit [Elementary] in
theorem reach_nonneg (g : Groove Rat) : 0 ≤ g.reach := by
  unfold reach
  induction g.offsets with
  | nil => exact le_rfl
  | cons offset offsets ih => exact le_max_of_le_right ih

omit [Elementary] in
theorem abs_le_reach {g : Groove Rat} {offset : Rat} (h : offset ∈ g.offsets) :
    |offset| ≤ g.reach := by
  unfold reach
  generalize g.offsets = offsets at h
  induction offsets with
  | nil => cases h
  | cons x offsets ih =>
      rcases List.mem_cons.1 h with rfl | h
      · exact le_max_left _ _
      · exact le_max_of_le_right (ih h)

theorem shift_near {g : Groove Rat} {beat velocity : Rat} {shifted : Rat × Rat}
    (h : g.shift beat velocity = .ok shifted) : |shifted.1 - beat| ≤ g.reach := by
  unfold shift at h
  obtain ⟨slot, _, h⟩ := Outcome.bind_ok h
  obtain ⟨offset, hoffset, h⟩ := Outcome.bind_ok h
  obtain ⟨factor, _, h⟩ := Outcome.bind_ok h
  have hmoved : shifted.1 = beat + offset := by
    cases factor with
    | some f => cases h; rfl
    | none => cases h; rfl
  rw [hmoved, add_sub_cancel_left]
  exact abs_le_reach (cyclic_mem hoffset)

end Groove

/-! ## §2  Human variation -/

theorem Draw.abs_uniform_le {x : Rat} (h : (Draw.uniform (-1.0) 1.0 : Draw Rat).Yields x) : |x| ≤ 1 := by
  obtain ⟨roll, hroll, h⟩ := h.of_bind
  cases h.of_pure
  obtain ⟨high, low, rfl⟩ := Draw.unit_yields hroll
  have hlow := Chances.zero_le_unitOf (α := Rat) high low
  have hhigh := Chances.unitOf_lt_one (α := Rat) high low
  rw [abs_le]
  norm_num at hlow hhigh ⊢
  constructor
  · linarith
  · linarith

namespace Humanize

variable {amount : Rat}

theorem deviation_yields {spread deviated : Rat} (hspread : 0 ≤ spread)
    (h : (deviation spread amount).Yields deviated) : |deviated| ≤ spread * |amount| := by
  obtain ⟨x, hx, h⟩ := h.of_bind
  cases h.of_pure
  calc |x * spread * amount| = |x| * (spread * |amount|) := by
        rw [abs_mul, abs_mul, abs_of_nonneg hspread, mul_assoc]
    _ ≤ 1 * (spread * |amount|) :=
        mul_le_mul_of_nonneg_right (Draw.abs_uniform_le hx) (mul_nonneg hspread (abs_nonneg _))
    _ = spread * |amount| := one_mul _

/-- A start after human variation by an amount: it moves by a twentieth of a beat for an amount of 1. Only
what is left of it from 0 on is told, because that is where it is held in the end. -/
def Nudged (amount original start : Rat) : Prop :=
  ∃ deviated, |deviated| ≤ |amount| / 20 ∧ max 0 start = max 0 (original + deviated)

omit [Elementary] in
theorem Nudged.refl (amount original : Rat) : Nudged amount original original := by
  refine ⟨0, ?_, by rw [add_zero]⟩
  rw [abs_zero]
  positivity

theorem timing_yields {beat moved : Rat} (h : (timing beat amount).Yields moved) :
    Nudged amount beat moved := by
  unfold timing at h
  split at h
  · cases h.of_pure
    exact .refl amount beat
  · obtain ⟨deviated, hdeviated, h⟩ := h.of_bind
    cases h.of_pure
    refine ⟨deviated, ?_, ?_⟩
    · have hle := deviation_yields (by unfold timingSpread; norm_num) hdeviated
      unfold timingSpread at hle
      norm_num at hle
      linarith
    · rw [Exact.max_eq, Exact.start_eq, ← max_assoc, max_self]

/-- A duration after human variation by an amount. -/
structure Lasts (amount original duration : Rat) : Prop where
  pos : 0 < duration
  kept : amount = 0 → duration = original
  near : duration = 1 / 100 ∨ |duration - original| ≤ |amount| / 20 * original

omit [Elementary] in
theorem Lasts.refl {original : Rat} (h : 0 < original) : Lasts amount original original where
  pos := h
  kept _ := rfl
  near := by
    rw [sub_self, abs_zero]
    exact .inr (by positivity)

theorem duration_yields {original lasting : Rat} (hpos : 0 < original)
    (h : (duration original amount).Yields lasting) : Lasts amount original lasting := by
  unfold duration at h
  split at h
  · cases h.of_pure
    exact .refl hpos
  · next hamount =>
      obtain ⟨deviated, hdeviated, h⟩ := h.of_bind
      cases h.of_pure
      have hle := deviation_yields (by unfold durationSpread; norm_num) hdeviated
      have hmin : (minDuration : Rat) = 1 / 100 := by
        unfold minDuration
        norm_num
      have hstretched : original * (1.0 + deviated) = original + deviated * original := by
        norm_num
        ring
      rw [Exact.max_eq, hmin, hstretched]
      refine ⟨lt_max_of_lt_left (by norm_num), fun hzero => absurd (beq_iff_eq.2 hzero) hamount, ?_⟩
      rcases max_choice (1 / 100) (original + deviated * original) with hmax | hmax
      · exact .inl hmax
      · right
        rw [hmax, add_sub_cancel_left, abs_mul, abs_of_pos hpos]
        refine mul_le_mul_of_nonneg_right ?_ hpos.le
        unfold durationSpread at hle
        norm_num at hle
        linarith

end Humanize

namespace Performance

variable {p : Performance Rat} {groove : Option (Groove Rat)} {instrument : String} {swing : Rat}

/-! ## §3  One note -/

/-- The beats by which the groove of a performance moves a note at most. A name that no groove has moves
nothing. -/
def reach (p : Performance Rat) : Rat :=
  match Groove.ofValue p.groove with
  | .ok g => g.reach
  | .error _ => 0

theorem reach_nonneg (p : Performance Rat) : 0 ≤ p.reach := by
  unfold reach
  split
  · exact Groove.reach_nonneg _
  · exact le_rfl

/-- The groove in which a performance plays, if it plays in any, is the one that it names. -/
def Names (p : Performance Rat) (groove : Option (Groove Rat)) : Prop :=
  ∀ g ∈ groove, Groove.ofValue p.groove = .ok g

theorem inGroove_near {beat velocity : Rat} {shifted : Rat × Rat} (hgroove : p.Names groove)
    (h : inGroove groove beat velocity = .ok shifted) : |shifted.1 - beat| ≤ p.reach := by
  cases groove with
  | none =>
      cases h
      rw [sub_self, abs_zero]
      exact p.reach_nonneg
  | some g =>
      have hreach : p.reach = g.reach := by
        unfold reach
        rw [hgroove g rfl]
      rw [hreach]
      exact Groove.shift_near h

/-- Human variation changes the start of a note and its duration on their own. -/
theorem humanized_yields {amount beat velocity duration : Rat} {beat' velocity' duration' : Rat}
    (hduration : 0 < duration)
    (h : (humanized amount beat velocity duration).Yields (beat', velocity', duration')) :
    Humanize.Nudged amount beat beat' ∧ Humanize.Lasts amount duration duration' := by
  unfold humanized at h
  split at h
  · cases h.of_pure
    exact ⟨.refl amount beat, .refl hduration⟩
  · obtain ⟨moved, hmoved, h⟩ := h.of_bind
    obtain ⟨loud, _, h⟩ := h.of_bind
    obtain ⟨lasting, hlasting, h⟩ := h.of_bind
    cases h.of_pure
    exact ⟨Humanize.timing_yields hmoved, Humanize.duration_yields hduration hlasting⟩

/-- A note as a performance plays it, no further from what was written than the stages can take it. -/
structure PlaysWithin (p : Performance Rat) (instrument : String) (swing : Rat) (n : Note Rat)
    (played : PlayedNote Rat) : Prop extends Performs instrument n played where
  beat_nonneg : 0 ≤ played.beat
  beat_near : |played.beat - n.start| ≤ swing / 6 + p.reach + |p.humanize| / 20
  velocity_nonneg : 0 ≤ played.velocity
  velocity_le_one : played.velocity ≤ 1
  lasts : Humanize.Lasts p.humanize n.duration played.duration

theorem playNote_within {n : Note Rat} {played : PlayedNote Rat} (hswing : 0 ≤ swing)
    (hstart : 0 ≤ n.start) (hduration : 0 < n.duration) (hgroove : p.Names groove)
    (h : (p.playNote groove instrument swing n).Yields played) :
    PlaysWithin p instrument swing n played := by
  have hperforms := playNote_yields h
  unfold playNote at h
  obtain ⟨swung, hswung, h⟩ := h.of_bind
  obtain ⟨⟨beat, velocity⟩, hshifted, h⟩ := h.of_bind
  obtain ⟨⟨beat', velocity', duration⟩, hhuman, h⟩ := h.of_bind
  obtain ⟨velocity'', _, h⟩ := h.of_bind
  cases h.of_pure
  obtain ⟨⟨deviated, hdeviated, hbeat⟩, hlasts⟩ := humanized_yields hduration hhuman
  have hone : (1.0 : Rat) = 1 := by norm_num
  refine
    { toPerforms := hperforms
      beat_nonneg := ?_
      beat_near := ?_
      velocity_nonneg := ?_
      velocity_le_one := ?_
      lasts := hlasts }
  · dsimp only
    rw [Exact.max_eq, Exact.start_eq]
    exact le_max_left _ _
  · have hnear := applySwing_near hswing hswung.of_lift
    have hmoved := inGroove_near hgroove hshifted.of_lift
    dsimp only at hmoved ⊢
    rw [Exact.max_eq, Exact.start_eq, hbeat]
    calc |max 0 (beat + deviated) - n.start|
        = |max (beat + deviated) 0 - max n.start 0| := by rw [max_comm, max_eq_left hstart]
      _ ≤ |beat + deviated - n.start| := abs_max_sub_max_le_abs _ _ _
      _ = |(swung - n.start) + (beat - swung) + deviated| := by ring_nf
      _ ≤ |swung - n.start| + |beat - swung| + |deviated| := abs_add_three _ _ _
      _ ≤ swing / 6 + p.reach + |p.humanize| / 20 :=
          add_le_add (add_le_add hnear hmoved) hdeviated
  · dsimp only
    rw [Exact.min_eq, Exact.max_eq, Exact.start_eq, hone]
    exact le_min zero_le_one (le_max_left _ _)
  · dsimp only
    rw [Exact.min_eq, hone]
    exact min_le_left _ _

omit [Elementary] in
/-- A note without a probability always sounds in a section without a density. -/
theorem sounds_of_none {α : Type} [Scalar α] {sectionBeats : α} {n : Note α} (h : n.probability = none) :
    sounds none sectionBeats n = pure true := by
  unfold sounds
  rw [h]

/-- A note is sure to sound. -/
def sure (density : Option (DensityCurve Rat)) (n : Note Rat) : Bool :=
  density.isNone && n.probability.isNone

theorem playNote?_within {density : Option (DensityCurve Rat)} {sectionBeats : Rat} {n : Note Rat}
    {o : Option (PlayedNote Rat)} (hswing : 0 ≤ swing) (hstart : 0 ≤ n.start)
    (hduration : 0 < n.duration) (hgroove : p.Names groove)
    (h : (p.playNote? groove instrument sectionBeats swing density n).Yields o) :
    (∀ played ∈ o, PlaysWithin p instrument swing n played) ∧
      (sure density n = true → o.isSome = true) := by
  unfold playNote? at h
  obtain ⟨heard, hheard, h⟩ := h.of_bind
  cases heard with
  | true =>
      obtain ⟨played, hplayed, rfl⟩ := h.of_map
      refine ⟨?_, fun _ => rfl⟩
      rintro _ ⟨⟩
      exact playNote_within hswing hstart hduration hgroove hplayed
  | false =>
      cases h.of_pure
      refine ⟨nofun, fun hsure => ?_⟩
      obtain ⟨hdensity, hprobability⟩ := Bool.and_eq_true_iff.1 hsure
      rw [Option.isNone_iff_eq_none] at hdensity hprobability
      rw [hdensity, sounds_of_none hprobability] at hheard
      cases hheard.of_pure

/-! ## §4  A whole performance -/

theorem begins_eq (sectionBeats : Rat) :
    begins sectionBeats = fun n : Note Rat => decide (n.start < sectionBeats) := by
  funext n
  unfold begins
  rw [← decide_not, decide_eq_decide]
  exact not_le

/-- Notes that begin after the end of a section might as well not be there. -/
theorem play_filter (p : Performance Rat) (instrument : String) (sectionBeats swing : Rat)
    (density : Option (DensityCurve Rat)) (notes : List (Note Rat)) :
    p.play instrument sectionBeats swing density (notes.filter fun n => n.start < sectionBeats) =
      p.play instrument sectionBeats swing density notes := by
  unfold play
  rw [← begins_eq, List.filter_filter]
  simp only [Bool.and_self]

/-- What is played of notes comes in order from those that begin in the section. -/
theorem play_within {sectionBeats : Rat} {density : Option (DensityCurve Rat)} {notes : List (Note Rat)}
    {played : List (PlayedNote Rat)} (hswing : 0 ≤ swing)
    (hnotes : ∀ n ∈ notes, 0 ≤ n.start ∧ 0 < n.duration)
    (h : (p.play instrument sectionBeats swing density notes).Yields played) :
    ∃ kept, ((notes.filter fun n => n.start < sectionBeats).filter (sure density)).Sublist kept ∧
      kept.Sublist (notes.filter fun n => n.start < sectionBeats) ∧
      List.Forall₂ (PlaysWithin p instrument swing) kept played := by
  unfold play at h
  obtain ⟨groove, hgroove, h⟩ := h.of_bind
  obtain ⟨sounding, hsounding, h⟩ := h.of_bind
  cases h.of_pure
  rw [begins_eq] at hsounding
  have hnames : p.Names groove := by
    rintro g rfl
    exact Run.yields_named? hgroove
  have hyields := hsounding.of_draw.of_mapM
  refine exists_kept_of_filterMap ?_
  refine ((List.forall₂_and_left _ _).2 ⟨fun n hn => hnotes n (List.mem_of_mem_filter hn), hyields⟩).imp ?_
  rintro n o ⟨⟨hstart, hduration⟩, ho⟩
  exact playNote?_within hswing hstart hduration hnames ho

/-- **A performance stays within its bounds.** Notes that start at 0 or later and take time can always be
played, unless the name of the groove is nothing that can be looked up. What is played comes in order from
the notes that begin in the section, and from all of those if no chance is taken. None of it goes further
than swing, groove and human variation take it, each by its greatest amount, and notes that begin after
the end change neither what is played nor what is left of the stream. -/
theorem plays_within (p : Performance Rat) (hkey : p.groove.isKey = true) (instrument : String)
    (sectionBeats : Rat) {swing : Rat} (hswing : 0 ≤ swing) (density : Option (DensityCurve Rat))
    {notes : List (Note Rat)} (hnotes : ∀ n ∈ notes, 0 ≤ n.start ∧ 0 < n.duration) (s : Session) :
    ∃ played s', p.play instrument sectionBeats swing density notes s = .ok (played, s') ∧
      p.play instrument sectionBeats swing density (notes.filter fun n => n.start < sectionBeats) s =
        .ok (played, s') ∧
      ∃ kept, kept.Sublist (notes.filter fun n => n.start < sectionBeats) ∧
        (density = none → (∀ n ∈ notes, n.probability = none) →
          kept = notes.filter fun n => n.start < sectionBeats) ∧
        List.Forall₂ (PlaysWithin p instrument swing) kept played := by
  obtain ⟨⟨played, s'⟩, hplayed⟩ := p.exists_play hkey instrument sectionBeats swing density notes s
  obtain ⟨kept, hsure, hkept, hwithin⟩ := play_within hswing hnotes ⟨s, s', hplayed⟩
  refine ⟨played, s', hplayed, ?_, kept, hkept, ?_, hwithin⟩
  · rw [play_filter]
    exact hplayed
  · intro hdensity hprobability
    rw [List.filter_eq_self.2] at hsure
    · exact hkept.antisymm hsure
    · intro n hn
      unfold sure
      rw [hdensity, hprobability n (List.mem_of_mem_filter hn)]
      rfl

/-- A loose performance, in a groove whose notes are up to nine hundredths of a beat late. -/
def loose : Performance Rat :=
  { humanize := 1 / 10, groove := .text "dilla", velocityVariance := 1 / 10 }

/-- A note on the beat, one off it, and one that begins after four beats. -/
def bar : List (Note Rat) :=
  [{ pitch := "C4", start := 0, duration := 1, velocity := 4 / 5 },
   { pitch := "D4", start := 1 / 2, duration := 1, velocity := 4 / 5 },
   { pitch := "E4", start := 4, duration := 1, velocity := 4 / 5 }]

omit [Elementary] in
/-- The theorem at work: the first note would come early and is held at 0, and the second one is swung,
then taken forward by the groove and by human variation. -/
theorem loose_within : ∃ (_ : Elementary) (s s' : Session) (played : List (PlayedNote Rat)),
    loose.groove.isKey = true ∧ (0 : Rat) ≤ 1 / 2 ∧ (∀ n ∈ bar, 0 ≤ n.start ∧ 0 < n.duration) ∧
      loose.play "piano" 4 (1 / 2) none bar s = .ok (played, s') ∧ loose.reach = 9 / 100 ∧
      played.map (·.beat) = [0, 1 / 2 + 1 / 12 - 1 / 50 - 1 / 200] ∧
      List.Forall₂ (PlaysWithin loose "piano" (1 / 2)) (bar.filter fun n => n.start < 4) played := by
  let _ : Elementary := .coarse
  -- All draws from this stream are 0, which is the earliest a note can come.
  let s : Session := { stream := ⟨#[], 0⟩ }
  have hswing : (0 : Rat) ≤ 1 / 2 := by norm_num
  have hbar : ∀ n ∈ bar, 0 ≤ n.start ∧ 0 < n.duration := by decide +kernel
  obtain ⟨played, s', hplayed, _, kept, _, hall, hwithin⟩ :=
    loose.plays_within rfl "piano" 4 hswing none hbar s
  have hkept : kept = bar.filter fun n => n.start < 4 := hall rfl (by decide +kernel)
  have hbeats : ((loose.play "piano" 4 (1 / 2) none bar s).toOption.map fun r => r.1.map (·.beat)) =
      some [0, 1 / 2 + 1 / 12 - 1 / 50 - 1 / 200] := by decide +kernel
  rw [hplayed] at hbeats
  have hreach : loose.reach = 9 / 100 := by decide +kernel
  exact ⟨inferInstance, s, s', played, rfl, hswing, hbar, hplayed, hreach, Option.some.inj hbeats,
    hkept ▸ hwithin⟩

end Performance

end Partitura

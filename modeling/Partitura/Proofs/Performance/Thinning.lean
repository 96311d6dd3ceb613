import Partitura.Proofs.Determined
import Partitura.Proofs.Performance
import Partitura.Proofs.Performance.Stopping
import Partitura.Proofs.Random.Chances

/-!
# Raising the density only adds notes

The same notes are played twice from the same session, the second time in a section that is at least as
dense at every position. What is heard the first time is heard the second time, in the same order, and
nothing about it differs (`Thinning.only_adds`).

Two runs could come apart at the first note that sounds in only one of them. They do not: a note takes
one draw whether it sounds or not, and once it does, a performance without human variation draws nothing
more (`Performance.Even.drawless_playNote`). So both runs weigh every note against the same draw, and the
one that goes on to play it does not run ahead on the stream.
-/

namespace Partitura

variable {α : Type} [Scalar α]

/-! ## §1  Densities -/

namespace DensityCurve

/-- At no position is a section denser than another. -/
def Below (d d' : DensityCurve α) : Prop :=
  ∀ position, ∃ level level', d.atPosition position = .ok level ∧
    d'.atPosition position = .ok level' ∧ level ≤ level'

/-- The density is the same at every position. -/
def Constantly (d : DensityCurve α) (level : α) : Prop :=
  ∀ position, d.atPosition position = .ok level

/-- The beats of a section that takes time stand at positions. -/
theorem atBeat_of_pos [Chances α] (d : DensityCurve α) (beat : α) {total : α} (h : 0 < total) :
    d.atBeat beat total = d.atPosition (beat / total) :=
  if_neg (Chances.not_le_of_lt h)

section Exact

variable [Elementary]

/-- At a position a density lies on the way from its start to its end, held between 0 and 1. -/
theorem exists_atPosition (d : DensityCurve Rat) (position : Rat) :
    ∃ part : Rat, d.atPosition position =
      .ok (max 0.0 (min 1.0 (d.start + (d.finish - d.start) * part))) := by
  obtain ⟨part, hpart⟩ := d.shape.ease_ok (Scalar.clamp 0.0 1.0 position)
  refine ⟨part, ?_⟩
  rw [← Exact.min_eq, ← Exact.max_eq]
  unfold atPosition Easing.interpolate
  rw [hpart]
  rfl

/-- A curve that ends where it starts stays there. -/
theorem constantly_of_level {d : DensityCurve Rat} (h : d.finish = d.start) :
    d.Constantly (max 0.0 (min 1.0 d.start)) := by
  intro position
  obtain ⟨part, hpart⟩ := d.exists_atPosition position
  rw [hpart, h, sub_self, zero_mul, add_zero]

/-- No section is denser than one of full density. -/
theorem below_of_one (d : DensityCurve Rat) {d' : DensityCurve Rat} (h : d'.Constantly 1.0) :
    d.Below d' := by
  intro position
  obtain ⟨part, hpart⟩ := d.exists_atPosition position
  exact ⟨_, _, hpart, h position, max_le (by norm_num) (min_le_left _ _)⟩

end Exact

end DensityCurve

/-! ## §2  One note -/

/-- A note has no probability of its own, or at least that of certainty. -/
def Note.certain (n : Note α) : Bool :=
  n.probability.all fun q => decide (1.0 ≤ q)

theorem Note.one_le_of_certain {n : Note α} (h : n.certain = true) :
    ∀ q ∈ n.probability, 1.0 ≤ q :=
  fun q hq => of_decide_eq_true ((Option.all_eq_true _ _).1 h q hq)

namespace Performance

variable {p : Performance α} {groove : Option (Groove α)} {instrument : String}
  {sectionBeats swing : α} {d d' : DensityCurve α} {n : Note α}

/-- A note that sounds is played in one way, whatever the stream, and leaves the stream as it is. -/
def Plays (p : Performance α) (groove : Option (Groove α)) (instrument : String) (swing : α)
    (n : Note α) (played : PlayedNote α) : Prop :=
  ∀ t, (p.playNote groove instrument swing n).outcome t = .ok (played, t)

theorem Even.drawless_playNote (h : p.Even) (groove : Option (Groove α)) (instrument : String)
    (swing : α) (n : Note α) : (p.playNote groove instrument swing n).Drawless := by
  refine (Draw.Drawless.lift _).bind fun swung => (Draw.Drawless.lift _).bind fun placed => ?_
  refine Draw.Drawless.bind ?_ fun shaped => Draw.Drawless.bind ?_ fun velocity => .pure _
  · unfold humanized
    rw [if_pos h.humanize]
    exact .pure _
  · unfold varied
    rw [if_pos h.variance]
    exact .pure _

section Chance

variable [Chances α]

/-- A note that is heard at a density is heard at a higher one, by the same draw. -/
theorem follows_sounds (hbelow : d.Below d') (hbeats : 0 < sectionBeats)
    (hchance : ∀ q ∈ n.probability, 0.0 ≤ q) :
    Draw.Follows (fun heard heard' => heard = true → heard' = true)
      (sounds (some d) sectionBeats n) (sounds (some d') sectionBeats n) := by
  have hlevels : Draw.Follows (fun level level' : α => level ≤ level')
      (liftM (d.atBeat n.start sectionBeats) : Draw α) (liftM (d'.atBeat n.start sectionBeats)) := by
    refine .lift fun y hy => ?_
    obtain ⟨level, level', hlevel, hlevel', hle⟩ := hbelow (n.start / sectionBeats)
    rw [DensityCurve.atBeat_of_pos _ _ hbeats, hlevel'] at hy
    cases hy
    exact ⟨level, by rw [DensityCurve.atBeat_of_pos _ _ hbeats, hlevel], hle⟩
  refine hlevels.bind fun level level' hle => (Draw.Follows.refl (fun _ => rfl) Draw.unit).bind
    fun roll _ heq => ?_
  subst heq
  exact .pure (Chances.shouldPlay_of_le hchance hle)

/-- A note that is heard has been weighed against the density at its beat and a draw. -/
theorem sounds_yields {heard : Bool} {level : α} (hlevel : d.Constantly level)
    (hbeats : 0 < sectionBeats) (h : (sounds (some d) sectionBeats n).Yields heard) :
    ∃ high low, heard = shouldPlay n.probability level (Draw.unitOf high low) := by
  obtain ⟨level', hlevel', h⟩ := h.of_bind
  have hat := hlevel'.of_lift
  rw [DensityCurve.atBeat_of_pos _ _ hbeats, hlevel] at hat
  cases hat
  obtain ⟨roll, hroll, h⟩ := h.of_bind
  obtain ⟨high, low, rfl⟩ := Draw.unit_yields hroll
  exact ⟨high, low, h.of_pure.symm⟩

/-- What is played of a note at a density is played of it at a higher one. -/
theorem Even.follows_playNote? (h : p.Even) (groove : Option (Groove α)) (instrument : String)
    (swing : α) (hbelow : d.Below d') (hbeats : 0 < sectionBeats)
    (hchance : ∀ q ∈ n.probability, 0.0 ≤ q) :
    Draw.Follows (fun o o' => ∀ x, o = some x → o' = some x)
      (p.playNote? groove instrument sectionBeats swing (some d) n)
      (p.playNote? groove instrument sectionBeats swing (some d') n) := by
  refine (follows_sounds hbelow hbeats hchance).bind fun heard heard' hheard => ?_
  cases heard with
  | true =>
      -- The note is heard both times, and played alike.
      rw [hheard rfl]
      exact .refl (fun _ _ => id) _
  | false =>
      cases heard' with
      | true =>
          -- Only the second run plays the note, which takes nothing more of the stream.
          exact .pure_left ((h.drawless_playNote groove instrument swing n).map some) fun _ => nofun
      | false => exact .pure nofun

theorem playNote?_zero (hzero : d.Constantly 0.0) (hbeats : 0 < sectionBeats)
    (hchance : ∀ q ∈ n.probability, 0.0 ≤ q) {o : Option (PlayedNote α)}
    (h : (p.playNote? groove instrument sectionBeats swing (some d) n).Yields o) : o = none := by
  obtain ⟨heard, hheard, h⟩ := h.of_bind
  obtain ⟨high, low, rfl⟩ := sounds_yields hzero hbeats hheard
  rw [Chances.shouldPlay_zero hchance] at h
  exact h.of_pure.symm

theorem Even.playNote?_one (heven : p.Even) (hone : d.Constantly 1.0) (hbeats : 0 < sectionBeats)
    {o : Option (PlayedNote α)}
    (h : (p.playNote? groove instrument sectionBeats swing (some d) n).Yields o) :
    (∀ x ∈ o, p.Plays groove instrument swing n x) ∧
      (n.certain = true → o.isSome = true) := by
  obtain ⟨heard, hheard, h⟩ := h.of_bind
  obtain ⟨high, low, hroll⟩ := sounds_yields hone hbeats hheard
  cases heard with
  | true =>
      obtain ⟨x, ⟨t, t', hx⟩, rfl⟩ := h.of_map
      obtain ⟨_, hplays⟩ := (heven.drawless_playNote groove instrument swing n).of_ok hx
      refine ⟨?_, fun _ => rfl⟩
      rintro _ ⟨⟩
      exact hplays
  | false =>
      cases h.of_pure
      refine ⟨nofun, fun hcertain => ?_⟩
      rw [Chances.shouldPlay_one (Note.one_le_of_certain hcertain)] at hroll
      cases hroll

end Chance

/-! ## §3  A whole performance -/

theorem play_ok_iff {density : Option (DensityCurve α)} {notes : List (Note α)}
    {played : List (PlayedNote α)} {s s' : Session} :
    p.play instrument sectionBeats swing density notes s = .ok (played, s') ↔
      ∃ groove s₁ os t, Run.named? Groove.ofValue p.groove s = .ok (groove, s₁) ∧
        ((notes.filter (begins sectionBeats)).mapM
          (p.playNote? groove instrument sectionBeats swing density)).outcome s₁.stream
            = .ok (os, t) ∧
        os.filterMap id = played ∧ { s₁ with stream := t } = s' := by
  constructor
  · intro h
    obtain ⟨groove, s₁, hgroove, h⟩ := Run.bind_ok h
    obtain ⟨os, s₂, hos, h⟩ := Run.bind_ok h
    cases h
    obtain ⟨t, hdraw, rfl⟩ := Run.ofDraw_ok hos
    exact ⟨groove, s₁, os, t, hgroove, hdraw, rfl, rfl⟩
  · rintro ⟨groove, s₁, os, t, hgroove, hdraw, rfl, rfl⟩
    unfold play
    rw [Run.bind_apply, hgroove, Outcome.ok_bind, Run.bind_apply, Run.ofDraw_apply, hdraw]
    rfl

end Performance

/-- What is played of each note the first time is played of it the second time. -/
theorem sublist_filterMap_of_kept {β : Type} {os os' : List (Option β)}
    (h : List.Forall₂ (fun o o' => ∀ x, o = some x → o' = some x) os os') :
    (os.filterMap id).Sublist (os'.filterMap id) := by
  induction h with
  | nil => exact .slnil
  | @cons o o' os os' ho _ ih =>
      cases o with
      | some x =>
          cases ho x rfl
          exact ih.cons_cons x
      | none =>
          cases o' with
          | some x => exact ih.cons x
          | none => exact ih

/-- The same notes in a section that is sparse and in one that is dense, in a performance without human
variation. -/
structure Thinning (α : Type) [Scalar α] where
  performance : Performance α
  instrument : String
  sectionBeats : α
  swing : α
  notes : List (Note α)
  sparse : DensityCurve α
  dense : DensityCurve α
  even : performance.Even
  lasting : 0 < sectionBeats
  chances : ∀ n ∈ notes, ∀ q ∈ n.probability, 0.0 ≤ q
  below : sparse.Below dense

namespace Thinning

variable (m : Thinning α)

def play (density : DensityCurve α) : Run (List (PlayedNote α)) :=
  m.performance.play m.instrument m.sectionBeats m.swing (some density) m.notes

/-- A note is certain, and begins in the section. -/
def sure (n : Note α) : Bool :=
  n.certain && Performance.begins m.sectionBeats n

/-- A note that sounds is played so, in the groove that the performance names. -/
def Plays (n : Note α) (played : PlayedNote α) : Prop :=
  ∃ groove, (Run.named? Groove.ofValue m.performance.groove).Yields groove ∧
    m.performance.Plays groove m.instrument m.swing n played

theorem chances_of_begins {n : Note α}
    (hn : n ∈ m.notes.filter (Performance.begins m.sectionBeats)) :
    ∀ q ∈ n.probability, 0.0 ≤ q :=
  m.chances n (List.mem_of_mem_filter hn)

variable [Chances α] {m : Thinning α} {s s' : Session} {played : List (PlayedNote α)}

/-- When the dense section can be played, so can the sparse one, which leaves the same session and plays
some of the same notes. -/
theorem exists_sparse (h : m.play m.dense s = .ok (played, s')) :
    ∃ fewer, m.play m.sparse s = .ok (fewer, s') ∧ fewer.Sublist played := by
  obtain ⟨groove, s₁, os, t, hgroove, hdraw, rfl, rfl⟩ := Performance.play_ok_iff.1 h
  have hfollows := Draw.Follows.mapM fun n hn => m.even.follows_playNote? groove m.instrument m.swing
    m.below m.lasting (m.chances_of_begins hn)
  obtain ⟨os', hdraw', hkept⟩ := hfollows _ _ _ hdraw
  exact ⟨_, Performance.play_ok_iff.2 ⟨groove, s₁, os', t, hgroove, hdraw', rfl, rfl⟩,
    sublist_filterMap_of_kept hkept⟩

/-- A section without density is silent. -/
theorem eq_nil_of_zero {d : DensityCurve α} (hzero : d.Constantly 0.0)
    (h : m.play d s = .ok (played, s')) : played = [] := by
  obtain ⟨groove, s₁, os, t, hgroove, hdraw, rfl, rfl⟩ := Performance.play_ok_iff.1 h
  have hyields := Draw.Yields.of_mapM ⟨_, _, hdraw⟩
  refine List.filterMap_eq_nil_iff.2 fun o ho => ?_
  obtain ⟨n, hn, hplayed⟩ := exists_of_mem_right hyields ho
  exact Performance.playNote?_zero hzero m.lasting (m.chances_of_begins hn) hplayed

/-- A section of full density plays every note that is sure to sound. -/
theorem exists_kept_of_one {d : DensityCurve α} (hone : d.Constantly 1.0)
    (h : m.play d s = .ok (played, s')) :
    ∃ kept, (m.notes.filter m.sure).Sublist kept ∧ kept.Sublist m.notes ∧
      List.Forall₂ m.Plays kept played := by
  obtain ⟨groove, s₁, os, t, hgroove, hdraw, rfl, rfl⟩ := Performance.play_ok_iff.1 h
  have hyields := (Draw.Yields.of_mapM ⟨_, _, hdraw⟩).imp fun n o ho =>
    m.even.playNote?_one hone m.lasting ho
  obtain ⟨kept, hsure, hkept, hplays⟩ := exists_kept_of_filterMap hyields
  rw [List.filter_filter] at hsure
  exact ⟨kept, hsure, hkept.trans List.filter_sublist,
    hplays.imp fun n x hx => ⟨groove, ⟨s, s₁, hgroove⟩, hx⟩⟩

/-- Counted exactly, nothing stops the dense section if the name of its groove can be looked up. -/
theorem exists_play [Elementary] (m : Thinning Rat) (hkey : m.performance.groove.isKey = true)
    (d : DensityCurve Rat) (s : Session) : ∃ r, m.play d s = .ok r :=
  m.performance.exists_play hkey _ _ _ _ _ s

/-- **Raising the density only adds notes.** Whenever the dense section can be played, the sparse one can
too. It leaves the same session, and what it plays is part of what the dense one plays: nothing if its
density is 0 throughout. If the dense one's is 1 throughout, every note that is sure to sound is among
those that it plays. Draws and products need only be what `Chances` says. Counted exactly they are, and
both sections can always be played, unless the name of the groove is nothing that can be looked up. -/
theorem only_adds :
    (∀ {α : Type} [Scalar α] [Chances α] (m : Thinning α) (s s' : Session)
      (played : List (PlayedNote α)), m.play m.dense s = .ok (played, s') →
        (∃ fewer, m.play m.sparse s = .ok (fewer, s') ∧ fewer.Sublist played ∧
          (m.sparse.Constantly 0.0 → fewer = [])) ∧
        (m.dense.Constantly 1.0 → ∃ kept, (m.notes.filter m.sure).Sublist kept ∧
          kept.Sublist m.notes ∧ List.Forall₂ m.Plays kept played)) ∧
    ∀ [Elementary], Chances Rat ∧ ∀ m : Thinning Rat, m.performance.groove.isKey = true →
      ∀ s, ∃ r, m.play m.dense s = .ok r := by
  constructor
  · intro α _ _ m s s' played h
    obtain ⟨fewer, hfewer, hsub⟩ := exists_sparse h
    exact ⟨⟨fewer, hfewer, hsub, fun hzero => eq_nil_of_zero hzero hfewer⟩,
      fun hone => exists_kept_of_one hone h⟩
  · intro _
    exact ⟨inferInstance, fun m hkey s => m.exists_play hkey m.dense s⟩

/-- The density of a section that is full from the start. -/
def full [Elementary] : DensityCurve Rat :=
  { start := 1, finish := 1 }

theorem full_constantly [Elementary] : full.Constantly 1.0 := by
  have hlevel : max 0.0 (min 1.0 (full.start : Rat)) = 1.0 := by
    unfold full
    norm_num
  rw [← hlevel]
  exact DensityCurve.constantly_of_level rfl

/-- Three notes in a section of four beats: one without a probability, one with even chances, and one
that begins after the end. The section fills up from silence, or is full from the start. -/
def filling [Elementary] : Thinning Rat where
  performance := { humanize := 0, groove := .text "funk", velocityVariance := 0 }
  instrument := "piano"
  sectionBeats := 4
  swing := 1 / 2
  notes :=
    [{ pitch := "C4", start := 0, duration := 1, velocity := 4 / 5 },
     { pitch := "D4", start := 1, duration := 1, velocity := 4 / 5, probability := some (1 / 2) },
     { pitch := "E4", start := 5, duration := 1, velocity := 4 / 5 }]
  sparse := { start := 0, finish := 1 }
  dense := full
  even := ⟨rfl, rfl⟩
  lasting := by norm_num
  chances := by
    intro n hn q hq
    simp only [List.mem_cons, List.not_mem_nil, or_false] at hn
    rcases hn with rfl | rfl | rfl
    · cases hq
    · cases hq
      norm_num
    · cases hq
  below := DensityCurve.below_of_one _ full_constantly

/-- The theorem at work: the first note is silent where the section fills up, and the second one is heard
either way. -/
theorem filling_adds : ∃ (_ : Elementary) (s s' : Session) (fewer played : List (PlayedNote Rat)),
    filling.play filling.sparse s = .ok (fewer, s') ∧
      filling.play filling.dense s = .ok (played, s') ∧ fewer.Sublist played ∧
      fewer.map (·.pitch) = ["D4"] ∧ played.map (·.pitch) = ["C4", "D4"] ∧
      ∃ kept, (filling.notes.filter filling.sure).Sublist kept ∧ kept.Sublist filling.notes ∧
        List.Forall₂ filling.Plays kept played := by
  let _ : Elementary := .coarse
  -- All draws from this stream are 0.
  let s : Session := { stream := ⟨#[], 0⟩ }
  obtain ⟨⟨played, s'⟩, hplayed⟩ := only_adds.2.2 filling rfl s
  obtain ⟨⟨fewer, hfewer, hsub, _⟩, hone⟩ := only_adds.1 filling s s' played hplayed
  obtain ⟨kept, hkept⟩ := hone full_constantly
  have hdense : ((filling.play filling.dense s).toOption.map fun r => r.1.map (·.pitch)) =
      some ["C4", "D4"] := by decide +kernel
  have hsparse : ((filling.play filling.sparse s).toOption.map fun r => r.1.map (·.pitch)) =
      some ["D4"] := by decide +kernel
  rw [hplayed] at hdense
  rw [hfewer] at hsparse
  exact ⟨inferInstance, s, s', fewer, played, hfewer, hplayed, hsub, Option.some.inj hsparse,
    Option.some.inj hdense, kept, hkept⟩

end Thinning

end Partitura

import Partitura.Proofs.Midi.InForce
import Partitura.Proofs.Score.Layout

/-!
# The tempo map of a compilation

A section whose tempo does not move is played at its own tempo, which the tempo track sets where the
section begins. But an automated tempo is sampled up to the end of its section, which is where the
next one begins, and of a section and a sample on one tick the sample holds. The tempo that an earlier
section ends with is therefore carried over into the next one, unless the two are the same
(`tempoInForce_iff_own`).

What is carried over is the last sample of the tempo before the section, in the order of the
arrangement. It lies at the end of the last section with a moving tempo, and so not before any other
sample (§1), however the samples are sorted in the timeline (§2).
-/

namespace Partitura.Midi

variable [Elementary]

/-! ## §1  The last sample -/

/-- The samples of the tempo in sections laid out, section by section. -/
def tempoSamples (placed : List (SectionMarker Rat × CompiledSection Rat)) :
    List (AutomationEvent Rat) :=
  (placed.flatMap fun p => p.2.automationAt p.1.beat p.1.time).filter
    (·.path = AutomationPath.tempoPath)

theorem tempoSamples_append (before after : List (SectionMarker Rat × CompiledSection Rat)) :
    tempoSamples (before ++ after) = tempoSamples before ++ tempoSamples after := by
  unfold tempoSamples
  rw [List.flatMap_append, List.filter_append]

theorem mem_tempoSamples {placed : List (SectionMarker Rat × CompiledSection Rat)}
    {e : AutomationEvent Rat} : e ∈ tempoSamples placed ↔
      ∃ p ∈ placed, e ∈ p.2.automationAt p.1.beat p.1.time ∧ e.path = AutomationPath.tempoPath := by
  unfold tempoSamples
  rw [List.mem_filter, List.mem_flatMap, decide_eq_true_eq]
  constructor
  · rintro ⟨⟨p, hp, he⟩, hpath⟩
    exact ⟨p, hp, he, hpath⟩
  · rintro ⟨p, hp, he, hpath⟩
    exact ⟨⟨p, hp, he⟩, hpath⟩

variable {m : SectionMarker Rat} {x : CompiledSection Rat}

/-- A sample lies in its section, and is of one of its automations. -/
theorem mem_automationAt (hspans : m.Spans x) (hbeats : 0 ≤ m.beats) {e : AutomationEvent Rat}
    (he : e ∈ x.automationAt m.beat m.time) : m.beat ≤ e.beat ∧ e.beat ≤ m.beat + m.beats ∧
      ∃ a, (e.path, a) ∈ x.occurrence.body.automation := by
  obtain ⟨events, hautomation, hevents⟩ := hspans
  rw [hautomation] at he
  obtain ⟨samples, hsamples, he⟩ := List.mem_flatten.1 he
  obtain ⟨⟨path, a⟩, hpath, heven⟩ := exists_of_mem_right hevents hsamples
  have hmem := List.mem_map_of_mem (f := fun e => (e.path, e.beat)) he
  rw [heven] at hmem
  obtain ⟨i, hi, heq⟩ := List.mem_map.1 hmem
  obtain ⟨hname, hbeat⟩ := Prod.mk.inj heq
  have hi : (i : Rat) ≤ 20 := by
    exact_mod_cast Nat.le_of_lt_succ (List.mem_range.1 hi)
  have hshare : (i : Rat) / 20 * m.beats ≤ 1 * m.beats :=
    mul_le_mul_of_nonneg_right ((div_le_one (by norm_num)).2 hi) hbeats
  have hpositive : 0 ≤ (i : Rat) / 20 * m.beats := by
    positivity
  refine ⟨?_, ?_, a, ?_⟩
  · linarith
  · linarith
  · rw [← hname]
    exact hpath

omit [Elementary] in
/-- The last sample of one automation lies at the end of the section. -/
theorem beat_of_getLast?_filter {path : String} {samples : List (AutomationEvent Rat)}
    (heven : samples.map (fun e => (e.path, e.beat)) =
      (List.range 21).map fun i : ℕ => (path, m.beat + i / 20 * m.beats))
    {e : AutomationEvent Rat}
    (he : (samples.filter (·.path = AutomationPath.tempoPath)).getLast? = some e) :
    e.beat = m.beat + m.beats := by
  have hpaths : ∀ f ∈ samples, f.path = path := by
    intro f hf
    have hmem := List.mem_map_of_mem (f := fun e => (e.path, e.beat)) hf
    rw [heven] at hmem
    obtain ⟨i, _, heq⟩ := List.mem_map.1 hmem
    exact (Prod.mk.inj heq).1.symm
  obtain ⟨hmem, htempo⟩ := List.mem_filter.1 (List.mem_of_getLast? he)
  have hall : samples.filter (·.path = AutomationPath.tempoPath) = samples := by
    refine List.filter_eq_self.2 fun f hf => ?_
    rwa [hpaths f hf, ← hpaths e hmem]
  rw [hall] at he
  have hlast := congrArg List.getLast? heven
  rw [List.getLast?_map, List.getLast?_map, he, List.getLast?_range] at hlast
  have hbeat := (Prod.mk.inj (Option.some.inj hlast)).2
  rw [hbeat]
  norm_num

/-- The last sample of a section lies at its end. -/
theorem beat_of_getLast? (hspans : m.Spans x) {e : AutomationEvent Rat}
    (he : (tempoSamples [(m, x)]).getLast? = some e) : e.beat = m.beat + m.beats := by
  obtain ⟨events, hautomation, hevents⟩ := hspans
  unfold tempoSamples at he
  rw [List.flatMap_singleton, hautomation] at he
  generalize x.occurrence.body.automation = paths at hevents
  clear hautomation
  induction hevents with
  | nil => cases he
  | @cons path samples paths events heven _ ih =>
      rw [List.flatten_cons, List.filter_append, List.getLast?_append] at he
      -- A later automation of the tempo wins; they all end at the same beat.
      cases hlater : (events.flatten.filter (·.path = AutomationPath.tempoPath)).getLast? with
      | some later =>
          rw [hlater] at he
          cases he
          exact ih hlater
      | none =>
          rw [hlater, Option.none_or] at he
          exact beat_of_getLast?_filter heven he

/-- No sample of the tempo lies beyond the last one. -/
theorem le_of_getLast?_tempoSamples {placed : List (SectionMarker Rat × CompiledSection Rat)}
    (hspans : ∀ p ∈ placed, p.1.Spans p.2 ∧ 0 ≤ p.1.beats)
    (hapart : placed.Pairwise fun p q => 0 ≤ p.1.beats ∧ p.1.beat + p.1.beats ≤ q.1.beat)
    {last : AutomationEvent Rat} (hlast : (tempoSamples placed).getLast? = some last) :
    ∀ e ∈ tempoSamples placed, e.beat ≤ last.beat := by
  -- From the end: the last section with samples has the last one, and all others end before it.
  induction placed using List.reverseRecOn with
  | nil => cases hlast
  | append_singleton placed p ih =>
      obtain ⟨hfront, _, hbefore⟩ := List.pairwise_append.1 hapart
      obtain ⟨hspan, hlong⟩ := hspans p (List.mem_append_right placed List.mem_cons_self)
      have hspans' : ∀ q ∈ placed, q.1.Spans q.2 ∧ 0 ≤ q.1.beats := fun q hq =>
        hspans q (List.mem_append_left [p] hq)
      rw [tempoSamples_append, List.getLast?_append] at hlast
      rw [tempoSamples_append]
      cases hown : (tempoSamples [p]).getLast? with
      | none =>
          rw [hown] at hlast
          rw [List.getLast?_eq_none_iff.1 hown, List.append_nil]
          exact ih hspans' hfront hlast
      | some own =>
          rw [hown] at hlast
          cases hlast
          rw [beat_of_getLast? hspan hown]
          intro e he
          rcases List.mem_append.1 he with he | he
          · obtain ⟨q, hq, he, _⟩ := mem_tempoSamples.1 he
            obtain ⟨_, hend, _⟩ := mem_automationAt (hspans' q hq).1 (hspans' q hq).2 he
            have hnext := (hbefore q hq p List.mem_cons_self).2
            linarith
          · obtain ⟨q, hq, he, _⟩ := mem_tempoSamples.1 he
            cases List.mem_singleton.1 hq
            exact (mem_automationAt hspan hlong he).2.1

/-! ## §2  What is in force in a section -/

variable {s : Score Rat} {o : CompileOptions Rat} {c : Compilation Rat}
  {before after : List (SectionMarker Rat × CompiledSection Rat)} {tick : Nat}

omit [Elementary] in
/-- Sections after a tick stay after it. -/
theorem lt_tickOf_of_mem
    (hapart : after.Pairwise fun p q => 0 ≤ p.1.beats ∧ p.1.beat + p.1.beats ≤ q.1.beat)
    (hnext : ∀ p ∈ after.head?, tick < tickOf p.1.beat) : ∀ p ∈ after, tick < tickOf p.1.beat := by
  cases after with
  | nil =>
      intro p hp
      cases hp
  | cons q rest =>
      obtain ⟨hlater, _⟩ := List.pairwise_cons.1 hapart
      have hq : tick < tickOf q.1.beat := hnext q rfl
      intro p hp
      rcases List.mem_cons.1 hp with rfl | hp
      · exact hq
      · obtain ⟨hlong, hend⟩ := hlater p hp
        refine hq.trans_le (tickOf_mono ?_)
        linarith

/-- A section without a moving tempo has no samples of it. -/
theorem tempoSamples_plain (hspans : m.Spans x) (hbeats : 0 ≤ m.beats)
    (hplain : x.occurrence.body.automation.lookup AutomationPath.tempoPath = none) :
    tempoSamples [(m, x)] = [] := by
  refine List.eq_nil_iff_forall_not_mem.2 fun e he => ?_
  obtain ⟨p, hp, he, hpath⟩ := mem_tempoSamples.1 he
  cases List.mem_singleton.1 hp
  obtain ⟨_, _, a, ha⟩ := mem_automationAt hspans hbeats he
  have hne := List.lookup_eq_none_iff.1 hplain _ ha
  rw [hpath] at hne
  simp at hne

/-- In a section without a moving tempo, the last section is itself. -/
theorem getLast?_sectionsBy (h : s.compile o = .ok c) (hproper : c.Proper)
    (hplaced : c.placed = before ++ (m, x) :: after) (hfrom : tickOf m.beat ≤ tick)
    (hnext : ∀ p ∈ after.head?, tick < tickOf p.1.beat) :
    (sectionsBy tick c.timeline).getLast? = some m := by
  have hapart := Score.apart_placed h hproper
  rw [hplaced] at hapart
  have hafter : (after.map (·.1)).filter (fun m => tickOf m.beat ≤ tick) = [] := by
    refine List.filter_eq_nil_iff.2 fun next hmem hle => ?_
    obtain ⟨p, hp, rfl⟩ := List.mem_map.1 hmem
    have hlater := lt_tickOf_of_mem (List.pairwise_cons.1 (List.pairwise_append.1 hapart).2.1).2
      hnext p hp
    exact absurd (of_decide_eq_true hle) (not_le.2 hlater)
  have hown : (m :: after.map (·.1)).filter (fun m => tickOf m.beat ≤ tick) = [m] := by
    rw [List.filter_cons, hafter]
    exact if_pos (decide_eq_true hfrom)
  unfold sectionsBy
  rw [← Score.map_fst_placed h hproper, hplaced, List.map_append, List.map_cons, List.filter_append,
    hown]
  simp

/-- No sample of a section lies beyond the marker of a later one. -/
theorem beat_le_of_mem_before (h : s.compile o = .ok c) (hproper : c.Proper)
    (hplaced : c.placed = before ++ (m, x) :: after) :
    ∀ e ∈ tempoSamples before, e.beat ≤ m.beat := by
  intro e he
  obtain ⟨p, hp, he, _⟩ := mem_tempoSamples.1 he
  have hmem : p ∈ c.placed := by
    rw [hplaced]
    exact List.mem_append_left _ hp
  have hend := (mem_automationAt (Score.spans h hproper p hmem)
    (Score.beats_nonneg_of_mem_placed h hproper hmem) he).2.1
  have hapart := Score.apart_placed h hproper
  rw [hplaced] at hapart
  exact hend.trans ((List.pairwise_append.1 hapart).2.2 p hp (m, x) List.mem_cons_self).2

/-- Up to a tick in a section without a moving tempo there are the samples of the sections before, and
no others. -/
theorem filter_tempoSamples (h : s.compile o = .ok c) (hproper : c.Proper)
    (hplaced : c.placed = before ++ (m, x) :: after)
    (hplain : x.occurrence.body.automation.lookup AutomationPath.tempoPath = none)
    (hfrom : tickOf m.beat ≤ tick) (hnext : ∀ p ∈ after.head?, tick < tickOf p.1.beat) :
    (tempoSamples c.placed).filter (fun e => tickOf e.beat ≤ tick) = tempoSamples before := by
  have hspans : ∀ p ∈ c.placed, p.1.Spans p.2 ∧ 0 ≤ p.1.beats := fun p hp =>
    ⟨Score.spans h hproper p hp, Score.beats_nonneg_of_mem_placed h hproper hp⟩
  have hapart := Score.apart_placed h hproper
  rw [hplaced] at hspans hapart ⊢
  have hrest := (List.pairwise_append.1 hapart).2.1
  have hbefore : (tempoSamples before).filter (fun e => tickOf e.beat ≤ tick) =
      tempoSamples before := by
    refine List.filter_eq_self.2 fun e he => decide_eq_true ?_
    exact (tickOf_mono (beat_le_of_mem_before h hproper hplaced e he)).trans hfrom
  have hown : tempoSamples [(m, x)] = [] := by
    obtain ⟨hspan, hlong⟩ := hspans (m, x) (List.mem_append_right _ List.mem_cons_self)
    exact tempoSamples_plain hspan hlong hplain
  have hafter : (tempoSamples after).filter (fun e => tickOf e.beat ≤ tick) = [] := by
    refine List.filter_eq_nil_iff.2 fun e he hle => ?_
    obtain ⟨p, hp, he, _⟩ := mem_tempoSamples.1 he
    obtain ⟨hspan, hlong⟩ := hspans p (List.mem_append_right _ (List.mem_cons_of_mem _ hp))
    have hbegin := (mem_automationAt hspan hlong he).1
    have hlater := lt_tickOf_of_mem (List.pairwise_cons.1 hrest).2 hnext p hp
    exact absurd (of_decide_eq_true hle) (not_le.2 (hlater.trans_le (tickOf_mono hbegin)))
  rw [← List.singleton_append, tempoSamples_append, tempoSamples_append, List.filter_append,
    List.filter_append, hbefore, hown, hafter, List.filter_nil, List.append_nil, List.append_nil]

/-- In a section without a moving tempo, the last sample is that of the sections before. -/
theorem getLast?_samplesBy (h : s.compile o = .ok c) (hproper : c.Proper)
    (hplaced : c.placed = before ++ (m, x) :: after)
    (hplain : x.occurrence.body.automation.lookup AutomationPath.tempoPath = none)
    (hfrom : tickOf m.beat ≤ tick) (hnext : ∀ p ∈ after.head?, tick < tickOf p.1.beat) :
    (samplesBy tick c.timeline).getLast? = (tempoSamples before).getLast? := by
  have hsorted := (Score.stablySorted_automation h hproper).filter fun e =>
    e.path = AutomationPath.tempoPath && tickOf e.beat ≤ tick
  have hgiven : (c.placed.flatMap fun p => p.2.automationAt p.1.beat p.1.time).filter
      (fun e => e.path = AutomationPath.tempoPath && tickOf e.beat ≤ tick) = tempoSamples before := by
    rw [← filter_tempoSamples h hproper hplaced hplain hfrom hnext]
    unfold tempoSamples
    rw [List.filter_filter]
    exact List.filter_congr fun e _ => Bool.and_comm _ _
  rw [hgiven] at hsorted
  cases hlast : (tempoSamples before).getLast? with
  | none =>
      rw [List.getLast?_eq_none_iff.1 hlast] at hsorted
      unfold samplesBy
      rw [hsorted.perm.eq_nil]
      rfl
  | some e =>
      have hmem : ∀ p ∈ before, p ∈ c.placed := fun p hp => by
        rw [hplaced]
        exact List.mem_append_left _ hp
      have hapart := Score.apart_placed h hproper
      rw [hplaced] at hapart
      refine hsorted.getLast?_of_greatest hlast (le_of_getLast?_tempoSamples (fun p hp => ?_)
        (List.pairwise_append.1 hapart).1 hlast)
      exact ⟨Score.spans h hproper p (hmem p hp),
        Score.beats_nonneg_of_mem_placed h hproper (hmem p hp)⟩

/-- What is in force in a section without a moving tempo: its own tempo, or that which is carried
over from before. -/
theorem tempoInForce_eq (h : s.compile o = .ok c) (hproper : c.Proper) {track : Track}
    (htrack : tempoTrack c.timeline = .ok track) (hplaced : c.placed = before ++ (m, x) :: after)
    (hplain : x.occurrence.body.automation.lookup AutomationPath.tempoPath = none)
    (hfrom : tickOf m.beat ≤ tick) (hnext : ∀ p ∈ after.head?, tick < tickOf p.1.beat) :
    tempoInForce track tick = some (prevailing m (tempoSamples before).getLast?) := by
  have hsections : c.timeline.sections.Pairwise fun m next => m.beat ≤ next.beat := by
    rw [← Score.map_fst_placed h hproper]
    refine List.pairwise_map.2 ((Score.apart_placed h hproper).imp ?_)
    rintro p q ⟨hlong, hend⟩
    exact (le_add_of_nonneg_right hlong).trans hend
  have hautomation := (Score.stablySorted_automation h hproper).ascending
  rw [tempoInForce_tempoTrack htrack hsections hautomation
    (getLast?_sectionsBy h hproper hplaced hfrom hnext),
    getLast?_samplesBy h hproper hplaced hplain hfrom hnext]

/-- **A section keeps its own tempo just if no other is carried over into it.** Let the tempo of a
compiled section not move. From its first tick up to the next marker its own tempo is in force if and
only if the last sample of a tempo before it, if there is one and it falls on that first tick, is of
the same tempo. -/
theorem tempoInForce_iff_own (h : s.compile o = .ok c) (hproper : c.Proper) {track : Track}
    (htrack : tempoTrack c.timeline = .ok track) (hplaced : c.placed = before ++ (m, x) :: after)
    (hplain : x.occurrence.body.automation.lookup AutomationPath.tempoPath = none)
    (hfrom : tickOf m.beat ≤ tick) (hnext : ∀ p ∈ after.head?, tick < tickOf p.1.beat) :
    tempoInForce track tick = some (microsecondsOf x.occurrence.tempo) ↔
      ∀ e, (tempoSamples before).getLast? = some e → tickOf e.beat = tickOf m.beat →
        microsecondsOf (max 1 e.value) = microsecondsOf x.occurrence.tempo := by
  have hown : m.tempo = x.occurrence.tempo := by
    have hmem : (m, x) ∈ c.placed := by
      rw [hplaced]
      exact List.mem_append_right _ List.mem_cons_self
    exact congrArg SectionMarker.tempo (Score.eq_markerAt h hproper hmem)
  rw [tempoInForce_eq h hproper htrack hplaced hplain hfrom hnext, Option.some_inj]
  cases hlast : (tempoSamples before).getLast? with
  | none =>
      unfold prevailing
      rw [hown]
      exact iff_of_true rfl fun e he => by cases he
  | some e =>
      have hle := tickOf_mono
        (beat_le_of_mem_before h hproper hplaced e (List.mem_of_getLast? hlast))
      unfold prevailing
      dsimp only
      split
      · next hge =>
          -- The last sample falls on the first tick, so it holds.
          have heq : tickOf e.beat = tickOf m.beat := le_antisymm hle hge
          constructor
          · rintro hsame e' ⟨⟩ _
            exact hsame
          · intro hsame
            exact hsame e rfl heq
      · next hlt =>
          rw [hown]
          refine iff_of_true rfl ?_
          rintro e' ⟨⟩ heq
          exact absurd (le_of_eq heq.symm) hlt

/-! ## §3  A tempo that is carried over -/

/-- A tempo track is written if every tempo fits its message. -/
theorem exists_tempoTrack (h : s.compile o = .ok c) (hproper : c.Proper)
    (htitle : s.settings.title = .null) (hsome : c.placed ≠ [])
    (htempos : ∀ x ∈ c.sections, ∃ message, tempoMessage x.occurrence.tempo = .ok message)
    (hsamples : ∀ x ∈ c.sections, ∀ e ∈ x.automation,
      ∃ message, tempoMessage (Scalar.max Automation.minTempo e.value) = .ok message) :
    ∃ track, tempoTrack c.timeline = .ok track := by
  have hname : titleOf c.timeline.settings.title = .ok "tempo" := by
    have hnull : c.timeline.settings.title = .null := by
      rw [Score.timeline_eq h, ← htitle]
      rfl
    rw [hnull]
    rfl
  have hstanding : standingTempo c.timeline = .ok [] := by
    have hsections : c.timeline.sections ≠ [] := by
      rw [← Score.map_fst_placed h hproper]
      exact fun hnil => hsome (List.map_eq_nil_iff.1 hnil)
    unfold standingTempo
    rw [if_neg fun hempty => hsections (List.isEmpty_iff.1 hempty)]
    rfl
  obtain ⟨markers, hmarkers⟩ : ∃ markers, c.timeline.sections.mapM markerEvents = .ok markers := by
    refine Outcome.exists_mapM fun m hm => exists_markerEvents ?_
    rw [← Score.map_fst_placed h hproper] at hm
    obtain ⟨p, hp, rfl⟩ := List.mem_map.1 hm
    rw [Score.eq_markerAt h hproper hp]
    exact htempos p.2 (Compilation.mem_sections hp)
  obtain ⟨samples, hsamples⟩ : ∃ samples, (c.timeline.automation.filter
      (·.path = AutomationPath.tempoPath)).mapM sampleEvent = .ok samples := by
    refine Outcome.exists_mapM fun e he => exists_sampleEvent ?_
    have hgiven := (Score.stablySorted_automation h hproper).mem_iff.1 (List.mem_of_mem_filter he)
    obtain ⟨p, hp, he⟩ := List.mem_flatMap.1 hgiven
    obtain ⟨e', he', rfl⟩ := List.mem_map.1 he
    exact hsamples p.2 (Compilation.mem_sections hp) e' he'
  refine ⟨Track.ofEvents "tempo" (markers.flatten ++ samples), ?_⟩
  unfold tempoTrack tempoEvents
  rw [hstanding, hmarkers, hsamples, hname]
  rfl

/-- A bar at a tempo that swells from 60 to 240, and two that stay at 120. -/
def swelling : Score Rat :=
  { Score.simple [] 1 120 "C major" with
    sections :=
      [("swell", { bars := 1, automation := [("tempo", { start := 60, finish := 240 })] }),
       ("stay", { bars := 1 })]
    arrangement := ["swell", "stay", "stay"] }

/-- Whether a section has bars and tempos, and the tempos fit their messages. -/
def playable (x : CompiledSection Rat) : Bool :=
  0 < x.occurrence.body.bars && 0 < x.occurrence.tempo &&
    (tempoMessage x.occurrence.tempo).toOption.isSome &&
    x.automation.all fun e => (tempoMessage (Scalar.max Automation.minTempo e.value)).toOption.isSome

/-- Whether the last sample of a section of four beats is a tempo of 240. -/
def swells (x : CompiledSection Rat) : Bool :=
  x.occurrence.beats = 4 && x.automation.getLast?.any fun e =>
    e.path = AutomationPath.tempoPath && e.beat = 4 && e.value = 240

/-- Whether a section of four beats stays at a tempo of 120. -/
def stays (x : CompiledSection Rat) : Bool :=
  x.occurrence.beats = 4 && x.occurrence.tempo = 120 && x.occurrence.body.automation.isEmpty

set_option maxRecDepth 10000 in
omit [Elementary] in
theorem swelling_swells :
    letI := Elementary.coarse
    (swelling.compile {}).toOption.any (fun c =>
      match c.sections with
      | [a, b, b'] => swells a && stays b && stays b' && c.sections.all playable
      | _ => false) = true := by
  decide +kernel

omit [Elementary] in
/-- The three bars laid out, and their tempo track. -/
theorem swelling_laidOut :
    letI := Elementary.coarse
    ∃ (c : Compilation Rat) (track : Track) (a b b' : CompiledSection Rat),
      swelling.compile {} = .ok c ∧
      (∀ x ∈ c.sections, 0 < x.occurrence.body.bars ∧ 0 < x.occurrence.tempo) ∧
      tempoTrack c.timeline = .ok track ∧
      c.placed = [(a.markerAt 0 0, a), (b.markerAt 4 a.seconds, b),
        (b'.markerAt 8 (a.seconds + b.seconds), b')] ∧
      swells a = true ∧ stays b = true ∧ stays b' = true := by
  let _ := Elementary.coarse
  obtain ⟨c, hc, hchecked⟩ := Outcome.exists_of_any swelling_swells
  split at hchecked
  · next a b b' hsections =>
      simp only [Bool.and_eq_true, List.all_eq_true, playable, decide_eq_true_eq] at hchecked
      obtain ⟨⟨⟨ha, hb⟩, hb'⟩, hall⟩ := hchecked
      have hproper : c.Proper := fun x hx =>
        ⟨le_of_lt (hall x hx).1.1.1, (hall x hx).1.1.2⟩
      have hlonga : a.occurrence.beats = 4 := of_decide_eq_true (Bool.and_eq_true_iff.1 ha).1
      have hlongb : b.occurrence.beats = 4 := by
        simp only [stays, Bool.and_eq_true, decide_eq_true_eq] at hb
        exact hb.1.1
      have hplaced : c.placed = [(a.markerAt 0 0, a), (b.markerAt 4 a.seconds, b),
          (b'.markerAt 8 (a.seconds + b.seconds), b')] := by
        unfold Compilation.placed
        rw [Score.markers_eq hc hproper, hsections, markersFrom_cons, markersFrom_cons,
          markersFrom_cons, hlonga, hlongb]
        norm_num
      obtain ⟨track, htrack⟩ := exists_tempoTrack hc hproper rfl (by rw [hplaced]; simp)
        (fun x hx => Outcome.exists_of_isSome (hall x hx).1.2)
        (fun x hx e he => Outcome.exists_of_isSome ((hall x hx).2 e he))
      exact ⟨c, track, a, b, b', hc, fun x hx => (hall x hx).1.1, htrack, hplaced, ha, hb, hb'⟩
  · cases hchecked

/-- The last sample of the bar that swells lies where the next bar begins. -/
theorem getLast?_swells (hx : swells x = true) :
    ∃ e, (tempoSamples [(x.markerAt 0 0, x)]).getLast? = some e ∧ e.beat = 4 ∧ e.value = 240 := by
  unfold swells at hx
  obtain ⟨_, hx⟩ := Bool.and_eq_true_iff.1 hx
  cases hlast : x.automation.getLast? with
  | none =>
      rw [hlast] at hx
      cases hx
  | some e =>
      rw [hlast] at hx
      simp only [Option.any_some, Bool.and_eq_true, decide_eq_true_eq] at hx
      obtain ⟨⟨hpath, hbeat⟩, hvalue⟩ := hx
      refine ⟨{ e with beat := 0 + e.beat, time := 0 + e.time }, ?_, ?_, hvalue⟩
      · unfold tempoSamples
        rw [List.flatMap_singleton]
        refine getLast?_filter_of_getLast? ?_ (decide_eq_true hpath)
        unfold CompiledSection.automationAt
        rw [List.getLast?_map, hlast]
        rfl
      · rw [zero_add, hbeat]

omit [Elementary] in
theorem stays_plain (hx : stays x = true) : x.occurrence.tempo = 120 ∧
    x.occurrence.body.automation.lookup AutomationPath.tempoPath = none := by
  simp only [stays, Bool.and_eq_true, decide_eq_true_eq, List.isEmpty_iff] at hx
  obtain ⟨⟨_, htempo⟩, hnone⟩ := hx
  rw [hnone]
  exact ⟨htempo, rfl⟩

omit [Elementary] in
/-- The theorem at work: a bar later the tempo that swelled is gone. -/
theorem own_tempo_later : ∃ _ : Elementary, ∃ (c : Compilation Rat) (track : Track),
    swelling.compile {} = .ok c ∧ tempoTrack c.timeline = .ok track ∧
      tempoInForce track 3840 = some 500000 := by
  let _ := Elementary.coarse
  obtain ⟨c, track, a, b, b', hc, hpositive, htrack, hplaced, ha, hb, hb'⟩ := swelling_laidOut
  have hproper : c.Proper := fun x hx => ⟨le_of_lt (hpositive x hx).1, (hpositive x hx).2⟩
  obtain ⟨e, hlast, hbeat, _⟩ := getLast?_swells ha
  obtain ⟨htempo, hplain⟩ := stays_plain hb'
  have hmiddle : tempoSamples [(b.markerAt 4 a.seconds, b)] = [] := by
    have hmem : (b.markerAt 4 a.seconds, b) ∈ c.placed := by
      rw [hplaced]
      simp
    exact tempoSamples_plain (Score.spans hc hproper _ hmem)
      (Score.beats_nonneg_of_mem_placed hc hproper hmem) (stays_plain hb).2
  have hsplit : c.placed = [(a.markerAt 0 0, a), (b.markerAt 4 a.seconds, b)] ++
      (b'.markerAt 8 (a.seconds + b.seconds), b') :: [] := hplaced
  have hstart : tickOf 8 = 3840 := by
    decide +kernel
  have hown : tempoInForce track 3840 = some (microsecondsOf b'.occurrence.tempo) := by
    refine (tempoInForce_iff_own hc hproper htrack hsplit hplain (le_of_eq hstart)
      (fun p hp => by cases hp)).2 ?_
    intro e' he' htick
    have hearlier : tempoSamples [(a.markerAt 0 0, a), (b.markerAt 4 a.seconds, b)] =
        tempoSamples [(a.markerAt 0 0, a)] := by
      rw [← List.singleton_append, tempoSamples_append, hmiddle, List.append_nil]
    rw [hearlier, hlast] at he'
    cases he'
    have hother : tickOf 4 ≠ tickOf 8 := by
      decide +kernel
    rw [hbeat] at htick
    exact absurd htick hother
  refine ⟨_, c, track, hc, htrack, ?_⟩
  rw [hown, htempo]
  decide +kernel

omit [Elementary] in
/-- **A tempo is carried over.** The second bar has a tempo of 120 of its own, but the tempo of 240
that the first one ends with is in force from its first tick on. -/
theorem swell_carried_over : ∃ _ : Elementary, ∃ (c : Compilation Rat) (track : Track)
    (before after : List (SectionMarker Rat × CompiledSection Rat)) (m : SectionMarker Rat)
    (x : CompiledSection Rat),
    swelling.compile {} = .ok c ∧
      (∀ x ∈ c.sections, 0 < x.occurrence.body.bars ∧ 0 < x.occurrence.tempo) ∧
      tempoTrack c.timeline = .ok track ∧ c.placed = before ++ (m, x) :: after ∧
      x.occurrence.body.automation.lookup AutomationPath.tempoPath = none ∧
      tickOf m.beat = 1920 ∧ (∀ p ∈ after.head?, 1920 < tickOf p.1.beat) ∧
      microsecondsOf x.occurrence.tempo = 500000 ∧ tempoInForce track 1920 = some 250000 := by
  let _ := Elementary.coarse
  obtain ⟨c, track, a, b, b', hc, hpositive, htrack, hplaced, ha, hb, _⟩ := swelling_laidOut
  have hproper : c.Proper := fun x hx => ⟨le_of_lt (hpositive x hx).1, (hpositive x hx).2⟩
  obtain ⟨e, hlast, hbeat, hvalue⟩ := getLast?_swells ha
  obtain ⟨htempo, hplain⟩ := stays_plain hb
  have hsplit : c.placed = [(a.markerAt 0 0, a)] ++ (b.markerAt 4 a.seconds, b) ::
      [(b'.markerAt 8 (a.seconds + b.seconds), b')] := hplaced
  have hstart : tickOf 4 = 1920 := by
    decide +kernel
  have hnext : ∀ p ∈ [(b'.markerAt 8 (a.seconds + b.seconds), b')].head?,
      1920 < tickOf p.1.beat := by
    rintro p ⟨⟩
    change 1920 < tickOf 8
    decide +kernel
  have hforce := tempoInForce_eq hc hproper htrack hsplit hplain (le_of_eq hstart) hnext
  rw [hlast] at hforce
  have hcarried : prevailing (b.markerAt 4 a.seconds) (some e) = 250000 := by
    have hmicroseconds : microsecondsOf (max 1 240) = 250000 := by
      decide +kernel
    unfold prevailing
    dsimp only
    rw [hbeat, hvalue, hmicroseconds]
    exact if_pos (le_refl (tickOf 4))
  refine ⟨_, c, track, _, _, _, b, hc, hpositive, htrack, hsplit, hplain, hstart, hnext, ?_, ?_⟩
  · rw [htempo]
    decide +kernel
  · rw [hforce, hcarried]

end Partitura.Midi

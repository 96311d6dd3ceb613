import Partitura.Proofs.Score.Timing
import Partitura.Proofs.Sorting
import Partitura.Score.Analysis

/-!
# How a compilation is laid out

The sections of a compilation lie one after the other, without gaps, in the order of the arrangement;
the lists of the timeline hold the notes and the samples of all of them, moved to where their section
begins and stably sorted by beat.

Laying sections out is a recursion over them that carries the beat and the time so far (§1). That
markers are not moved by sorting needs that no section runs backwards, which is where the assumption
on bars comes in; that nothing begins before its marker needs the one on tempos (§2). What there is
to say about a whole compilation is collected in `Compilation.LaidOut`.
-/

namespace Partitura

/-! ## §1  Sections one after the other -/

section Placing

variable {α : Type} [Scalar α]

/-- The markers of sections laid one after the other from a beat and a time on. -/
def markersFrom (beat time : α) (xs : List (CompiledSection α)) : List (SectionMarker α) :=
  (placeSections beat time xs).map fun p => p.2.2.markerAt p.1 p.2.1

/-- A marker begins where another one ends. -/
def SectionMarker.Follows (next m : SectionMarker α) : Prop :=
  next.beat = m.beat + m.beats ∧ next.time = m.time + m.seconds

/-- Where the last of the markers ends; without markers, where they would begin. -/
def endOf (beat time : α) (markers : List (SectionMarker α)) : α × α :=
  match markers.getLast? with
  | some m => (m.beat + m.beats, m.time + m.seconds)
  | none => (beat, time)

theorem markersFrom_cons (beat time : α) (x : CompiledSection α) (xs : List (CompiledSection α)) :
    markersFrom beat time (x :: xs) = x.markerAt beat time ::
      markersFrom (beat + x.occurrence.beats) (time + x.seconds) xs := rfl

/-- Every section has its own marker. -/
theorem forall₂_markersFrom (beat time : α) (xs : List (CompiledSection α)) :
    List.Forall₂ (fun m x => m = x.markerAt m.beat m.time) (markersFrom beat time xs) xs := by
  induction xs generalizing beat time with
  | nil => exact .nil
  | cons x xs ih =>
      rw [markersFrom_cons]
      exact .cons rfl (ih _ _)

theorem head?_markersFrom (beat time : α) (xs : List (CompiledSection α)) :
    ∀ m ∈ (markersFrom beat time xs).head?, m.beat = beat ∧ m.time = time := by
  cases xs with
  | nil =>
      intro m hm
      cases hm
  | cons x xs =>
      rintro m ⟨⟩
      exact ⟨rfl, rfl⟩

theorem isChain_markersFrom (beat time : α) (xs : List (CompiledSection α)) :
    (markersFrom beat time xs).IsChain fun m next => next.Follows m := by
  induction xs generalizing beat time with
  | nil => exact .nil
  | cons x xs ih =>
      rw [markersFrom_cons]
      exact (ih _ _).cons (head?_markersFrom _ _ xs)

/-- The totals are where the last marker ends. -/
theorem endOf_markersFrom (beat time : α) (xs : List (CompiledSection α)) :
    endOf beat time (markersFrom beat time xs) =
      (xs.foldl (fun beat x => beat + x.occurrence.beats) beat,
        xs.foldl (fun time x => time + x.seconds) time) := by
  induction xs generalizing beat time with
  | nil => rfl
  | cons x xs ih =>
      rw [List.foldl_cons, List.foldl_cons, ← ih, markersFrom_cons]
      unfold endOf
      rw [List.getLast?_cons]
      cases (markersFrom (beat + x.occurrence.beats) (time + x.seconds) xs).getLast? with
      | none => rfl
      | some m => rfl

/-- What sections contribute depends on their markers alone. -/
theorem flatMap_placeSections {β : Type} (f : α → α → CompiledSection α → List β) (beat time : α)
    (xs : List (CompiledSection α)) :
    ((placeSections beat time xs).flatMap fun p => f p.1 p.2.1 p.2.2) =
      ((markersFrom beat time xs).zip xs).flatMap fun p => f p.1.beat p.1.time p.2 := by
  induction xs generalizing beat time with
  | nil => rfl
  | cons x xs ih =>
      rw [markersFrom_cons, placeSections, List.zip_cons_cons, List.flatMap_cons,
        List.flatMap_cons, ih]
      rfl

end Placing

/-! ## §2  Order -/

variable [Elementary]

/-- Sections that do not run backwards begin in their order. -/
theorem le_of_mem_markersFrom {beat time : Rat} {xs : List (CompiledSection Rat)}
    (hbeats : ∀ x ∈ xs, 0 ≤ x.occurrence.beats) :
    ∀ m ∈ markersFrom beat time xs, beat ≤ m.beat := by
  induction xs generalizing beat time with
  | nil =>
      intro m hm
      cases hm
  | cons x xs ih =>
      intro m hm
      rw [markersFrom_cons] at hm
      rcases List.mem_cons.1 hm with rfl | hm
      · exact le_rfl
      · have hlater := ih (fun y hy => hbeats y (List.mem_cons_of_mem x hy)) m hm
        have hfirst := hbeats x List.mem_cons_self
        linarith

/-- No section begins before an earlier one has ended. -/
theorem apart_markersFrom {beat time : Rat} {xs : List (CompiledSection Rat)}
    (hbeats : ∀ x ∈ xs, 0 ≤ x.occurrence.beats) :
    (markersFrom beat time xs).Pairwise fun m next =>
      0 ≤ m.beats ∧ m.beat + m.beats ≤ next.beat := by
  induction xs generalizing beat time with
  | nil => exact .nil
  | cons x xs ih =>
      have hrest : ∀ y ∈ xs, 0 ≤ y.occurrence.beats := fun y hy =>
        hbeats y (List.mem_cons_of_mem x hy)
      rw [markersFrom_cons]
      refine List.pairwise_cons.2 ⟨fun m hm => ⟨?_, ?_⟩, ih hrest⟩
      · exact hbeats x List.mem_cons_self
      · exact le_of_mem_markersFrom hrest m hm

/-! ## §3  The timeline of a compilation -/

variable {s : Score Rat} {o : CompileOptions Rat} {c : Compilation Rat}

/-- No section has fewer than no bars, and time goes by in all of them. -/
def Compilation.Proper (c : Compilation Rat) : Prop :=
  ∀ x ∈ c.sections, 0 ≤ x.occurrence.body.bars ∧ 0 < x.occurrence.tempo

/-- The compiled sections with their markers. -/
def Compilation.placed (c : Compilation Rat) : List (SectionMarker Rat × CompiledSection Rat) :=
  c.timeline.sections.zip c.sections

/-- Markers stay in the order of their sections. -/
theorem Score.markers_eq (h : s.compile o = .ok c) (hproper : c.Proper) :
    c.timeline.sections = markersFrom 0 0 c.sections := by
  have hbeats : ∀ x ∈ c.sections, 0 ≤ x.occurrence.beats := fun x hx =>
    Score.beats_nonneg h hx (hproper x hx).1
  have hsorted : c.timeline.sections = sortByBeat (·.beat) (markersFrom 0.0 0.0 c.sections) := by
    rw [Score.timeline_eq h]
    rfl
  rw [hsorted, Exact.start_eq]
  refine sortByBeat_of_ascending ((apart_markersFrom hbeats).imp ?_)
  rintro m next ⟨hlong, hapart⟩
  exact (le_add_of_nonneg_right hlong).trans hapart

/-- What the lists of a timeline are sorted from. -/
theorem Score.flatMap_placed {β : Type} (h : s.compile o = .ok c) (hproper : c.Proper)
    (f : Rat → Rat → CompiledSection Rat → List β) :
    ((placeSections 0.0 0.0 c.sections).flatMap fun p => f p.1 p.2.1 p.2.2) =
      c.placed.flatMap fun p => f p.1.beat p.1.time p.2 := by
  rw [Exact.start_eq, flatMap_placeSections]
  unfold Compilation.placed
  rw [Score.markers_eq h hproper]

theorem Score.stablySorted_notes (h : s.compile o = .ok c) (hproper : c.Proper) :
    StablySorted (·.beat) (c.placed.flatMap fun p => p.2.notesAt p.1.beat p.1.time)
      c.timeline.notes := by
  rw [← Score.flatMap_placed h hproper fun beat time x => x.notesAt beat time, Score.timeline_eq h]
  exact stablySorted_sortByBeat _ _

theorem Score.stablySorted_automation (h : s.compile o = .ok c) (hproper : c.Proper) :
    StablySorted (·.beat) (c.placed.flatMap fun p => p.2.automationAt p.1.beat p.1.time)
      c.timeline.automation := by
  rw [← Score.flatMap_placed h hproper fun beat time x => x.automationAt beat time, Score.timeline_eq h]
  exact stablySorted_sortByBeat _ _

/-! ## §4  What a compilation holds -/

/-- An entry of the arrangement and the section that it was compiled to. -/
def Score.Arranged (s : Score Rat) (entry : ℕ × String) (x : CompiledSection Rat) : Prop :=
  x.occurrence.index = entry.1 ∧ x.occurrence.name = entry.2 ∧
    s.sections.lookup entry.2 = some x.occurrence.body

/-- The entries of the selection that are sections, in order. -/
def Score.knownEntries (s : Score Rat) (o : CompileOptions Rat) : List (ℕ × String) :=
  (s.selection o).filter fun entry => (s.sections.lookup entry.2).isSome

/-- Sections are compiled in the order of the arrangement, and names of none are skipped. -/
theorem Score.forall₂_arranged (h : s.compile o = .ok c) :
    List.Forall₂ s.Arranged (s.knownEntries o) c.sections := by
  obtain ⟨_, _, xs, _, _, hxs, hsections, _⟩ := Score.compile_ok h
  unfold Score.knownEntries
  rw [hsections, ← s.map_fst_seeded o]
  generalize s.seeded o = entries at hxs
  clear hsections h
  -- Along the entries: one that is a section adds itself on both sides, any other to neither.
  induction hxs with
  | nil => exact .nil
  | @cons entry x rest xs hx _ ih =>
      rw [List.map_cons, List.flatMap_cons]
      cases x with
      | none =>
          rw [List.filter_cons_of_neg (by simp [hx.unknown])]
          exact ih
      | some x =>
          obtain ⟨hindex, hname, hbody⟩ := hx.occurs
          rw [List.filter_cons_of_pos (by simp [hbody])]
          exact .cons ⟨hindex, hname, hbody⟩ ih

theorem Score.occurrence_compilesTo (h : s.compile o = .ok c) :
    ∀ x ∈ c.sections, x.occurrence.CompilesTo s.patterns (s.effectiveSettings o).swing x :=
  fun _ hx => Occurrence.compile_yields (Score.yields_of_mem h hx)

/-- The samples of all automations of a section that begins at a beat and a time, path by path. -/
theorem Score.sampledEvenly (h : s.compile o = .ok c) :
    ∀ x ∈ c.sections, ∃ events, x.automation = events.flatten ∧
      List.Forall₂ (fun path samples => x.occurrence.SampledEvenly path.1 path.2 samples)
        x.occurrence.body.automation events := by
  intro x hx
  obtain ⟨events, hevents, hautomation⟩ := (Score.occurrence_compilesTo h x hx).sampled
  exact ⟨events, hautomation, hevents.imp fun _ _ => Occurrence.sample_ok⟩

/-- Each section with its marker is one of its own. -/
theorem Score.eq_markerAt (h : s.compile o = .ok c) (hproper : c.Proper)
    {p : SectionMarker Rat × CompiledSection Rat} (hp : p ∈ c.placed) :
    p.1 = p.2.markerAt p.1.beat p.1.time := by
  unfold Compilation.placed at hp
  rw [Score.markers_eq h hproper] at hp
  exact List.forall₂_zip (forall₂_markersFrom 0 0 c.sections) hp

omit [Elementary] in
theorem Compilation.mem_sections {p : SectionMarker Rat × CompiledSection Rat} (hp : p ∈ c.placed) :
    p.2 ∈ c.sections :=
  (List.of_mem_zip hp).2

/-- The markers of all sections are those of the timeline. -/
theorem Score.map_fst_placed (h : s.compile o = .ok c) (hproper : c.Proper) :
    c.placed.map (·.1) = c.timeline.sections := by
  refine List.map_fst_zip (le_of_eq ?_)
  rw [Score.markers_eq h hproper]
  exact (forall₂_markersFrom 0 0 c.sections).length_eq

/-- Every section has its place. -/
theorem Score.map_snd_placed (h : s.compile o = .ok c) (hproper : c.Proper) :
    c.placed.map (·.2) = c.sections := by
  refine List.map_snd_zip (le_of_eq ?_)
  rw [Score.markers_eq h hproper]
  exact (forall₂_markersFrom 0 0 c.sections).length_eq.symm

/-- No section begins before an earlier one has ended. -/
theorem Score.apart_placed (h : s.compile o = .ok c) (hproper : c.Proper) :
    c.placed.Pairwise fun p q => 0 ≤ p.1.beats ∧ p.1.beat + p.1.beats ≤ q.1.beat := by
  have hapart : (c.placed.map (·.1)).Pairwise fun m next =>
      0 ≤ m.beats ∧ m.beat + m.beats ≤ next.beat := by
    rw [Score.map_fst_placed h hproper, Score.markers_eq h hproper]
    exact apart_markersFrom fun x hx => Score.beats_nonneg h hx (hproper x hx).1
  exact List.pairwise_map.1 hapart

theorem Score.beats_nonneg_of_mem_placed (h : s.compile o = .ok c) (hproper : c.Proper)
    {p : SectionMarker Rat × CompiledSection Rat} (hp : p ∈ c.placed) : 0 ≤ p.1.beats := by
  have hx := Compilation.mem_sections hp
  rw [Score.eq_markerAt h hproper hp]
  exact Score.beats_nonneg h hx (hproper p.2 hx).1

/-- Every automation of a section has 21 samples, evenly from its marker to the end of the section. -/
def SectionMarker.Spans (m : SectionMarker Rat) (x : CompiledSection Rat) : Prop :=
  ∃ events, x.automationAt m.beat m.time = events.flatten ∧
    List.Forall₂ (fun path samples => samples.map (fun e => (e.path, e.beat)) =
        (List.range 21).map fun i : ℕ => (path.1, m.beat + i / 20 * m.beats))
      x.occurrence.body.automation events

theorem Score.spans (h : s.compile o = .ok c) (hproper : c.Proper) :
    ∀ p ∈ c.placed, p.1.Spans p.2 := by
  intro p hp
  obtain ⟨events, hautomation, hevents⟩ :=
    Score.sampledEvenly h p.2 (Compilation.mem_sections hp)
  have hbeats : p.1.beats = p.2.occurrence.beats := by
    rw [Score.eq_markerAt h hproper hp]
    rfl
  refine ⟨events.map (List.map fun e =>
    { e with beat := p.1.beat + e.beat, time := p.1.time + e.time }), ?_, ?_⟩
  · unfold CompiledSection.automationAt
    rw [hautomation, List.map_flatten]
  · -- Moving samples by the beat of the marker keeps their distances.
    rw [List.forall₂_map_right_iff]
    refine hevents.imp fun path samples hsamples => ?_
    have hsame : List.Forall₂ (· = ·)
        ((List.range 21).map fun i : ℕ => (path.1, p.1.beat + i / 20 * p.1.beats))
        (samples.map fun e => (e.path, p.1.beat + e.beat)) := by
      rw [List.forall₂_map_left_iff, List.forall₂_map_right_iff]
      refine hsamples.imp ?_
      rintro i e ⟨hpath, hbeat, _, _⟩
      rw [hpath, hbeat, hbeats]
    rw [List.forall₂_eq_eq_eq] at hsame
    rw [List.map_map, hsame]
    rfl

/-- Nothing in a section begins before its marker. -/
theorem Score.begins_notesAt (h : s.compile o = .ok c) (hproper : c.Proper) :
    ∀ p ∈ c.placed, ∀ n ∈ p.2.notesAt p.1.beat p.1.time, p.1.beat ≤ n.beat ∧ p.1.time ≤ n.time := by
  rintro ⟨m, x⟩ hp n hn
  have hx : x ∈ c.sections := Compilation.mem_sections hp
  have hcompiled := Score.occurrence_compilesTo h x hx
  obtain ⟨timed, hmem, rfl⟩ := List.mem_map.1 hn
  have hbeat : 0 ≤ timed.note.beat := hcompiled.inTrackOrder.beat_nonneg (List.mem_map_of_mem hmem)
  have htime : 0 ≤ timed.time := by
    obtain ⟨time, htime, htimed⟩ := Outcome.bind_ok (hcompiled.timed timed hmem)
    obtain ⟨finish, _, htimed⟩ := Outcome.bind_ok htimed
    rw [← Outcome.pure_ok htimed]
    exact Occurrence.secondsAt_nonneg (hproper x hx).2 hbeat htime
  exact ⟨le_add_of_nonneg_right hbeat, le_add_of_nonneg_right htime⟩

/-- The totals are where the last section ends. -/
theorem Score.totals_eq (h : s.compile o = .ok c) (hproper : c.Proper) :
    (c.timeline.totalBeats, c.timeline.totalSeconds) = endOf 0 0 c.timeline.sections := by
  rw [Score.markers_eq h hproper, endOf_markersFrom, ← Exact.start_eq, Score.timeline_eq h]
  rfl

/-- No note is lost or added. -/
theorem Score.totalNotes_eq (h : s.compile o = .ok c) (hproper : c.Proper) :
    c.stats.totalNotes = (c.sections.map (·.notes.length)).sum := by
  calc c.stats.totalNotes
      = (c.placed.flatMap fun p => p.2.notesAt p.1.beat p.1.time).length :=
        (Score.stablySorted_notes h hproper).perm.length_eq
    _ = (c.placed.map fun p => p.2.notes.length).sum := by
        simp only [List.length_flatMap, CompiledSection.notesAt, List.length_map]
    _ = ((c.placed.map (·.2)).map (·.notes.length)).sum := by
        rw [List.map_map]
        rfl
    _ = (c.sections.map (·.notes.length)).sum := by
        rw [Score.map_snd_placed h hproper]

/-- A compilation whose sections lie one after the other. -/
structure Compilation.LaidOut (c : Compilation Rat) (s : Score Rat) (o : CompileOptions Rat) :
    Prop where
  /-- The sections are the entries of the selection that are sections, in order. -/
  arranged : List.Forall₂ s.Arranged (s.knownEntries o) c.sections
  /-- Each section has the notes that its occurrence plays, all of them and no others, each at its time. -/
  played : ∀ x ∈ c.sections,
    (x.occurrence.play s.patterns (s.effectiveSettings o).swing).Yields (x.notes.map (·.note))
  timed : ∀ x ∈ c.sections, ∀ n ∈ x.notes, x.occurrence.timeNote n.note = .ok n
  /-- Each section plays its tracks, and each track its patterns, in order. -/
  inTrackOrder : ∀ x ∈ c.sections,
    x.occurrence.InTrackOrder s.patterns (x.notes.map (·.note))
  /-- Each section has its own marker, in the same order. -/
  marked : List.Forall₂ (fun m x => m = x.markerAt m.beat m.time) c.timeline.sections c.sections
  first : ∀ m ∈ c.timeline.sections.head?, m.beat = 0 ∧ m.time = 0
  chained : c.timeline.sections.IsChain fun m next => next.Follows m
  totals : (c.timeline.totalBeats, c.timeline.totalSeconds) = endOf 0 0 c.timeline.sections
  /-- The notes are those of all sections, stably sorted. -/
  notes : StablySorted (·.beat) (c.placed.flatMap fun p => p.2.notesAt p.1.beat p.1.time)
    c.timeline.notes
  counted : c.stats.totalNotes = (c.sections.map (·.notes.length)).sum
  /-- Nothing in a section begins before its marker. -/
  begins : ∀ p ∈ c.placed, ∀ n ∈ p.2.notesAt p.1.beat p.1.time,
    p.1.beat ≤ n.beat ∧ p.1.time ≤ n.time
  /-- The samples are those of all sections, stably sorted. -/
  automation : StablySorted (·.beat)
    (c.placed.flatMap fun p => p.2.automationAt p.1.beat p.1.time) c.timeline.automation
  /-- Every automation of a section has 21 samples, evenly from its start to its end. -/
  sampled : ∀ p ∈ c.placed, p.1.Spans p.2

/-- **Sections lie one after the other.** Whatever is arranged, skipped, left to chance or automated,
a compilation whose sections have no fewer than no bars and positive tempos is laid out. -/
theorem compile_laidOut (h : s.compile o = .ok c) (hproper : c.Proper) : c.LaidOut s o where
  arranged := Score.forall₂_arranged h
  played := fun x hx => (Score.occurrence_compilesTo h x hx).played
  timed := fun x hx => (Score.occurrence_compilesTo h x hx).timed
  inTrackOrder := fun x hx => (Score.occurrence_compilesTo h x hx).inTrackOrder
  marked := by
    rw [Score.markers_eq h hproper]
    exact forall₂_markersFrom 0 0 c.sections
  first := by
    rw [Score.markers_eq h hproper]
    exact head?_markersFrom 0 0 c.sections
  chained := by
    rw [Score.markers_eq h hproper]
    exact isChain_markersFrom 0 0 c.sections
  totals := Score.totals_eq h hproper
  notes := Score.stablySorted_notes h hproper
  counted := Score.totalNotes_eq h hproper
  begins := Score.begins_notesAt h hproper
  automation := Score.stablySorted_automation h hproper
  sampled := Score.spans h hproper

/-- A bar that climbs, a name of no section, a section without bars, and the bar once more. -/
def procession : Score Rat :=
  { Score.simple [("piano", ["C4:h", "E4:h"])] 1 100 "C major" with
    sections :=
      [("climb",
        { bars := 1
          tracks := [("piano", { patterns := ["piano"], repeats := 2 })]
          automation := [("tempo", { start := 60, finish := 120 })] }),
       ("halt", { bars := 0 })]
    arrangement := ["climb", "nowhere", "halt", "climb"] }

set_option maxRecDepth 10000 in
omit [Elementary] in
theorem procession_proper :
    letI := Elementary.coarse
    (procession.compile {}).toOption.any (fun c => c.sections.length = 3 &&
      c.sections.all fun x => 0 ≤ x.occurrence.body.bars && 0 < x.occurrence.tempo) = true := by
  decide +kernel

omit [Elementary] in
/-- The theorem at work: three sections of four entries, one of them without a length. -/
theorem procession_laidOut : ∃ _ : Elementary, ∃ c : Compilation Rat,
    procession.compile {} = .ok c ∧ c.Proper ∧ c.sections.length = 3 ∧ c.LaidOut procession {} := by
  let _ := Elementary.coarse
  obtain ⟨c, hc, hchecked⟩ := Outcome.exists_of_any procession_proper
  simp only [Bool.and_eq_true, decide_eq_true_eq, List.all_eq_true] at hchecked
  obtain ⟨hlength, hproper⟩ := hchecked
  exact ⟨_, c, hc, hproper, hlength, compile_laidOut hc hproper⟩

end Partitura

import Partitura.Proofs.Score.Layout

/-!
# Notes in the order of their times

A timeline is sorted by beat. Where no section automates its tempo, beats and times agree within a
section (§1), and sections follow each other in both. Across sections they need not agree: groove,
swing and human variation can move a note past the end of its section, into a section that runs at
another tempo while the note is still timed at its own.

Such notes are the only ones that can stand out of the order of times, and they do exactly if a note
of a later section is on different sides of them in beats and in seconds (`inTimeOrder_iff`). So times
are in order if no note hangs over the end of its section, or if all tempos are the same (§2). A note
that is overtaken shows that neither is to be left out (§3).
-/

namespace Partitura

/-! ## §1  Time at the tempo of a section -/

namespace SectionMarker

/-- When a beat comes, at the tempo of the section. -/
def timeAt (m : SectionMarker Rat) (beat : Rat) : Rat :=
  m.time + (beat - m.beat) * 60 / m.tempo

theorem timeAt_mono {m : SectionMarker Rat} (htempo : 0 < m.tempo) {b₁ b₂ : Rat} (hle : b₁ ≤ b₂) :
    m.timeAt b₁ ≤ m.timeAt b₂ := by
  unfold timeAt
  gcongr

/-- A note begins after its section has ended. -/
def Overhung (m : SectionMarker Rat) (n : NoteEvent Rat) : Prop :=
  m.beat + m.beats < n.beat

end SectionMarker

/-- Two notes come in the same order by beat and by time, the first one first if they share a beat. -/
def NoteEvent.InStep (n next : NoteEvent Rat) : Prop :=
  (n.beat ≤ next.beat → n.time ≤ next.time) ∧ (next.beat < n.beat → next.time ≤ n.time)

/-- No section automates its tempo. -/
def Compilation.Fixed (c : Compilation Rat) : Prop :=
  ∀ x ∈ c.sections, x.occurrence.body.automation.lookup AutomationPath.tempoPath = none

/-- The notes stand in the order of their times. -/
def Compilation.InTimeOrder (c : Compilation Rat) : Prop :=
  c.timeline.notes.Pairwise fun n next => n.time ≤ next.time

/-- Where each thing begins at the end of the one before and none has a negative length, none begins
before an earlier one has ended. -/
theorem apart_of_isChain {μ : Type} {start length : μ → Rat} {xs : List μ}
    (hchain : xs.IsChain fun x next => start next = start x + length x)
    (hlength : ∀ x ∈ xs, 0 ≤ length x) :
    xs.Pairwise fun x next => start x + length x ≤ start next := by
  have hstep : xs.IsChain fun x next => start x + length x ≤ start next ∧ 0 ≤ length next := by
    refine hchain.imp_of_mem_imp fun x next _ hnext hstart => ⟨le_of_eq hstart.symm, ?_⟩
    exact hlength next hnext
  have : IsTrans μ fun x next => start x + length x ≤ start next ∧ 0 ≤ length next :=
    ⟨fun x y z hxy hyz => ⟨by linarith [hxy.1, hxy.2, hyz.1], hyz.2⟩⟩
  exact (List.isChain_iff_pairwise.1 hstep).imp And.left

variable [Elementary] {s : Score Rat} {o : CompileOptions Rat} {c : Compilation Rat}

theorem Occurrence.secondsAt_fixed {o : Occurrence Rat} (htempo : 0 < o.tempo)
    (hfixed : o.body.automation.lookup AutomationPath.tempoPath = none) (beat : Rat) :
    o.secondsAt beat = .ok (beat * 60 / o.tempo) := by
  unfold secondsAt Section.secondsAt
  rw [hfixed]
  have hsixty : (60.0 : Rat) = 60 := by
    norm_num
  unfold beatsToSeconds
  rw [Exact.divide_eq (ne_of_gt htempo), hsixty]

/-- A note of a section comes when its beat does. -/
theorem Score.time_eq_timeAt (h : s.compile o = .ok c) (hproper : c.Proper) (hfixed : c.Fixed)
    {p : SectionMarker Rat × CompiledSection Rat} (hp : p ∈ c.placed) {n : NoteEvent Rat}
    (hn : n ∈ p.2.notesAt p.1.beat p.1.time) : n.time = p.1.timeAt n.beat := by
  have hx : p.2 ∈ c.sections := Compilation.mem_sections hp
  have htimed := (Occurrence.compile_yields (Score.yields_of_mem h hx)).timed
  obtain ⟨timed, hmem, rfl⟩ := List.mem_map.1 hn
  have htime : timed.time = timed.note.beat * 60 / p.2.occurrence.tempo := by
    obtain ⟨time, htime, hrest⟩ := Outcome.bind_ok (htimed timed hmem)
    obtain ⟨finish, _, hrest⟩ := Outcome.bind_ok hrest
    rw [← Outcome.pure_ok hrest]
    rw [Occurrence.secondsAt_fixed (hproper p.2 hx).2 (hfixed p.2 hx)] at htime
    exact (Except.ok.inj htime).symm
  have htempo : p.1.tempo = p.2.occurrence.tempo := by
    rw [Score.eq_markerAt h hproper hp]
    rfl
  unfold SectionMarker.timeAt
  rw [htempo, htime, add_sub_cancel_left]

/-- A section ends when its last beat does. -/
theorem Score.time_add_seconds (h : s.compile o = .ok c) (hproper : c.Proper) (hfixed : c.Fixed)
    {p : SectionMarker Rat × CompiledSection Rat} (hp : p ∈ c.placed) :
    p.1.time + p.1.seconds = p.1.timeAt (p.1.beat + p.1.beats) := by
  have hx : p.2 ∈ c.sections := Compilation.mem_sections hp
  have hseconds := (Occurrence.compile_yields (Score.yields_of_mem h hx)).seconds
  rw [Occurrence.secondsAt_fixed (hproper p.2 hx).2 (hfixed p.2 hx)] at hseconds
  have hvalue : p.2.seconds = p.2.occurrence.beats * 60 / p.2.occurrence.tempo :=
    (Except.ok.inj hseconds).symm
  unfold SectionMarker.timeAt
  rw [add_sub_cancel_left, Score.eq_markerAt h hproper hp]
  exact congrArg (p.1.time + ·) hvalue

theorem Score.tempo_pos_of_mem_placed (h : s.compile o = .ok c) (hproper : c.Proper)
    {p : SectionMarker Rat × CompiledSection Rat} (hp : p ∈ c.placed) : 0 < p.1.tempo := by
  rw [Score.eq_markerAt h hproper hp]
  exact (hproper p.2 (Compilation.mem_sections hp)).2

/-- No section begins before an earlier one has ended, in seconds as in beats. -/
theorem Score.apart_placed_time (h : s.compile o = .ok c) (hproper : c.Proper) (hfixed : c.Fixed) :
    c.placed.Pairwise fun p q => p.1.timeAt (p.1.beat + p.1.beats) ≤ q.1.time := by
  have hchain : c.timeline.sections.IsChain fun m next => next.time = m.time + m.seconds := by
    rw [Score.markers_eq h hproper]
    exact (isChain_markersFrom 0 0 c.sections).imp fun _ _ hfollows => hfollows.2
  have hlength : ∀ m ∈ c.timeline.sections, 0 ≤ m.seconds := by
    intro m hm
    rw [← Score.map_fst_placed h hproper] at hm
    obtain ⟨p, hp, rfl⟩ := List.mem_map.1 hm
    have hends := Score.time_add_seconds h hproper hfixed hp
    have hmono := SectionMarker.timeAt_mono (Score.tempo_pos_of_mem_placed h hproper hp)
      (le_add_of_nonneg_right (a := p.1.beat) (Score.beats_nonneg_of_mem_placed h hproper hp))
    have hstart : p.1.timeAt p.1.beat = p.1.time := by
      simp [SectionMarker.timeAt]
    linarith
  have hapart := apart_of_isChain hchain hlength
  rw [← Score.map_fst_placed h hproper] at hapart
  refine (List.pairwise_map.1 hapart).imp_of_mem fun hp _ hle => ?_
  rwa [← Score.time_add_seconds h hproper hfixed hp]

/-! ## §2  Notes that hang over -/

/-- A note that does not hang over is in step with all notes of later sections. -/
theorem Score.inStep_of_not_overhung (h : s.compile o = .ok c) (hproper : c.Proper)
    (hfixed : c.Fixed) {p q : SectionMarker Rat × CompiledSection Rat} (hp : p ∈ c.placed)
    (hq : q ∈ c.placed) (hbeat : p.1.beat + p.1.beats ≤ q.1.beat)
    (htime : p.1.timeAt (p.1.beat + p.1.beats) ≤ q.1.time) {n next : NoteEvent Rat}
    (hn : n ∈ p.2.notesAt p.1.beat p.1.time) (hnext : next ∈ q.2.notesAt q.1.beat q.1.time)
    (hinside : ¬ p.1.Overhung n) : n.InStep next := by
  have hend : n.beat ≤ p.1.beat + p.1.beats := not_lt.1 hinside
  obtain ⟨hafter, hlater⟩ := Score.begins_notesAt h hproper q hq next hnext
  have hearly : n.time ≤ q.1.time := by
    rw [Score.time_eq_timeAt h hproper hfixed hp hn]
    exact (SectionMarker.timeAt_mono (Score.tempo_pos_of_mem_placed h hproper hp) hend).trans htime
  exact ⟨fun _ => hearly.trans hlater, fun hlt => by linarith⟩

/-- **Times are in order up to notes that hang over**: they are in order exactly if every note that
begins after the end of its section is in step with all notes of later sections. -/
theorem Score.inTimeOrder_iff (h : s.compile o = .ok c) (hproper : c.Proper) (hfixed : c.Fixed) :
    c.InTimeOrder ↔ c.placed.Pairwise fun p q =>
      ∀ n ∈ p.2.notesAt p.1.beat p.1.time, p.1.Overhung n →
        ∀ next ∈ q.2.notesAt q.1.beat q.1.time, n.InStep next := by
  unfold Compilation.InTimeOrder
  rw [(Score.stablySorted_notes h hproper).pairwise_iff, List.pairwise_flatMap]
  constructor
  · rintro ⟨_, hacross⟩
    exact hacross.imp fun hstep n hn _ next hnext => hstep n hn next hnext
  · intro hacross
    refine ⟨fun p hp => ?_, ?_⟩
    · -- Within a section the times of notes are in the order of their beats.
      refine List.pairwise_of_forall_mem_list fun n hn next hnext => ?_
      rw [Score.time_eq_timeAt h hproper hfixed hp hn,
        Score.time_eq_timeAt h hproper hfixed hp hnext]
      have hmono {b₁ b₂ : Rat} (hle : b₁ ≤ b₂) : p.1.timeAt b₁ ≤ p.1.timeAt b₂ :=
        SectionMarker.timeAt_mono (Score.tempo_pos_of_mem_placed h hproper hp) hle
      exact ⟨hmono, fun hlt => hmono (le_of_lt hlt)⟩
    · have hplaces := (hacross.and (Score.apart_placed h hproper)).and
        (Score.apart_placed_time h hproper hfixed)
      refine hplaces.imp_of_mem @fun p q hp hq hboth n hn next hnext => ?_
      obtain ⟨⟨hstep, _, hbeat⟩, htime⟩ := hboth
      by_cases hover : p.1.Overhung n
      · exact hstep n hn hover next hnext
      · exact Score.inStep_of_not_overhung h hproper hfixed hp hq hbeat htime hn hnext hover

/-- At one tempo throughout, time is counted from the start as it is within a section. -/
theorem time_of_mem_markersFrom {tempo beat time : Rat} {xs : List (CompiledSection Rat)}
    (hseconds : ∀ x ∈ xs, x.seconds = x.occurrence.beats * 60 / tempo) :
    ∀ m ∈ markersFrom beat time xs, m.time = time + (m.beat - beat) * 60 / tempo := by
  induction xs generalizing beat time with
  | nil =>
      intro m hm
      cases hm
  | cons x xs ih =>
      intro m hm
      rw [markersFrom_cons] at hm
      rcases List.mem_cons.1 hm with rfl | hm
      · simp [CompiledSection.markerAt]
      · rw [ih (fun y hy => hseconds y (List.mem_cons_of_mem x hy)) m hm,
          hseconds x List.mem_cons_self]
        ring

/-- At one tempo throughout, every note comes when its beat does, in whatever section. -/
theorem Score.time_eq_of_oneTempo (h : s.compile o = .ok c) (hproper : c.Proper) (hfixed : c.Fixed)
    {tempo : Rat} (htempo : ∀ x ∈ c.sections, x.occurrence.tempo = tempo)
    {p : SectionMarker Rat × CompiledSection Rat} (hp : p ∈ c.placed) {n : NoteEvent Rat}
    (hn : n ∈ p.2.notesAt p.1.beat p.1.time) : n.time = n.beat * 60 / tempo := by
  have hseconds : ∀ x ∈ c.sections, x.seconds = x.occurrence.beats * 60 / tempo := by
    intro x hx
    have hseconds := (Occurrence.compile_yields (Score.yields_of_mem h hx)).seconds
    rw [Occurrence.secondsAt_fixed (hproper x hx).2 (hfixed x hx), htempo x hx] at hseconds
    exact (Except.ok.inj hseconds).symm
  have hmarker : p.1.time = 0 + (p.1.beat - 0) * 60 / tempo := by
    refine time_of_mem_markersFrom hseconds p.1 ?_
    rw [← Score.markers_eq h hproper, ← Score.map_fst_placed h hproper]
    exact List.mem_map_of_mem hp
  have hsame : p.1.tempo = tempo := by
    rw [Score.eq_markerAt h hproper hp]
    exact htempo p.2 (Compilation.mem_sections hp)
  rw [Score.time_eq_timeAt h hproper hfixed hp hn, SectionMarker.timeAt, hmarker, hsame]
  ring

/-- **When times are in order.** In a score without tempo automation the notes of the timeline, which
are sorted by beat, come in the order of their times exactly if every note that begins after the end of
its section is in step with all notes of later sections. So they do if no note hangs over, and if all
sections have the same tempo. -/
theorem compile_inTimeOrder_iff (h : s.compile o = .ok c) (hproper : c.Proper)
    (hfixed : c.Fixed) :
    (c.InTimeOrder ↔ c.placed.Pairwise fun p q =>
      ∀ n ∈ p.2.notesAt p.1.beat p.1.time, p.1.Overhung n →
        ∀ next ∈ q.2.notesAt q.1.beat q.1.time, n.InStep next) ∧
    ((∀ p ∈ c.placed, ∀ n ∈ p.2.notesAt p.1.beat p.1.time, ¬ p.1.Overhung n) →
      c.InTimeOrder) ∧
    ∀ tempo, (∀ x ∈ c.sections, x.occurrence.tempo = tempo) → c.InTimeOrder := by
  have hiff := Score.inTimeOrder_iff h hproper hfixed
  refine ⟨hiff, fun hinside => hiff.2 ?_, fun tempo htempo => hiff.2 ?_⟩
  · refine List.pairwise_of_forall_mem_list fun p hp _ _ n hn hover => ?_
    exact absurd hover (hinside p hp n hn)
  · refine List.pairwise_of_forall_mem_list fun p hp q hq n hn _ next hnext => ?_
    have hnonneg : 0 ≤ tempo := by
      rw [← htempo p.2 (Compilation.mem_sections hp)]
      exact le_of_lt (hproper p.2 (Compilation.mem_sections hp)).2
    unfold NoteEvent.InStep
    rw [Score.time_eq_of_oneTempo h hproper hfixed htempo hp hn,
      Score.time_eq_of_oneTempo h hproper hfixed htempo hq hnext]
    exact ⟨fun hle => by gcongr, fun hlt => by gcongr⟩

/-! ## §3  A note that is overtaken -/

/-- A bar at a tempo of 60 whose last note a groove delays past its end, and a bar at another tempo. -/
def dragging (tempo : Rat) : Score Rat :=
  { Score.simple [("late", ["r:h. r:8. r:32. C4:32"]), ("early", ["r:32 E4:q"])] 1 60 "C major" with
    sections :=
      [("slow", { bars := 1, tracks := [("piano", { patterns := ["late"], groove := .text "dilla" })] }),
       ("fast", { bars := 1, tempo := some tempo, tracks := [("piano", { patterns := ["early"] })] })]
    arrangement := ["slow", "fast"] }

/-- Whether two bars were compiled: a slow one with a note that the groove has moved past its end, and
one with a note an eighth of a beat from its start. -/
def drags (tempo : Rat) (c : Compilation Rat) : Bool :=
  match c.sections with
  | [a, b] =>
    [a, b].all (fun x => x.occurrence.body.bars = 1 && x.occurrence.body.automation.isEmpty) &&
      a.occurrence.tempo = 60 && a.occurrence.beats = 4 && a.seconds = 4 &&
      a.notes.any (fun n => n.note.beat = 1611 / 400 && n.time = 1611 / 400) &&
      b.occurrence.tempo = tempo &&
      b.notes.any (fun n => n.note.beat = 1 / 8 && n.time = 1 / 8 * 60 / tempo)
  | _ => false

omit [Elementary] in
set_option maxRecDepth 10000 in
theorem dragging_drags_alike :
    letI := Elementary.coarse
    ((dragging 60).compile {}).toOption.any (drags 60) = true := by
  decide +kernel

omit [Elementary] in
set_option maxRecDepth 10000 in
theorem dragging_drags_apart :
    letI := Elementary.coarse
    ((dragging 480).compile {}).toOption.any (drags 480) = true := by
  decide +kernel

/-- A note of a section, laid out. -/
theorem exists_mem_notesAt {x : CompiledSection Rat} (beat time : Rat) {b t : Rat}
    (h : x.notes.any (fun n => n.note.beat = b && n.time = t) = true) :
    ∃ n ∈ x.notesAt beat time, n.beat = beat + b ∧ n.time = time + t := by
  obtain ⟨timed, hmem, h⟩ := List.any_eq_true.1 h
  simp only [Bool.and_eq_true, decide_eq_true_eq] at h
  exact ⟨_, List.mem_map_of_mem hmem, by rw [h.1], by rw [h.2]⟩

/-- The two bars laid out. The note of the first one hangs over. -/
theorem drags_placed {tempo : Rat} (htempo : 0 < tempo) (h : s.compile o = .ok c)
    (hdrags : drags tempo c = true) : c.Proper ∧ c.Fixed ∧
      (∀ x ∈ c.sections, x.occurrence.tempo = 60 ∨ x.occurrence.tempo = tempo) ∧
      ∃ p q, c.placed = [p, q] ∧
        (∃ n ∈ p.2.notesAt p.1.beat p.1.time,
          p.1.Overhung n ∧ n.beat = 1611 / 400 ∧ n.time = 1611 / 400) ∧
        ∃ next ∈ q.2.notesAt q.1.beat q.1.time,
          next.beat = 33 / 8 ∧ next.time = 4 + 1 / 8 * 60 / tempo := by
  unfold drags at hdrags
  split at hdrags
  · next a b hsections =>
      simp only [List.all_cons, List.all_nil, Bool.and_eq_true, Bool.and_true, decide_eq_true_eq,
        List.isEmpty_iff] at hdrags
      obtain ⟨⟨⟨⟨⟨⟨⟨⟨habars, haplain⟩, hbbars, hbplain⟩, hatempo⟩, habeats⟩, haseconds⟩, hanote⟩,
        hbtempo⟩, hbnote⟩ := hdrags
      have hproper : c.Proper := by
        unfold Compilation.Proper
        rw [hsections]
        simp [habars, hbbars, hatempo, hbtempo, htempo]
      have hfixed : c.Fixed := by
        unfold Compilation.Fixed
        rw [hsections]
        simp [haplain, hbplain]
      have hplaced : c.placed = [(a.markerAt 0 0, a), (b.markerAt 4 4, b)] := by
        unfold Compilation.placed
        rw [Score.markers_eq h hproper, hsections, markersFrom_cons, markersFrom_cons, habeats,
          haseconds]
        norm_num
      obtain ⟨n, hn, hbeat, htime⟩ := exists_mem_notesAt 0 0 hanote
      obtain ⟨next, hnext, hbeat', htime'⟩ := exists_mem_notesAt 4 4 hbnote
      refine ⟨hproper, hfixed, ?_, _, _, hplaced, ⟨n, hn, ?_, ?_, ?_⟩, next, hnext, ?_, htime'⟩
      · rw [hsections]
        simp [hatempo, hbtempo]
      · change 0 + a.occurrence.beats < n.beat
        rw [habeats, hbeat]
        norm_num
      · rw [hbeat, zero_add]
      · rw [htime, zero_add]
      · rw [hbeat']
        norm_num
  · cases hdrags

omit [Elementary] in
/-- The theorem at work: a note hangs over, but the tempo is the same, so times are in order. -/
theorem inTimeOrder_dragging_alike : ∃ _ : Elementary, ∃ c : Compilation Rat,
    (dragging 60).compile {} = .ok c ∧ c.Proper ∧ c.Fixed ∧
      (∃ p ∈ c.placed, ∃ n ∈ p.2.notesAt p.1.beat p.1.time, p.1.Overhung n) ∧ c.InTimeOrder := by
  let _ := Elementary.coarse
  obtain ⟨c, hc, hdrags⟩ := Outcome.exists_of_any dragging_drags_alike
  obtain ⟨hproper, hfixed, htempo, p, q, hplaced, ⟨n, hn, hover, _⟩, _⟩ :=
    drags_placed (by norm_num) hc hdrags
  refine ⟨_, c, hc, hproper, hfixed, ⟨p, ?_, n, hn, hover⟩, ?_⟩
  · rw [hplaced]
    exact List.mem_cons_self
  · exact (compile_inTimeOrder_iff hc hproper hfixed).2.2 60 fun x hx => (htempo x hx).elim id id

omit [Elementary] in
/-- **A note is overtaken.** Bars, tempos and swing are in order and no tempo is automated, but the note
that hangs over comes first in the timeline and later in time than the note after it. -/
theorem dragging_out_of_order : ∃ _ : Elementary, ∃ c : Compilation Rat,
    (dragging 480).compile {} = .ok c ∧ c.Proper ∧ c.Fixed ∧
      0 ≤ (dragging 480).settings.swing ∧ (dragging 480).settings.swing ≤ 1 ∧
      ¬ c.InTimeOrder := by
  let _ := Elementary.coarse
  obtain ⟨c, hc, hdrags⟩ := Outcome.exists_of_any dragging_drags_apart
  obtain ⟨hproper, hfixed, _, p, q, hplaced, ⟨n, hn, hover, hbeat, htime⟩, next, hnext, hbeat',
    htime'⟩ := drags_placed (by norm_num) hc hdrags
  have hswing : (dragging 480).settings.swing = 0 := by
    decide +kernel
  refine ⟨_, c, hc, hproper, hfixed, le_of_eq hswing.symm, ?_, fun horder => ?_⟩
  · rw [hswing]
    norm_num
  · have hacross := (Score.inTimeOrder_iff hc hproper hfixed).1 horder
    rw [hplaced, List.pairwise_pair] at hacross
    have hle := (hacross n hn hover next hnext).1 (by rw [hbeat, hbeat']; norm_num)
    rw [htime, htime'] at hle
    norm_num at hle

end Partitura

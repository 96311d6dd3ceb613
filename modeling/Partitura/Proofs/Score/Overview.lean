import Partitura.Number.Exact
import Partitura.Proofs.Ordered
import Partitura.Proofs.Score.Entries
import Partitura.Proofs.Score.Playing
import Partitura.Score.Analysis

/-!
# A score looked over and compiled

Looking a score over takes the sections of the arrangement by their names and plays nothing of them.
Compiling it walks the arrangement entry by entry and plays everything. Both come to the same sections
and the same times (`analyze_agrees`): whenever a score compiles it can be looked over, and what was
said beforehand of its sections, its bars and its duration holds of the compilation to the last bit.

Only the instruments may differ. A track is listed whether or not any of its notes sounds, so those of
the compilation are among those of the analysis.
-/

namespace Partitura

variable {α : Type} [Scalar α]

/-! ## §1  The sections of an arrangement -/

/-- The section of a name, with the name. -/
def Score.named? (s : Score α) (name : String) : Option (String × Section α) :=
  (s.sections.lookup name).map fun body => (name, body)

/-- A section of the arrangement and what it was compiled to: the same section under the same name,
and the time that it takes without being played. -/
structure Section.BecomesTimed (settings : Settings α) (beatsPerBar : α)
    (arranged : String × Section α) (x : CompiledSection α) : Prop where
  name : x.occurrence.name = arranged.1
  body : x.occurrence.body = arranged.2
  seconds : arranged.2.seconds settings beatsPerBar = .ok x.seconds

/-- An entry that comes to a section takes the time of the section. -/
theorem Score.CompilesTo.timed {s : Score α} {settings : Settings α} {beatsPerBar : α}
    {entry : (Nat × String) × Nat} {x : CompiledSection α}
    (h : s.CompilesTo settings beatsPerBar entry (some x)) :
    ∃ arranged, s.named? entry.1.2 = some arranged ∧
      Section.BecomesTimed settings beatsPerBar arranged x := by
  obtain ⟨body, hbody, hoccur, hyields⟩ := h.compiled
  have hseconds := (Occurrence.compile_yields hyields).seconds
  obtain ⟨key, _, hoccur⟩ := Outcome.bind_ok hoccur
  have hoccurrence := Outcome.pure_ok hoccur
  refine ⟨(entry.1.2, body), ?_, ?_⟩
  · unfold Score.named?
    rw [hbody]
    rfl
  · rw [← hoccurrence] at hseconds
    exact ⟨by rw [← hoccurrence], by rw [← hoccurrence], hseconds⟩

/-- Along the entries of a compilation: one that is a section adds itself on both sides, any other to
neither. -/
theorem Score.forall₂_timed {s : Score α} {settings : Settings α} {beatsPerBar : α}
    {entries : List ((Nat × String) × Nat)} {xs : List (Option (CompiledSection α))}
    (h : List.Forall₂ (s.CompilesTo settings beatsPerBar) entries xs) :
    List.Forall₂ (Section.BecomesTimed settings beatsPerBar)
      ((entries.map (·.1.2)).filterMap s.named?) (xs.flatMap Option.toList) := by
  induction h with
  | nil => exact .nil
  | @cons entry x entries xs hx _ ih =>
      rw [List.map_cons, List.flatMap_cons]
      -- A name of no section is left out on both sides.
      cases x with
      | none =>
          have hnone : s.named? entry.1.2 = none := by
            unfold Score.named?
            rw [hx.unknown]
            rfl
          rw [List.filterMap_cons_none hnone]
          exact ih
      | some x =>
          obtain ⟨arranged, hsome, htimed⟩ := hx.timed
          rw [List.filterMap_cons_some hsome]
          exact .cons htimed ih

omit [Scalar α] in
/-- The names of a whole arrangement are compiled in their order. -/
theorem Score.names_seeded (s : Score α) {o : CompileOptions α} (hstart : o.startSection = none)
    (hend : o.endSection = none) : (s.seeded o).map (·.1.2) = s.arrangement := by
  have hnames : (s.seeded o).map (·.1.2) = ((s.seeded o).map (·.1)).map (·.2) := by
    rw [List.map_map]
    rfl
  rw [hnames, s.map_fst_seeded, s.selection_whole hstart hend, List.map_map]
  exact List.zipIdx_map_fst 0 s.arrangement

/-- Options that change nothing keep the settings. -/
theorem Score.effectiveSettings_plain (s : Score α) {o : CompileOptions α} (htempo : o.tempo = none)
    (hkey : o.key = none) : s.effectiveSettings o = s.settings := by
  unfold Score.effectiveSettings
  rw [htempo, hkey]
  rfl

/-! ## §2  Who plays -/

/-- Whatever an occurrence plays is played by one of its tracks. -/
theorem Occurrence.InTrackOrder.instrument_mem {o : Occurrence α} {patterns : PatternTable α}
    {played : List (PlayedNote α)} (h : o.InTrackOrder patterns played) {n : PlayedNote α}
    (hn : n ∈ played) : n.instrument ∈ o.body.tracks.map (·.1) := by
  obtain ⟨density, parts, hparts, rfl⟩ := h
  obtain ⟨part, hpart, hn⟩ := List.mem_flatten.1 hn
  obtain ⟨track, htrack, hplays⟩ := exists_of_mem_right hparts hpart
  cases hplays with
  | mute => cases hn
  | sounding _ _ _ hplayed =>
      obtain ⟨m, _, hm⟩ := exists_of_mem_right hplayed hn
      rw [hm.instrument]
      exact List.mem_map_of_mem htrack

/-- Laying sections out keeps them. -/
theorem map_section_placeSections (beat time : α) (xs : List (CompiledSection α)) :
    (placeSections beat time xs).map (·.2.2) = xs := by
  induction xs generalizing beat time with
  | nil => rfl
  | cons x xs ih => rw [placeSections, List.map_cons, ih]

/-- Every note of a draft is that of a section, wherever the section begins. -/
theorem exists_of_mem_draftOf {settings : Settings α} {sections : List (CompiledSection α)}
    {n : NoteEvent α} (hn : n ∈ (draftOf settings sections).notes) :
    ∃ x ∈ sections, ∃ beat time, n ∈ x.notesAt beat time := by
  obtain ⟨⟨beat, time, x⟩, hplaced, hn⟩ := List.mem_flatMap.1 hn
  refine ⟨x, ?_, beat, time, hn⟩
  rw [← map_section_placeSections 0.0 0.0 sections]
  exact List.mem_map_of_mem (f := fun p : α × α × CompiledSection α => p.2.2) hplaced

/-- Every instrument of a timeline has a track in one of the compiled sections. -/
theorem Compilation.instrument_mem {s : Score α} {o : CompileOptions α} {c : Compilation α}
    (h : s.compile o = .ok c) {instrument : String} (hi : instrument ∈ c.timeline.instruments) :
    ∃ x ∈ c.sections, instrument ∈ x.occurrence.body.tracks.map (·.1) := by
  rw [Score.timeline_eq h] at hi
  obtain ⟨n, hn, rfl⟩ := List.mem_map.1 (Ordered.mem_distinct.1 hi)
  obtain ⟨x, hx, beat, time, hn⟩ := exists_of_mem_draftOf hn
  obtain ⟨timed, htimed, rfl⟩ := List.mem_map.1 hn
  have horder := (Occurrence.compile_yields (Score.yields_of_mem h hx)).inTrackOrder
  exact ⟨x, hx, horder.instrument_mem (List.mem_map_of_mem htimed)⟩

/-! ## §3  The whole -/

/-- A score looked over says of its sections what a compilation finds. -/
structure ScoreAnalysis.Agrees (a : ScoreAnalysis α) (c : Compilation α) : Prop where
  /-- The sections are compiled in the order given, under the same names and with the same bars. -/
  sections : a.sections.map (fun x => (x.name, x.bars)) =
    c.sections.map fun x => (x.occurrence.name, x.occurrence.body.bars)
  names : a.sections.map (·.name) = c.stats.sections
  /-- The markers of the timeline are those of the sections, sorted by beat. -/
  marked : ∃ markers, markers.map (fun m => (m.name, m.bars)) =
      a.sections.map (fun x => (x.name, x.bars)) ∧
    c.timeline.sections = sortByBeat (·.beat) markers
  totalSections : a.totalSections = c.stats.totalSections
  totalBars : a.totalBars = c.stats.totalBars
  durationSeconds : a.durationSeconds = c.stats.durationSeconds
  instruments : ∀ i ∈ c.stats.instruments, i ∈ a.instruments

/-- Sections that become timed, one after the other, have the same names and bars. -/
theorem Section.map_of_becomesTimed {β : Type} {settings : Settings α} {beatsPerBar : α}
    {arranged : List (String × Section α)} {xs : List (CompiledSection α)}
    (h : List.Forall₂ (Section.BecomesTimed settings beatsPerBar) arranged xs)
    (f : String → Section α → β) :
    arranged.map (fun p => f p.1 p.2) = xs.map fun x => f x.occurrence.name x.occurrence.body := by
  induction h with
  | nil => rfl
  | cons hx _ ih => rw [List.map_cons, List.map_cons, ih, hx.name, hx.body]

/-- What is said of a score whose sections take these seconds. -/
def Score.summary (s : Score α) (seconds : List α) : ScoreAnalysis α where
  totalSections := s.arranged.length
  totalBars := s.arranged.foldl (fun bars p => bars + p.2.bars) 0.0
  instruments := Ordered.distinct (s.arranged.flatMap fun p => p.2.tracks.map (·.1))
  durationSeconds := seconds.foldl (· + ·) 0.0
  sections := s.arranged.map fun p =>
    { name := p.1, bars := p.2.bars, instruments := p.2.tracks.map (·.1) }
  patterns := s.patterns.map (·.1)

/-- A score can be looked over if its bars have a length and each of its sections takes a time. -/
theorem Score.analyze_ok {s : Score α} {meter : TimeSignature} {beatsPerBar : α} {seconds : List α}
    (hmeter : TimeSignature.parse (α := α) (.text s.settings.timeSignature) = .ok meter)
    (hbeats : meter.beatsPerBar = .ok beatsPerBar)
    (hseconds : s.arranged.mapM (fun p => p.2.seconds s.settings beatsPerBar) = .ok seconds) :
    s.analyze = .ok (s.summary seconds) := by
  unfold Score.analyze
  rw [hmeter, Outcome.ok_bind, hbeats, Outcome.ok_bind]
  dsimp only
  rw [hseconds, Outcome.ok_bind]
  rfl

variable {s : Score α} {c : Compilation α}

/-- A compilation agrees with what is said of sections that become its own. -/
theorem Score.summary_agrees {o : CompileOptions α} {beatsPerBar : α} (h : s.compile o = .ok c)
    (htimed : List.Forall₂ (Section.BecomesTimed s.settings beatsPerBar) s.arranged c.sections) :
    (s.summary (c.sections.map (·.seconds))).Agrees c := by
  have hmap {β : Type} (f : String → Section α → β) := Section.map_of_becomesTimed htimed f
  have htimeline := Score.timeline_eq h
  have hsections : (s.summary (c.sections.map (·.seconds))).sections.map
      (fun x => (x.name, x.bars)) =
        c.sections.map fun x => (x.occurrence.name, x.occurrence.body.bars) := by
    rw [← hmap fun name body => (name, body.bars)]
    exact List.map_map
  refine ⟨hsections, ?_, ?_, htimed.length_eq, ?_, ?_, fun i hi => ?_⟩
  · exact List.map_map.trans (hmap fun name _ => name)
  · refine ⟨(placeSections 0.0 0.0 c.sections).map fun p => p.2.2.markerAt p.1 p.2.1, ?_, ?_⟩
    · rw [hsections, List.map_map]
      conv => rhs; rw [← map_section_placeSections 0.0 0.0 c.sections, List.map_map]
      rfl
    · rw [htimeline]
      rfl
  · have hbars : s.arranged.map (fun p => p.2.bars) = c.sections.map (·.occurrence.body.bars) :=
      hmap fun _ body => body.bars
    change s.arranged.foldl (fun bars p => bars + p.2.bars) 0.0 =
      c.sections.foldl (fun bars x => bars + x.occurrence.body.bars) 0.0
    rw [← List.foldl_map (f := fun p : String × Section α => p.2.bars) (g := (· + ·)), hbars,
      List.foldl_map]
  · change (c.sections.map (·.seconds)).foldl (· + ·) 0.0 = c.timeline.totalSeconds
    rw [htimeline, List.foldl_map]
    rfl
  · obtain ⟨x, hx, hi⟩ := Compilation.instrument_mem h hi
    have htracks : s.arranged.map (fun p => p.2.tracks.map (·.1)) =
        c.sections.map fun x => x.occurrence.body.tracks.map (·.1) :=
      hmap fun _ body => body.tracks.map (·.1)
    refine Ordered.mem_distinct.2 ?_
    rw [List.flatMap_def, htracks, ← List.flatMap_def]
    exact List.mem_flatMap.2 ⟨x, hx, hi⟩

/-- **Looking a score over agrees with compiling it.** If a score compiles, from any seed and with
options that neither cut it nor change its tempo or key, it can be looked over as well: the sections
are the same in the same order, with the same bars, and so are their number, the sum of the bars and,
to the last bit, the duration, whether or not tempos are automated. Who plays is among those listed. -/
theorem analyze_agrees {o : CompileOptions α} (hstart : o.startSection = none)
    (hend : o.endSection = none) (htempo : o.tempo = none) (hkey : o.key = none)
    (h : s.compile o = .ok c) : ∃ a, s.analyze = .ok a ∧ a.Agrees c := by
  obtain ⟨meter, beatsPerBar, xs, hmeter, hbeats, hxs, hsections, _⟩ := Score.compile_ok h
  have htimed : List.Forall₂ (Section.BecomesTimed s.settings beatsPerBar) s.arranged c.sections := by
    have hforall := Score.forall₂_timed hxs
    rw [s.names_seeded hstart hend, s.effectiveSettings_plain htempo hkey, ← hsections] at hforall
    exact hforall
  have hseconds : s.arranged.mapM (fun p => p.2.seconds s.settings beatsPerBar) =
      .ok (c.sections.map (·.seconds)) :=
    Outcome.mapM_of_forall₂ (List.forall₂_map_right_iff.2 (htimed.imp fun _ _ hx => hx.seconds))
  exact ⟨_, Score.analyze_ok hmeter hbeats hseconds, Score.summary_agrees h htimed⟩

/-- A bar that climbs with a flute that keeps silent, a name of no section, two empty bars, and the
first bar once more. -/
def outing [Elementary] : Score Rat :=
  { Score.simple [("piano", ["C4:q", "E4:q"])] 1 120 "C major" with
    sections :=
      [("climb",
        { bars := 1
          tracks := [("flute", { patterns := ["piano"], mute := true }),
            ("piano", { patterns := ["piano"] })]
          automation := [("tempo", { start := 60, finish := 120 })] }),
       ("rest", { bars := 2, tempo := some 90 })]
    arrangement := ["climb", "nowhere", "rest", "climb"] }

set_option maxRecDepth 10000 in
theorem outing_compiles :
    letI := Elementary.coarse
    (outing.compile { seed := 7 }).toOption.any (fun c => c.stats.instruments = ["piano"]) = true := by
  decide +kernel

/-- The theorem at work: three sections of four entries, and a flute that is listed but not heard. -/
theorem outing_agrees : ∃ _ : Elementary, ∃ (a : ScoreAnalysis Rat) (c : Compilation Rat),
    outing.compile { seed := 7 } = .ok c ∧ outing.analyze = .ok a ∧ a.Agrees c ∧
      a.totalSections = 3 ∧ c.stats.instruments = ["piano"] := by
  let _ := Elementary.coarse
  obtain ⟨c, hc, hinstruments⟩ := Outcome.exists_of_any outing_compiles
  obtain ⟨a, ha, hagrees⟩ := analyze_agrees rfl rfl rfl rfl hc
  obtain ⟨a', ha', hthree⟩ := Outcome.exists_of_any (r := outing.analyze)
    (p := fun a => a.totalSections = 3) (by decide +kernel)
  obtain rfl : a = a' := Except.ok.inj (ha.symm.trans ha')
  exact ⟨_, a, c, hc, ha, hagrees, of_decide_eq_true hthree, of_decide_eq_true hinstruments⟩

end Partitura

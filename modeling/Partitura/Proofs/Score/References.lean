import Partitura.Number.Exact
import Partitura.Proofs.Pattern.Reports
import Partitura.Proofs.Score.Entries
import Partitura.Score.Analysis

/-!
# Names that lead nowhere

Looking a score over finds the entries of the arrangement that are no sections and the names on tracks
that are no patterns, and nothing inside a pattern. If it finds nothing, a compilation reports no entry
and no name on a track, and what it reports to be missing is named inside a pattern of the table
(`Score.reports_inside_patterns`). An heir whose parent is missing shows that this does happen
(`orphan_reported`).
-/

namespace Partitura

open Run (Reports)

variable {α : Type} [Scalar α] {β : Type}

/-! ## §1  What a score without problems names -/

theorem exists_lookup_of_hasEntry {table : List (String × β)} {name : String}
    (h : hasEntry table name = true) : ∃ x, table.lookup name = some x := by
  refine Option.ne_none_iff_exists'.1 fun hnone => ?_
  obtain ⟨entry, hentry, hname⟩ := List.any_eq_true.1 h
  have hne := List.lookup_eq_none_iff.1 hnone entry hentry
  simp [of_decide_eq_true hname] at hne

variable {s : Score α}

omit [Scalar α] in
/-- Every entry of the arrangement is a section. -/
theorem Score.entry_of_problems (h : s.problems = []) {name : String} (hname : name ∈ s.arrangement) :
    ∃ body, s.sections.lookup name = some body := by
  have hunknown : s.unknownSections = [] := (List.append_eq_nil_iff.1 (List.append_eq_nil_iff.1 h).1).1
  refine exists_lookup_of_hasEntry (Bool.of_not_eq_false fun hmissing => ?_)
  have hfilter := List.map_eq_nil_iff.1 hunknown
  exact List.filter_eq_nil_iff.1 hfilter name hname (by rw [hmissing]; rfl)

omit [Scalar α] in
/-- Every name on a track is a pattern. -/
theorem Score.part_of_problems (h : s.problems = []) {sectionName trackName name : String}
    {body : Section α} {track : Track α} (hbody : (sectionName, body) ∈ s.sections)
    (htrack : (trackName, track) ∈ body.tracks) (hname : name ∈ track.patterns) :
    ∃ p, s.patterns.lookup name = some p := by
  have hunknown : s.unknownPatterns = [] := (List.append_eq_nil_iff.1 (List.append_eq_nil_iff.1 h).1).2
  refine exists_lookup_of_hasEntry (Bool.of_not_eq_false fun hmissing => ?_)
  have htracks := List.flatMap_eq_nil_iff.1 hunknown _ hbody
  have hfilter := List.map_eq_nil_iff.1 (List.flatMap_eq_nil_iff.1 htracks _ htrack)
  exact List.filter_eq_nil_iff.1 hfilter name hname (by rw [hmissing]; rfl)

/-! ## §2  Tracks and occurrences -/

/-- Names that are all in the table. -/
def PatternTable.Covers (t : PatternTable α) (names : List String) : Prop :=
  ∀ name ∈ names, ∃ p, t.lookup name = some p

theorem reports_expandNames {c : Context α} {names : List String} (h : c.patterns.Covers names)
    (cursor : α) : Reports (Accounted c.patterns) (expandNames c cursor names) := by
  induction names generalizing cursor with
  | nil => exact .pure _
  | cons name rest ih =>
      obtain ⟨⟨p, hp⟩, hrest⟩ := List.forall_mem_cons.1 h
      unfold expandNames
      split
      · next hnone => cases hnone.symm.trans hp
      · next p hp =>
          exact (Pattern.reports_expand ⟨name, hp⟩).bind fun _ _ => (ih hrest _).bind fun _ _ => .pure _

theorem reports_expandPasses {c : Context α} {names : List String} (h : c.patterns.Covers names)
    (count : Nat) (cursor : α) :
    Reports (Accounted c.patterns) (expandPasses c names count cursor) := by
  induction count generalizing cursor with
  | zero => exact .pure _
  | succ count ih => exact (reports_expandNames h _).bind fun _ _ => (ih _).bind fun _ _ => .pure _

namespace Occurrence

variable {o : Occurrence α} {t : PatternTable α}

/-- The report of a track without patterns ends in another letter than any report of a name. -/
theorem accounted_noPattern (track : String) :
    Accounted t ("Section \"" ++ o.name ++ "\" track \"" ++ track ++ "\" has no pattern") := by
  refine .inl fun k name heq => ?_
  have hlast : ("Section \"" ++ o.name ++ "\" track \"" ++ track ++ "\" has no pattern").toList.getLast?
      = some 'n' := by
    rw [String.toList_append, List.getLast?_append]
    rfl
  have hreport := k.getLast?_report name
  rw [heq, hlast] at hreport
  simp at hreport

omit [Scalar α] in
theorem reports_inTrack {P : String → Prop} {r : Run β} (hr : Reports P r) (track : String) :
    Reports P (o.inTrack track r) := by
  intro s x s' h
  unfold inTrack at h
  split at h
  · cases h
  · next hx =>
      cases h
      exact hr s x s' hx

theorem reports_playTrack {swing : α} {density : Option α} {name : String} {track : Track α}
    (h : t.Covers track.patterns) :
    Reports (Accounted t) (o.playTrack t swing density name track) := by
  unfold playTrack
  split
  · exact .pure _
  · split
    · exact (Reports.warn (accounted_noPattern name)).bind fun _ _ => .pure _
    · exact (reports_inTrack (reports_expandPasses h _ _) name).bind fun notes _ =>
        ((Reports.named? _ _).bind fun _ _ => .pure _).bind fun performance _ =>
          (Reports.named? _ _).bind fun _ _ => (Reports.ofDraw _).bind fun _ _ => .pure _

theorem reports_compile {swing : α} (h : ∀ track ∈ o.body.tracks, t.Covers track.2.patterns) :
    Reports (Accounted t) (o.compile t swing) := by
  have density : Reports (Accounted t) o.startDensity := by
    unfold startDensity
    split
    · exact .pure _
    · exact (Reports.plainAll (clear_densityWarnings _)).bind fun _ _ => (Reports.lift _).map
  have play : Reports (Accounted t) (o.play t swing) :=
    density.bind fun _ _ =>
      (Reports.mapM fun track htrack => reports_playTrack (h track htrack)).bind fun _ _ => .pure _
  exact play.bind fun _ _ => (Reports.lift _).bind fun _ _ =>
    (Reports.mapM fun _ _ =>
      (Reports.plainAll (clear_automationWarnings _ _)).bind fun _ _ => .lift _).bind fun _ _ =>
        (Reports.lift _).bind fun _ _ => .pure _

end Occurrence

/-! ## §3  Whole scores -/

theorem Score.accounted_compileEntry (hproblems : s.problems = []) {settings : Settings α}
    {beatsPerBar : α} {index seed : Nat} {name : String} (hname : name ∈ s.arrangement)
    {x : Option (CompiledSection α)} {w w' : Warnings}
    (h : s.compileEntry settings beatsPerBar index name seed w = .ok (x, w')) :
    ∀ m ∈ w', m ∈ w ∨ Accounted s.patterns m := by
  obtain ⟨body, hbody⟩ := Score.entry_of_problems hproblems hname
  unfold Score.compileEntry at h
  generalize Twister.ofSeed seed = stream at h
  rw [hbody] at h
  obtain ⟨o, ho, h⟩ := Outcome.bind_ok h
  obtain ⟨⟨compiled, session⟩, hcompiled, h⟩ := Outcome.bind_ok h
  cases h
  obtain ⟨key, _, ho⟩ := Outcome.bind_ok ho
  cases ho
  exact Occurrence.reports_compile
    (fun track htrack part => Score.part_of_problems hproblems (mem_of_lookup hbody) htrack)
    _ _ _ hcompiled

theorem Score.accounted_compileEntries (hproblems : s.problems = []) {settings : Settings α}
    {beatsPerBar : α} {entries : List ((Nat × String) × Nat)}
    (hentries : ∀ entry ∈ entries, entry.1.2 ∈ s.arrangement) {sections : List (CompiledSection α)}
    {w w' : Warnings} (h : s.compileEntries settings beatsPerBar entries w = .ok (sections, w')) :
    ∀ m ∈ w', m ∈ w ∨ Accounted s.patterns m := by
  induction entries generalizing w sections with
  | nil =>
      cases h
      exact fun m hm => .inl hm
  | cons entry rest ih =>
      obtain ⟨⟨index, name⟩, seed⟩ := entry
      obtain ⟨hentry, hrest⟩ := List.forall_mem_cons.1 hentries
      unfold Score.compileEntries at h
      obtain ⟨⟨x, w₁⟩, hx, h⟩ := Outcome.bind_ok h
      obtain ⟨⟨more, w₂⟩, hmore, h⟩ := Outcome.bind_ok h
      cases h
      intro m hm
      rcases ih hrest hmore m hm with hm | hm
      · exact Score.accounted_compileEntry hproblems hentry hx m hm
      · exact .inr hm

omit [Scalar α] in
theorem Score.mem_arrangement {o : CompileOptions α} {entry : Nat × String}
    (h : entry ∈ s.selection o) : entry.2 ∈ s.arrangement := by
  have hmem := List.mem_of_mem_take (List.mem_of_mem_drop h)
  obtain ⟨⟨name, i⟩, hname, rfl⟩ := List.mem_map.1 hmem
  exact List.mem_of_getElem? (List.mk_mem_zipIdx_iff_getElem?.1 hname)

theorem Score.accounted_compile (hproblems : s.problems = []) {o : CompileOptions α}
    {c : Compilation α} (h : s.compile o = .ok c) : ∀ m ∈ c.warnings, Accounted s.patterns m := by
  obtain ⟨meter, _, h⟩ := Outcome.bind_ok h
  obtain ⟨beatsPerBar, _, h⟩ := Outcome.bind_ok h
  obtain ⟨⟨sections, w⟩, hsections, h⟩ := Outcome.bind_ok h
  cases h
  intro m hm
  have hentries : ∀ entry ∈ s.seeded o, entry.1.2 ∈ s.arrangement := fun entry hentry =>
    Score.mem_arrangement (List.of_mem_zip hentry).1
  rcases Score.accounted_compileEntries hproblems hentries hsections m hm with hm | hm
  · cases hm
  · exact hm

/-- **Without problems only patterns name what is missing.** If looking a score over finds no problem
and the score compiles, then no entry of the arrangement and no name on a track is reported to be
missing, and whatever is reported to be missing is named inside a pattern of the table. It is not in
the table itself, unless it is the name of a motif, which may also have no notes. So if the table knows
every name inside its patterns, nothing is reported to be missing but motifs that are there. -/
theorem Score.reports_inside_patterns (hproblems : s.problems = []) {o : CompileOptions α}
    {c : Compilation α} (h : s.compile o = .ok c) :
    (∀ name, NameUse.entry.report name ∉ c.warnings ∧ NameUse.part.report name ∉ c.warnings) ∧
    (∀ use name, NameUse.report use name ∈ c.warnings → ∃ p v, s.patterns.Has p ∧
      p.Mentions use v ∧ v.plain = name ∧ (s.patterns.Knows v → use = .motif)) ∧
    ((∀ p, s.patterns.Has p → ∀ use v, p.Mentions use v → s.patterns.Knows v) →
      ∀ use name, NameUse.report use name ∈ c.warnings →
        use = .motif ∧ ∃ p, s.patterns.lookup name = some p) := by
  have hinside : ∀ use name, NameUse.report use name ∈ c.warnings → ∃ p v, s.patterns.Has p ∧
      p.Mentions use v ∧ v.plain = name ∧ (s.patterns.Knows v → use = .motif) := by
    intro use name hmem
    rcases Score.accounted_compile hproblems h _ hmem with hother | hinside
    · exact absurd rfl (hother use name)
    · generalize hmessage : use.report name = message at hinside
      cases hinside with
      | mk hp hmentions hknown =>
          obtain ⟨rfl, rfl⟩ := NameUse.report_inj hmessage
          exact ⟨_, _, hp, hmentions, rfl, hknown⟩
  -- No pattern has an entry or a track, so none mentions a name in one of these uses.
  refine ⟨fun name => ⟨fun hmem => ?_, fun hmem => ?_⟩, hinside, fun hall use name hmem => ?_⟩
  · obtain ⟨_, _, _, hmentions, _⟩ := hinside _ _ hmem
    cases hmentions
  · obtain ⟨_, _, _, hmentions, _⟩ := hinside _ _ hmem
    cases hmentions
  · obtain ⟨p, v, hp, hmentions, rfl, hknown⟩ := hinside _ _ hmem
    obtain ⟨name, q, rfl, hq⟩ := hall p hp _ _ hmentions
    exact ⟨hknown ⟨name, q, rfl, hq⟩, q, hq⟩

/-- A bar of a pattern, in a table. -/
def barOf (patterns : PatternTable Rat) (name : String) : Score Rat where
  settings := { tempo := 120, key := "C major", timeSignature := "4/4", swing := 0 }
  patterns := patterns
  sections := [("main", { bars := 1, tracks := [("piano", { patterns := [name] })] })]
  arrangement := ["main"]

/-- A melody that goes on with chords, which have no notes to go on with. -/
def goingOn : Score Rat :=
  barOf [("chords", .base { content := .chords ["C:w"] }), ("more", .base
    { content := .continuation
        { source := "chords", technique := "extension", steps := 2, interval := 2 } })] "more"

theorem goingOn_knows [Elementary] {p : Pattern Rat} (hp : goingOn.patterns.Has p)
    {use : NameUse} {v : Value Rat} (hmentions : p.Mentions use v) : goingOn.patterns.Knows v := by
  obtain ⟨name, hname⟩ := hp
  rcases (by simpa [goingOn, barOf] using mem_of_lookup hname : _ ∨ _) with ⟨_, rfl⟩ | ⟨_, rfl⟩
  · cases hmentions with
    | motif continues => cases continues
  · cases hmentions with
    | motif continues =>
        cases continues
        exact ⟨"chords", _, rfl, rfl⟩

/-- The theorem at work: what is reported of the melody is a motif that is there. -/
theorem goingOn_reported : ∃ _ : Elementary, ∃ c, goingOn.compile {} = .ok c ∧
    c.warnings = [NameUse.motif.report "chords"] ∧
    ∀ use name, NameUse.report use name ∈ c.warnings →
      use = .motif ∧ ∃ p, goingOn.patterns.lookup name = some p := by
  let _ := Elementary.coarse
  have hwarns : (goingOn.compile {}).toOption.any
      (fun c => c.warnings = [NameUse.motif.report "chords"]) = true := by
    decide +kernel
  obtain ⟨c, hc, hwarnings⟩ := Outcome.exists_of_any hwarns
  have hproblems : goingOn.problems = [] := by decide
  obtain ⟨_, _, hknown⟩ := Score.reports_inside_patterns hproblems hc
  exact ⟨inferInstance, c, hc, of_decide_eq_true hwarnings,
    hknown fun p hp use v hmentions => goingOn_knows hp hmentions⟩

/-- An heir without a parent. -/
def orphan : Score Rat :=
  barOf [("heir", .inheritance { parent := "absent" })] "heir"

/-- **Names inside patterns are not looked at.** Looking the heir over finds no problem, and compiling
it reports that its parent is missing. -/
theorem orphan_reported : ∃ _ : Elementary, orphan.problems = [] ∧
    ∃ c, orphan.compile {} = .ok c ∧ NameUse.parent.report "absent" ∈ c.warnings := by
  let _ := Elementary.coarse
  have hwarns : (orphan.compile {}).toOption.any
      (fun c => c.warnings.contains (NameUse.parent.report "absent")) = true := by
    decide +kernel
  obtain ⟨c, hc, hmem⟩ := Outcome.exists_of_any hwarns
  exact ⟨inferInstance, by decide, c, hc, List.contains_iff_mem.1 hmem⟩

end Partitura

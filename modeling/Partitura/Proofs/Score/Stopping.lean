import Partitura.Proofs.Performance.Stopping
import Partitura.Proofs.Phrase.Stopping
import Partitura.Proofs.Score.Entries
import Partitura.Proofs.Score.Playing
import Partitura.Proofs.Tempo.Slices
import Partitura.Score.Reader

/-!
# What stops a compilation

Compiling a score should either come to something or stop with a fault of the input. It nearly does
(`Score.compile_stops`): a chain of references that does not end is reported with its track, numbers
are never out of reach, and what is divided by, indexed or drawn from is there, with three exceptions.
A section at a tempo of zero stands still, an arpeggio may be told to go round a rest, and a raw value
may be of a kind that cannot be used where it is. Then the fault of the operation itself gets out.

Beats and seconds are counted exactly.
-/

namespace Partitura

open Outcome (StopsWith)

/-! ## §1  What a score may be to blame for -/

section

variable {α : Type} [Scalar α]

/-- Whether the names of all grooves and styles of a section can be looked up. -/
def Section.usable (s : Section α) : Bool :=
  s.tracks.all fun (_, t) => t.usable

/-- Whether time goes by in a section: its tempo is automated, or it is not zero. -/
def Section.moves (s : Section α) (settings : Settings α) : Bool :=
  (s.automation.lookup AutomationPath.tempoPath).isSome || !(s.tempoIn settings == 0)

/-- Whether time goes by in all sections that are compiled. -/
def Score.moves (s : Score α) (o : CompileOptions α) : Bool :=
  (s.selection o).all fun (_, name) =>
    (s.sections.lookup name).all fun body => body.moves (s.effectiveSettings o)

end

variable [Elementary]

/-- The faults that get out of patterns that are to blame for them. -/
inductive PatternTable.Blamed (t : PatternTable Rat) : Fault → Prop
  | kind : t.usable = false → t.Blamed .wrongKind
  | member : t.usable = false → t.Blamed .noSuchMember
  | round : t.hasTones = false → t.Blamed .divisionByZero
  | choice : t.hasTones = false → t.Blamed .emptyChoice

/-- The faults that get out of a score that is to blame for them: those of its patterns, those of the
names of grooves and styles on its tracks, and that of a section that stands still. -/
inductive Score.Blamed (s : Score Rat) (o : CompileOptions Rat) : Fault → Prop
  | patterns {why : Fault} : s.patterns.Blamed why → s.Blamed o why
  | names : (s.sections.all fun (_, body) => body.usable) = false → s.Blamed o .wrongKind
  | standstill : s.moves o = false → s.Blamed o .divisionByZero

/-! ## §2  Patterns -/

/-- A fault that is reported with the track in which it arose, or that the patterns are to blame
for. -/
def PatternTable.Explains (t : PatternTable Rat) (why : Fault) : Prop :=
  Occurrence.isReported why = true ∨ t.Blamed why

theorem PatternTable.covers_explains (t : PatternTable Rat) : Fault.Covers Rat t.Explains :=
  Fault.covers_exact fun h => .inl (by simp [Occurrence.isReported, h])

omit [Elementary] in
theorem PatternTable.toneless_of_has {t : PatternTable Rat} {p : Pattern Rat} (h : t.Has p)
    (hp : p.hasTones = false) : t.hasTones = false := by
  obtain ⟨name, hname⟩ := h
  exact List.all_eq_false.2 ⟨_, mem_of_lookup hname, by simp [hp]⟩

theorem Pattern.stops_expand {c : Context Rat} {p : Pattern Rat} (hp : c.patterns.Has p) :
    Run.StopsWith c.patterns.Explains (p.expand c) := by
  have hP := c.patterns.covers_explains
  have hdeep : c.patterns.Explains .tooDeep := .inl rfl
  have hkind (h : c.patterns.usable = false) : c.patterns.Explains .wrongKind := .inr (.kind h)
  refine (p.stops_resolveWithin hP hdeep hkind fun h =>
    hkind (PatternTable.unusable_of_has hp h)).bind_of_yields fun resolved? hresolved => ?_
  cases resolved? with
  | none => exact .pure _
  | some b =>
      -- What is played is written notes, or in the table.
      have hcontent : (b.content.usable = false → c.patterns.usable = false) ∧
          (b.content.hasTones = false → c.patterns.hasTones = false) := by
        refine content_resolveWithin (P := fun content =>
          (content.usable = false → c.patterns.usable = false) ∧
            (content.hasTones = false → c.patterns.hasTones = false))
          (fun notes => ⟨nofun, nofun⟩) (fun b' hb' => ?_) (fun b' hb' => ?_) hresolved
        · exact ⟨PatternTable.unusable_of_has hb', PatternTable.toneless_of_has hb'⟩
        · subst hb'
          exact ⟨PatternTable.unusable_of_has hp, PatternTable.toneless_of_has hp⟩
      refine (Phrase.stops_ofContent hP (Phrase.finishContext c b.finish) hdeep hkind b.content
        (fun h => hkind (hcontent.1 h)) (fun h => .inr (.member (hcontent.1 h)))
        (fun h => .inr (.round (hcontent.2 h))) fun h => .inr (.choice (hcontent.2 h))).bind
        fun phrase => ?_
      exact (Phrase.stops_applyFinish hP _ _ _).bind fun _ => .pure _

theorem stops_expandNames (c : Context Rat) (start : Rat) (names : List String) :
    Run.StopsWith c.patterns.Explains (expandNames c start names) := by
  induction names generalizing start with
  | nil => exact .pure _
  | cons name names ih =>
      unfold expandNames
      split
      · exact (Run.StopsWith.warn _).bind fun _ => ih _
      · next p hp =>
          exact (Pattern.stops_expand ⟨name, hp⟩).bind fun _ => (ih _).bind fun _ => .pure _

theorem stops_expandPasses (c : Context Rat) (names : List String) (count : Nat) (start : Rat) :
    Run.StopsWith c.patterns.Explains (expandPasses c names count start) := by
  induction count generalizing start with
  | zero => exact .pure _
  | succ count ih =>
      exact (stops_expandNames c start names).bind fun _ => (ih _).bind fun _ => .pure _

/-! ## §3  Occurrences -/

theorem Automation.seconds_ok (a : Automation Rat) (sectionBeats beat : Rat) :
    ∃ time, a.seconds sectionBeats beat = .ok time := by
  rcases le_or_gt sectionBeats 0 with hbeats | hbeats
  · exact ⟨_, a.seconds_of_nonpos hbeats beat⟩
  · rcases le_or_gt beat 0 with hbeat | hbeat
    · unfold seconds
      rw [if_pos (by simp [Exact.zero_eq, hbeat])]
      exact ⟨_, rfl⟩
    · exact ⟨_, a.seconds_eq hbeats hbeat.le⟩

theorem Automation.samples_ok (a : Automation Rat) (duration : Rat) :
    ∃ samples, a.samples duration standardResolution = .ok samples := by
  refine Outcome.exists_mapM fun i _ => ?_
  obtain ⟨value, hvalue⟩ := a.value_ok ((i : Rat) / 20)
  have hposition : divide (Scalar.ofNat i : Rat) (Scalar.ofInt standardResolution) = .ok (i / 20) := by
    rw [Exact.ofNat_eq, Exact.ofInt_eq, Exact.divide_eq]
    · norm_num [standardResolution]
    · norm_num [standardResolution]
  rw [hposition, Outcome.ok_bind, hvalue]
  exact ⟨_, rfl⟩

namespace Occurrence

variable {P : Fault → Prop} (hinput : ∀ {why : Fault}, why.isInput = true → P why)
  (o : Occurrence Rat) {t : PatternTable Rat}

omit [Elementary] in
include hinput in
/-- A fault that is reported with its track is one of the input from there on. -/
theorem stops_inTrack {β : Type} {r : Run β} (track : String)
    (h : Run.StopsWith (fun why => isReported why = true ∨ P why) r) :
    Run.StopsWith P (o.inTrack track r) := by
  intro s why heq
  unfold inTrack at heq
  cases hr : r s with
  | ok p =>
      rw [hr] at heq
      cases heq
  | error inner =>
      rw [hr] at heq
      cases heq
      split
      · exact hinput rfl
      · next hreported => exact (h s inner hr).resolve_left hreported

include hinput in
theorem stops_playTrack (hpatterns : ∀ {why : Fault}, t.Blamed why → P why) (swing : Rat)
    (density : Option Rat) (name : String) {track : Track Rat}
    (hkind : track.usable = false → P .wrongKind) :
    Run.StopsWith P (o.playTrack t swing density name track) := by
  unfold playTrack
  split
  · exact .pure _
  · split
    · exact (Run.StopsWith.warn _).bind fun _ => .pure _
    · have hexpand : Run.StopsWith (fun why => isReported why = true ∨ P why)
          (track.expand (o.context t density track)) :=
        (stops_expandPasses (o.context t density track) _ _ _).imp fun _ hwhy =>
          hwhy.imp_right hpatterns
      refine (stops_inTrack hinput o name hexpand).bind fun notes => ?_
      refine (track.stops_performance hkind).bind_of_yields fun performance hperformance => ?_
      refine performance.stops_play (fun hkey => hkind (Bool.eq_false_iff.2 fun husable => ?_)) _ _ _ _ _
      rw [Track.isKey_groove hperformance (Bool.and_eq_true_iff.1 husable).1] at hkey
      cases hkey

include hinput in
theorem stops_play (hpatterns : ∀ {why : Fault}, t.Blamed why → P why)
    (hkind : o.body.usable = false → P .wrongKind) (swing : Rat) :
    Run.StopsWith P (o.play t swing) := by
  have hdensity : Run.StopsWith P o.startDensity := by
    unfold startDensity
    split
    · exact .pure _
    · next d _ =>
        exact (Run.StopsWith.warnAll _).bind fun _ =>
          .map _ (.lift (.of_ok (d.atPosition_ok _)))
  refine hdensity.bind fun density => Run.StopsWith.bind (.mapM fun track htrack => ?_) fun _ => .pure _
  refine stops_playTrack hinput o hpatterns swing density track.1 fun hunusable => hkind ?_
  exact List.all_eq_false.2 ⟨track, htrack, by simp [hunusable]⟩

/-- An occurrence stops telling time only if it stands still. -/
theorem stops_secondsAt
    (hstill : o.body.automation.lookup AutomationPath.tempoPath = none → o.tempo = 0 →
      P .divisionByZero) (beat : Rat) : StopsWith P (o.secondsAt beat) := by
  unfold secondsAt Section.secondsAt
  split
  · next a _ => exact .of_ok (a.seconds_ok _ _)
  · next hnone =>
      unfold beatsToSeconds divide
      split
      · next hzero => exact .error (hstill hnone (eq_of_beq hzero))
      · exact .ok _

include hinput in
theorem stops_compile (hpatterns : ∀ {why : Fault}, t.Blamed why → P why)
    (hkind : o.body.usable = false → P .wrongKind)
    (hstill : o.body.automation.lookup AutomationPath.tempoPath = none → o.tempo = 0 →
      P .divisionByZero) (swing : Rat) : Run.StopsWith P (o.compile t swing) := by
  have hseconds (beat : Rat) : StopsWith P (o.secondsAt beat) := stops_secondsAt o hstill beat
  refine (stops_play hinput o hpatterns hkind swing).bind fun played => ?_
  refine (Run.StopsWith.lift (.mapM (fun n => ?_) _)).bind fun notes => ?_
  · exact (hseconds _).bind fun _ => (hseconds _).bind fun _ => .ok _
  · refine Run.StopsWith.bind (.mapM fun path _ => ?_) fun events =>
      (Run.StopsWith.lift (hseconds _)).bind fun _ => .pure _
    refine (Run.StopsWith.warnAll _).bind fun _ => .lift ?_
    refine (StopsWith.of_ok (path.2.samples_ok _)).bind fun samples => .mapM (fun sample => ?_) _
    exact (hseconds _).bind fun _ => .ok _

end Occurrence

/-! ## §4  Scores -/

section

variable {P : Fault → Prop} (hinput : ∀ {why : Fault}, why.isInput = true → P why)

include hinput

theorem Key.stops_parse (v : Value Rat) : StopsWith P (Key.parse v) := by
  cases v with
  | text s =>
      unfold parse ofText
      dsimp only
      split
      · exact .error (hinput rfl)
      · split
        · exact .ok _
        · exact .error (hinput rfl)
  | null | bool b | int n | real x | list vs | mapping fields => exact .error (hinput rfl)

theorem TimeSignature.stops_parse (v : Value Rat) : StopsWith P (TimeSignature.parse v) := by
  unfold parse
  split
  · exact .ok _
  · exact .error (hinput rfl)

variable {s : Score Rat} {o : CompileOptions Rat}
  (hblamed : ∀ {why : Fault}, s.Blamed o why → P why)

include hblamed

theorem Score.stops_compileEntry {entry : Nat × String} (hentry : entry ∈ s.selection o)
    (beatsPerBar : Rat) (seed : Nat) (warnings : Warnings) : StopsWith P
      (s.compileEntry (s.effectiveSettings o) beatsPerBar entry.1 entry.2 seed warnings) := by
  unfold compileEntry
  split
  · exact .ok _
  · next body hbody =>
      have hstill (hnone : body.automation.lookup AutomationPath.tempoPath = none)
          (hzero : body.tempoIn (s.effectiveSettings o) = 0) : s.moves o = false := by
        refine List.all_eq_false.2 ⟨entry, hentry, ?_⟩
        simp [hbody, Section.moves, hnone, hzero]
      have hunusable (h : body.usable = false) :
          (s.sections.all fun (_, body) => body.usable) = false :=
        List.all_eq_false.2 ⟨_, mem_of_lookup hbody, by simp [h]⟩
      refine StopsWith.bind_of_ok ((Key.stops_parse hinput _).bind fun _ => .ok _)
        fun occurrence hoccur => ?_
      obtain ⟨key, _, hoccur⟩ := Outcome.bind_ok hoccur
      cases hoccur
      have hcompile := Occurrence.stops_compile hinput
        { name := entry.2, index := entry.1, body, beats := body.beats beatsPerBar,
          tempo := body.tempoIn (s.effectiveSettings o), key }
        (fun h => hblamed (.patterns h)) (fun h => hblamed (.names (hunusable h)))
        (fun hnone hzero => hblamed (.standstill (hstill hnone hzero)))
        (s.effectiveSettings o).swing
      exact (hcompile _).bind fun _ => .ok _

theorem Score.stops_compileEntries {entries : List ((Nat × String) × Nat)}
    (hentries : ∀ entry ∈ entries, entry.1 ∈ s.selection o) (beatsPerBar : Rat)
    (warnings : Warnings) : StopsWith P
      (s.compileEntries (s.effectiveSettings o) beatsPerBar entries warnings) := by
  induction entries generalizing warnings with
  | nil => exact .ok _
  | cons entry entries ih =>
      obtain ⟨hentry, hentries⟩ := List.forall_mem_cons.1 hentries
      exact (stops_compileEntry hinput hblamed hentry beatsPerBar entry.2 warnings).bind fun _ =>
        (ih hentries _).bind fun _ => .ok _

end

/-- **What stops a compilation.** A fault of the input, one of the patterns or names that are to blame
for it, or a section that stands still. In particular, no chain of references is followed for ever, and
none is too deep without its track being told. -/
theorem Score.compile_stops (s : Score Rat) (o : CompileOptions Rat) :
    (s.compile o).StopsWith fun why => why.isInput = true ∨ s.Blamed o why := by
  have hmeter (meter : TimeSignature) : ∃ beats : Rat, meter.beatsPerBar = .ok beats := ⟨_, rfl⟩
  refine (TimeSignature.stops_parse .inl _).bind fun meter => ?_
  refine (StopsWith.of_ok (hmeter meter)).bind fun beatsPerBar => ?_
  exact (stops_compileEntries .inl .inr (fun entry hentry => (List.of_mem_zip hentry).1) _ _).bind
    fun _ => .ok _

omit [Elementary] in
theorem Section.moves_of_secondsAt {α : Type} [Scalar α] {body : Section α} {settings : Settings α}
    {beats beat time : α} (h : body.secondsAt beats (body.tempoIn settings) beat = .ok time) :
    body.moves settings = true := by
  unfold secondsAt at h
  unfold moves
  split at h
  · next a ha => simp [ha]
  · unfold beatsToSeconds divide at h
    split at h
    · cases h
    · next hzero => simp [hzero]

/-- A score with a section that stands still is never compiled: how long the section takes cannot be
told. -/
theorem Score.moves_of_compile {s : Score Rat} {o : CompileOptions Rat} {c : Compilation Rat}
    (h : s.compile o = .ok c) : s.moves o = true := by
  obtain ⟨meter, beatsPerBar, xs, _, _, hxs, _⟩ := Score.compile_ok h
  refine List.all_eq_true.2 fun entry hentry => ?_
  change (s.sections.lookup entry.2).all (fun body => body.moves (s.effectiveSettings o)) = true
  cases hbody : s.sections.lookup entry.2 with
  | none => rfl
  | some body =>
      rw [← s.map_fst_seeded o] at hentry
      obtain ⟨seeded, hseeded, rfl⟩ := List.mem_map.1 hentry
      obtain ⟨x?, _, hx⟩ := exists_of_mem_right hxs.flip hseeded
      cases x? with
      | none => cases hbody.symm.trans (Score.CompilesTo.unknown hx)
      | some x =>
          obtain ⟨body', hbody', hoccur, hyields⟩ := Score.CompilesTo.compiled hx
          cases hbody.symm.trans hbody'
          have hseconds := (Occurrence.compile_yields hyields).seconds
          obtain ⟨key, _, hoccur⟩ := Outcome.bind_ok hoccur
          rw [← Outcome.pure_ok hoccur] at hseconds
          exact Section.moves_of_secondsAt hseconds

/-- A document of one bar at no tempo. -/
def standstill : Value Rat :=
  .mapping
    [("settings", .mapping [("tempo", .int 0)]),
     ("patterns", .mapping []),
     ("sections", .mapping [("main", .mapping [("bars", .int 1), ("tracks", .mapping [])])]),
     ("arrangement", .list [.text "main"])]

omit [Elementary] in
/-- **Not only faults of the input get out.** The document is accepted, and compiling what it says
divides by zero. -/
theorem standstill_gets_out : ∃ _ : Elementary, ∃ s, Score.read standstill = .ok s ∧
    s.compile {} = .error .divisionByZero ∧ Fault.divisionByZero.isInput = false := by
  let _ := Elementary.coarse
  have hread : (Score.read standstill).toOption.any
      (fun s => (s.compile {}).fault? = some .divisionByZero) = true := by decide +kernel
  obtain ⟨s, hs, hfault⟩ := Outcome.exists_of_any hread
  exact ⟨inferInstance, s, hs, Outcome.eq_error_of_fault? (of_decide_eq_true hfault), rfl⟩

end Partitura

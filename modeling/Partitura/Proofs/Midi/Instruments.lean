import Mathlib.Data.List.Perm.Basic
import Partitura.Proofs.Midi.Strikes
import Partitura.Proofs.Midi.TempoMap
import Partitura.Proofs.Ordered
import Partitura.Proofs.Score.Overview

/-!
# Every note in its track

On its way into a file a note passes the timeline, which lists the instruments, and the track of its
own instrument, which knows its messages by differences of ticks only. Neither loses or doubles it
(`notes_exported`): of every note with a number there is one strike and one release, in the track of
its instrument and on its own ticks, and no other message touches a key.

The tempo track touches none (§1). The track of an instrument touches those of its notes, drums on
their own channel and everything else on another one (§2). The instruments of a compiled timeline are
those of its notes, each once, in the order in which the arrangement first names them (§3), so going
through the instruments goes through all notes (§5). Whether a timeline can be written at all rests on
its tempos and its pitches (§4).
-/

namespace Partitura.Midi

variable {α : Type} [Scalar α]

/-! ## §1  The tempo track -/

/-- Whether a message touches a key. -/
def Message.touches : Message → Bool
  | .noteOn _ _ _ => true
  | .noteOff _ _ => true
  | _ => false

theorem touches_tempoMessage {bpm : α} {message : Message} (h : tempoMessage bpm = .ok message) :
    message.touches = false := by
  obtain ⟨beat, _, h⟩ := Outcome.bind_ok h
  obtain ⟨microseconds, _, h⟩ := Outcome.bind_ok h
  split at h
  · rw [← Outcome.pure_ok h]
    rfl
  · cases h

theorem untouched_markerEvents {m : SectionMarker α} {events : List Event}
    (h : markerEvents m = .ok events) : ∀ e ∈ events, e.message.touches = false := by
  obtain ⟨tick, _, h⟩ := Outcome.bind_ok h
  obtain ⟨message, hmessage, h⟩ := Outcome.bind_ok h
  rw [← Outcome.pure_ok h, List.forall_mem_cons, List.forall_mem_singleton]
  exact ⟨touches_tempoMessage hmessage, rfl⟩

theorem untouched_sampleEvent {e : AutomationEvent α} {event : Event}
    (h : sampleEvent e = .ok event) : event.message.touches = false := by
  obtain ⟨tick, _, h⟩ := Outcome.bind_ok h
  obtain ⟨message, hmessage, h⟩ := Outcome.bind_ok h
  rw [← Outcome.pure_ok h]
  exact touches_tempoMessage hmessage

theorem untouched_standingTempo {t : Timeline α} {events : List Event}
    (h : standingTempo t = .ok events) : ∀ e ∈ events, e.message.touches = false := by
  unfold standingTempo at h
  split at h
  · obtain ⟨message, hmessage, h⟩ := Outcome.bind_ok h
    rw [← Outcome.pure_ok h, List.forall_mem_singleton]
    exact touches_tempoMessage hmessage
  · rw [← Outcome.pure_ok h]
    exact List.forall_mem_nil _

theorem untouched_tempoEvents {t : Timeline α} {events : List Event}
    (h : tempoEvents t = .ok events) : ∀ e ∈ events, e.message.touches = false := by
  obtain ⟨standing, hstanding, h⟩ := Outcome.bind_ok h
  obtain ⟨markers, hmarkers, h⟩ := Outcome.bind_ok h
  obtain ⟨samples, hsamples, h⟩ := Outcome.bind_ok h
  rw [← Outcome.pure_ok h, List.forall_mem_append, List.forall_mem_append]
  refine ⟨⟨untouched_standingTempo hstanding, fun e he => ?_⟩, fun e he => ?_⟩
  · obtain ⟨own, hown, he⟩ := List.mem_flatten.1 he
    obtain ⟨m, _, hm⟩ := exists_of_mem_right (Outcome.mapM_ok hmarkers) hown
    exact untouched_markerEvents hm e he
  · obtain ⟨sample, _, hsample⟩ := exists_of_mem_right (Outcome.mapM_ok hsamples) he
    exact untouched_sampleEvent hsample

/-- No message of the tempo track touches a key. -/
theorem untouched_tempoTrack {t : Timeline α} {track : Track} (h : tempoTrack t = .ok track) :
    ∀ m ∈ absolute 0 track, m.2.touches = false := by
  obtain ⟨events, hevents, h⟩ := Outcome.bind_ok h
  obtain ⟨title, _, h⟩ := Outcome.bind_ok h
  rw [← Outcome.pure_ok h, absolute_ofEvents, List.forall_mem_cons]
  refine ⟨rfl, fun m hm => ?_⟩
  obtain ⟨e, he, rfl⟩ := List.mem_map.1 hm
  exact untouched_tempoEvents hevents e (List.mem_mergeSort.1 he)

/-! ## §2  The tracks of instruments -/

theorem channelOf_ne_drumChannel (i : Nat) : channelOf i ≠ drumChannel := by
  have hfree : ∀ channel ∈ freeChannels, channel ≠ drumChannel := by
    decide
  have hcount : i % freeChannels.length < freeChannels.length :=
    Nat.mod_lt i (by decide)
  unfold channelOf
  rw [List.getD_eq_getElem?_getD, List.getElem?_eq_getElem hcount]
  exact hfree _ (List.getElem_mem hcount)

/-- What a note of any instrument is struck as. Only drums are on the channel of the drums. -/
def Strike.Sounds (n : NoteEvent α) (s : Strike) : Prop :=
  ∃ channel, channel ≠ drumChannel ∧ s.Plays channel n

/-- A track in which the notes of an instrument that have numbers are struck, one for one. -/
structure Track.Sounds (t : Timeline α) (name : String) (track : Track) (channel : Nat)
    (strikes : List Strike) : Prop where
  own : channel ≠ drumChannel
  struck : List.Forall₂ (fun n s => Strike.Plays channel n s)
    ((t.notesFor name).filter hasNumber) strikes
  /-- Besides its name it holds what they strike and release, each message on its tick. -/
  played : (absolute 0 track).Perm ((0, .trackName name) :: strikes.flatMap Strike.messages)

/-- A file has the tempo track and one track for each instrument of its timeline, in their order. -/
theorem exists_tracks {t : Timeline α} {file : File} (h : ofTimeline t = .ok file) :
    ∃ tempo tracks, file.tracks = tempo :: tracks ∧ tempoTrack t = .ok tempo ∧
      List.Forall₂ (fun name track => ∃ channel strikes, Track.Sounds t name track channel strikes)
        t.instruments tracks := by
  obtain ⟨tempo, htempo, h⟩ := Outcome.bind_ok h
  obtain ⟨tracks, htracks, h⟩ := Outcome.bind_ok h
  refine ⟨tempo, tracks, ?_, htempo, ?_⟩
  · rw [← Outcome.pure_ok h]
  · have hsounds : List.Forall₂ (fun (entry : String × Nat) track =>
        ∃ channel strikes, Track.Sounds t entry.1 track channel strikes)
          t.instruments.zipIdx tracks := by
      refine (Outcome.mapM_ok htracks).imp ?_
      rintro ⟨name, i⟩ track htrack
      obtain ⟨strikes, hplays, rfl⟩ := instrumentTrack_strikes htrack
      refine ⟨channelOf i, strikes, channelOf_ne_drumChannel i, hplays, ?_⟩
      rw [absolute_ofEvents]
      exact (messages_perm strikes).cons _
    rw [← List.zipIdx_map_fst 0 t.instruments, List.forall₂_map_left_iff]
    exact hsounds

/-! ## §3  The instruments of a timeline -/

/-- The instruments of all notes, section by section, in the order in which they were compiled. -/
def naming (c : Compilation α) : List String :=
  c.sections.flatMap fun x => x.notes.map (·.note.instrument)

theorem map_instrument_draftOf (settings : Settings α) (sections : List (CompiledSection α)) :
    (draftOf settings sections).notes.map (·.instrument) =
      sections.flatMap fun x => x.notes.map (·.note.instrument) := by
  have hplaced (p : α × α × CompiledSection α) :
      (p.2.2.notesAt p.1 p.2.1).map (·.instrument) =
        p.2.2.notes.map (·.note.instrument) := by
    unfold CompiledSection.notesAt
    rw [List.map_map]
    rfl
  calc (draftOf settings sections).notes.map (·.instrument)
      = (placeSections 0.0 0.0 sections).flatMap fun p =>
          p.2.2.notes.map (·.note.instrument) := by
        unfold draftOf
        rw [List.map_flatMap]
        exact List.flatMap_congr fun p _ => hplaced p
    _ = ((placeSections 0.0 0.0 sections).map (·.2.2)).flatMap fun x =>
          x.notes.map (·.note.instrument) := by
        rw [List.flatMap_map]
    _ = sections.flatMap fun x => x.notes.map (·.note.instrument) := by
        rw [map_section_placeSections]

/-- The instruments are named in the order in which they first play. -/
theorem firstAppearances_instruments {s : Score α} {o : CompileOptions α} {c : Compilation α}
    (h : s.compile o = .ok c) : Ordered.FirstAppearances (naming c) c.timeline.instruments := by
  have hinstruments : c.timeline.instruments = Ordered.distinct (naming c) := by
    rw [Score.timeline_eq h]
    unfold timelineOf TimelineDraft.build
    rw [map_instrument_draftOf]
    rfl
  rw [hinstruments]
  exact Ordered.firstAppearances_distinct _

/-- The instrument of every note is named. -/
theorem instrument_mem_of_mem_notes {s : Score α} {o : CompileOptions α} {c : Compilation α}
    (h : s.compile o = .ok c) {n : NoteEvent α} (hn : n ∈ c.timeline.notes) :
    n.instrument ∈ c.timeline.instruments := by
  rw [Score.timeline_eq h] at hn ⊢
  exact Ordered.mem_distinct.2 (List.mem_map_of_mem (List.mem_mergeSort.1 hn))

/-- Every note of a timeline has the pitch of a note of one of its sections. -/
theorem exists_pitch_of_mem_notes {s : Score α} {o : CompileOptions α} {c : Compilation α}
    (h : s.compile o = .ok c) {n : NoteEvent α} (hn : n ∈ c.timeline.notes) :
    ∃ x ∈ c.sections, ∃ m ∈ x.notes, n.pitch = m.note.pitch := by
  rw [Score.timeline_eq h] at hn
  obtain ⟨x, hx, beat, time, hn⟩ := exists_of_mem_draftOf (List.mem_mergeSort.1 hn)
  obtain ⟨m, hm, rfl⟩ := List.mem_map.1 hn
  exact ⟨x, hx, m, hm, rfl⟩

/-! ## §4  Scores that can be written -/

/-- Whether a pitch is a drum without a number, or has one that a message can hold. -/
def writable (pitch : String) : Bool :=
  match noteNumber? pitch with
  | .ok (some number) => 0 ≤ number && number ≤ 127
  | .ok none => true
  | .error _ => false

section Writing

variable [Elementary]

theorem exists_noteEvents {n : NoteEvent Rat} (h : writable n.pitch = true) (channel : Nat) :
    ∃ events, noteEvents channel n = .ok events := by
  unfold writable at h
  unfold noteEvents
  split at h
  · next number hnumber =>
      have hbyte : dataByte number = .ok number.toNat := by
        simp only [Bool.and_eq_true, decide_eq_true_eq] at h
        exact if_pos h
      rw [hnumber, Outcome.ok_bind]
      dsimp only [strikeEvents]
      rw [ticks_eq, ticks_eq, hbyte]
      exact ⟨_, rfl⟩
  · next hnone =>
      rw [hnone]
      exact ⟨_, rfl⟩
  · cases h

/-- A timeline can be written if its tempo and all its pitches can. -/
theorem exists_ofTimeline {t : Timeline Rat} (htempo : ∃ track, tempoTrack t = .ok track)
    (hpitches : ∀ n ∈ t.notes, writable n.pitch = true) : ∃ file, ofTimeline t = .ok file := by
  obtain ⟨tempo, htempo⟩ := htempo
  have htrack (name : String) (channel : Nat) :
      ∃ track, instrumentTrack t name channel = .ok track := by
    have hwritable : ∀ n ∈ t.notesFor name, ∃ events, noteEvents channel n = .ok events :=
      fun n hn => exists_noteEvents (hpitches n (List.mem_filter.1 hn).1) channel
    obtain ⟨parts, hparts⟩ := Outcome.exists_mapM hwritable
    unfold instrumentTrack
    rw [hparts]
    exact ⟨_, rfl⟩
  have hall : ∀ entry ∈ t.instruments.zipIdx,
      ∃ track, instrumentTrack t entry.1 (channelOf entry.2) = .ok track :=
    fun entry _ => htrack entry.1 (channelOf entry.2)
  obtain ⟨tracks, htracks⟩ := Outcome.exists_mapM hall
  unfold ofTimeline
  rw [htempo]
  exact ⟨⟨tempo :: tracks⟩, by rw [Outcome.ok_bind, htracks]; rfl⟩

end Writing

/-! ## §5  Whole files -/

/-- Members taken key by key are the members whose key is among them. -/
theorem perm_flatMap_filter {β κ : Type} [DecidableEq κ] (key : β → κ) {keys : List κ}
    (hkeys : keys.Nodup) (xs : List β) :
    (xs.filter (key · ∈ keys)).Perm (keys.flatMap fun k => xs.filter (key · = k)) := by
  induction keys with
  | nil => simp
  | cons k keys ih =>
      obtain ⟨hk, hkeys⟩ := List.nodup_cons.1 hkeys
      have hfirst : (xs.filter (key · ∈ k :: keys)).filter (key · = k) =
          xs.filter (key · = k) := by
        rw [List.filter_filter]
        refine List.filter_congr fun x _ => ?_
        by_cases hx : key x = k <;> simp [hx]
      have hrest : (xs.filter (key · ∈ k :: keys)).filter (fun x => !decide (key x = k)) =
          xs.filter (key · ∈ keys) := by
        rw [List.filter_filter]
        refine List.filter_congr fun x _ => ?_
        by_cases hx : key x = k <;> simp [hx, hk]
      rw [List.flatMap_cons, ← hfirst]
      refine (List.filter_append_perm (key · = k) _).symm.trans ?_
      rw [hrest]
      exact (ih hkeys).append_left _

omit [Scalar α] in
/-- The notes of a timeline are those of its instruments. -/
theorem notes_perm {t : Timeline α} (hnodup : t.instruments.Nodup)
    (hnamed : ∀ n ∈ t.notes, n.instrument ∈ t.instruments) :
    (t.notes.filter hasNumber).Perm
      (t.instruments.flatMap fun name => (t.notesFor name).filter hasNumber) := by
  have hall : t.notes.filter (·.instrument ∈ t.instruments) = t.notes :=
    List.filter_eq_self.2 fun n hn => decide_eq_true (hnamed n hn)
  have hperm := (perm_flatMap_filter NoteEvent.instrument hnodup t.notes).filter hasNumber
  rw [hall, List.filter_flatMap] at hperm
  exact hperm

theorem touches_messages (strikes : List Strike) :
    ∀ m ∈ strikes.flatMap Strike.messages, m.2.touches = true := by
  intro m hm
  obtain ⟨s, _, hm⟩ := List.mem_flatMap.1 hm
  simp only [Strike.messages, List.mem_cons, List.not_mem_nil, or_false] at hm
  rcases hm with rfl | rfl
  · rfl
  · rfl

/-- What the tracks of instruments hold together. -/
theorem exists_struck {t : Timeline α} {names : List String} {tracks : List Track}
    (h : List.Forall₂ (fun name track =>
      ∃ channel strikes, Track.Sounds t name track channel strikes) names tracks) :
    ∃ strikes, List.Forall₂ Strike.Sounds
        (names.flatMap fun name => (t.notesFor name).filter hasNumber) strikes ∧
      ((tracks.flatMap (absolute 0)).filter (·.2.touches)).Perm
        (strikes.flatMap Strike.messages) := by
  induction h with
  | nil => exact ⟨[], .nil, .nil⟩
  | @cons name track names tracks htrack _ ih =>
      obtain ⟨channel, strikes, hsounds⟩ := htrack
      obtain ⟨more, hmore, hperm⟩ := ih
      refine ⟨strikes ++ more, ?_, ?_⟩
      · rw [List.flatMap_cons]
        refine List.rel_append (hsounds.struck.imp ?_) hmore
        exact fun n s hs => ⟨channel, hsounds.own, hs⟩
      · have htouched := hsounds.played.filter (·.2.touches)
        rw [List.filter_cons_of_neg (by simp [Message.touches]),
          List.filter_eq_self.2 (touches_messages strikes)] at htouched
        rw [List.flatMap_cons, List.filter_append, List.flatMap_append]
        exact htouched.append hperm

/-- **Every note is exported once.** A compiled score that can be written as a file has the tempo
track, in which no key is touched, and a track for each of its instruments, each once, in the order
of their first notes; every track holds the strikes of its instrument's notes, on their ticks. All
tracks together touch keys for the notes that have numbers, one for one, and for nothing else. -/
theorem notes_exported {s : Score α} {o : CompileOptions α} {c : Compilation α} {file : File}
    (h : s.compile o = .ok c) (hfile : ofTimeline c.timeline = .ok file) :
    Ordered.FirstAppearances (naming c) c.timeline.instruments ∧
      (∀ n ∈ c.timeline.notes, n.instrument ∈ c.timeline.instruments) ∧
      (∃ tempo tracks, file.tracks = tempo :: tracks ∧
        (∀ m ∈ absolute 0 tempo, m.2.touches = false) ∧
        List.Forall₂ (fun name track =>
          ∃ channel strikes, Track.Sounds c.timeline name track channel strikes)
            c.timeline.instruments tracks) ∧
      ∃ strikes, List.Forall₂ Strike.Sounds (c.timeline.notes.filter hasNumber) strikes ∧
        ((file.tracks.flatMap (absolute 0)).filter (·.2.touches)).Perm
          (strikes.flatMap Strike.messages) := by
  have hfirst := firstAppearances_instruments h
  have hnamed : ∀ n ∈ c.timeline.notes, n.instrument ∈ c.timeline.instruments :=
    fun n hn => instrument_mem_of_mem_notes h hn
  obtain ⟨tempo, tracks, htracks, htempo, hsounds⟩ := exists_tracks hfile
  have hquiet := untouched_tempoTrack htempo
  obtain ⟨sorted, hsorted, htouched⟩ := exists_struck hsounds
  obtain ⟨strikes, hstruck, hperm⟩ := List.perm_comp_forall₂ (notes_perm hfirst.nodup hnamed) hsorted
  refine ⟨hfirst, hnamed, ⟨tempo, tracks, htracks, hquiet, hsounds⟩, strikes, hstruck, ?_⟩
  have hnone : (absolute 0 tempo).filter (·.2.touches) = [] :=
    List.filter_eq_nil_iff.2 fun m hm => by simp [hquiet m hm]
  rw [htracks, List.flatMap_cons, List.filter_append, hnone, List.nil_append]
  exact htouched.trans (hperm.symm.flatMap_right _)

/-- A bass that enters late, and a kit with a drum that has no number. -/
def lateBass : Score Rat where
  settings := { tempo := 120, key := "C major", timeSignature := "4/4", swing := 0 }
  patterns :=
    [("bass", .base { content := .notes ["r:q", "C2:q"] }),
     ("kit", .base { content := .drums {
        lines := [("kick", "x--x"), ("gong", "-x--")], kit := "808", step := "q" } })]
  sections :=
    [("main", {
      bars := 1
      tracks := [("bass", { patterns := ["bass"] }), ("kit", { patterns := ["kit"] })] })]
  arrangement := ["main"]

theorem lateBass_writable :
    letI := Elementary.coarse
    (lateBass.compile {}).toOption.any (fun c =>
      c.timeline.instruments = ["bass", "kit"] && c.sections.length = 1 &&
        c.sections.all fun x => 0 ≤ x.occurrence.body.bars && 0 < x.occurrence.tempo &&
          (tempoMessage x.occurrence.tempo).toOption.isSome && x.automation.isEmpty &&
          x.notes.all fun n => writable n.note.pitch) = true := by
  decide +kernel

/-- The theorem at work: the bass has the first track though the kit has the first note. -/
theorem lateBass_exported : ∃ _ : Elementary, ∃ (c : Compilation Rat) (tempo bass kit : Track),
    lateBass.compile {} = .ok c ∧ ofTimeline c.timeline = .ok ⟨[tempo, bass, kit]⟩ ∧
      Ordered.FirstAppearances (naming c) ["bass", "kit"] ∧
      (∃ channel strikes, Track.Sounds c.timeline "bass" bass channel strikes) ∧
      ∃ channel strikes, Track.Sounds c.timeline "kit" kit channel strikes := by
  let _ := Elementary.coarse
  obtain ⟨c, hc, hchecked⟩ := Outcome.exists_of_any lateBass_writable
  simp only [Bool.and_eq_true, decide_eq_true_eq, List.all_eq_true] at hchecked
  obtain ⟨⟨hinstruments, hone⟩, hsections⟩ := hchecked
  have hproper : c.Proper := fun x hx =>
    ⟨(hsections x hx).1.1.1.1, (hsections x hx).1.1.1.2⟩
  have htempo : ∃ track, tempoTrack c.timeline = .ok track := by
    refine exists_tempoTrack hc hproper rfl ?_
      (fun x hx => Outcome.exists_of_isSome (hsections x hx).1.1.2) ?_
    · intro hnone
      have hplaced := Score.map_snd_placed hc hproper
      rw [hnone] at hplaced
      rw [← hplaced] at hone
      cases hone
    · intro x hx e he
      rw [List.isEmpty_iff.1 (hsections x hx).1.2] at he
      cases he
  obtain ⟨file, hfile⟩ := exists_ofTimeline htempo fun n hn => by
    obtain ⟨x, hx, m, hm, hpitch⟩ := exists_pitch_of_mem_notes hc hn
    rw [hpitch]
    exact (hsections x hx).2 m hm
  obtain ⟨hfirst, _, ⟨tempo, tracks, htracks, _, hsounds⟩, _⟩ := notes_exported hc hfile
  rw [hinstruments] at hfirst hsounds
  rcases hsounds with _ | ⟨hbass, _ | ⟨hkit, ⟨⟩⟩⟩
  exact ⟨_, c, tempo, _, _, hc, htracks ▸ hfile, hfirst, hbass, hkit⟩

end Partitura.Midi

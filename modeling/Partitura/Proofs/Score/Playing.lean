import Partitura.Proofs.Performance
import Partitura.Score.Compilation

/-!
# The order of what an occurrence plays

An occurrence plays its tracks in the order of the section, and a track its patterns in the order of
the track, once more for every repeat. The notes of a pattern stay together and in their order, each
delayed to the beat where the pattern before it ended (`InPatternOrder`). What a track plays are some
of these notes, performed (`Occurrence.PlaysTrack`), and an occurrence plays what its tracks play one
after the other (`Occurrence.InTrackOrder`). What it plays is what it is compiled to, note by note
(`Occurrence.compile_yields`).

The relations here say nothing of what is drawn, reported or refused: only of which notes come from
where.
-/

namespace Partitura

variable {α : Type} [Scalar α]

/-! ## §1  Patterns -/

/-- The notes of patterns one after the other from a beat on. A name that is no pattern has none and
takes no time. -/
inductive InPatternOrder (c : Context α) : α → List String → List (Note α) → Prop
  | nil (cursor : α) : InPatternOrder c cursor [] []
  | unknown {cursor : α} {name : String} {rest : List String} {notes : List (Note α)} :
      c.pattern? name = none → InPatternOrder c cursor rest notes →
      InPatternOrder c cursor (name :: rest) notes
  | known {cursor : α} {name : String} {rest : List String} {notes : List (Note α)}
      {p : Pattern α} {phrase : Phrase α} :
      c.pattern? name = some p → (p.expand c).Yields phrase →
      InPatternOrder c (cursor + phrase.beats) rest notes →
      InPatternOrder c cursor (name :: rest) (phrase.notes.map (·.delay cursor) ++ notes)

variable {c : Context α}

/-- One pass through the patterns, with whatever is played after it. -/
theorem expandNames_yields {names later : List String} {cursor finish : α}
    {notes more : List (Note α)} (h : (expandNames c cursor names).Yields (notes, finish))
    (hmore : InPatternOrder c finish later more) :
    InPatternOrder c cursor (names ++ later) (notes ++ more) := by
  induction names generalizing cursor notes with
  | nil =>
      unfold expandNames at h
      cases h.of_pure
      exact hmore
  | cons name rest ih =>
      unfold expandNames at h
      split at h
      · next hpattern =>
          obtain ⟨_, _, h⟩ := h.of_bind
          exact .unknown hpattern (ih h)
      · next p hpattern =>
          obtain ⟨phrase, hphrase, h⟩ := h.of_bind
          obtain ⟨⟨notes', finish'⟩, hrest, h⟩ := h.of_bind
          cases h.of_pure
          rw [List.append_assoc]
          exact .known hpattern hphrase (ih hrest)

/-- All passes through the patterns of a track. -/
theorem expandPasses_yields {names : List String} {count : Nat} {cursor : α}
    {notes : List (Note α)} (h : (expandPasses c names count cursor).Yields notes) :
    InPatternOrder c cursor (List.replicate count names).flatten notes := by
  induction count generalizing cursor notes with
  | zero =>
      unfold expandPasses at h
      cases h.of_pure
      exact .nil cursor
  | succ count ih =>
      unfold expandPasses at h
      obtain ⟨⟨first, finish⟩, hfirst, h⟩ := h.of_bind
      obtain ⟨more, hmore, h⟩ := h.of_bind
      cases h.of_pure
      rw [List.replicate_succ, List.flatten_cons]
      exact expandNames_yields hfirst (ih hmore)

/-! ## §2  Tracks -/

namespace Occurrence

/-- What a track plays: nothing if it is muted, else some of the notes of its patterns, performed. -/
inductive PlaysTrack (o : Occurrence α) (patterns : PatternTable α) (density : Option α) :
    String × Track α → List (PlayedNote α) → Prop
  | mute {name : String} {t : Track α} : t.mute = true → PlaysTrack o patterns density (name, t) []
  | sounding {name : String} {t : Track α} {notes kept : List (Note α)}
      {played : List (PlayedNote α)} : t.mute = false →
      InPatternOrder (o.context patterns density t) 0.0
        (List.replicate t.repeats.toNat t.patterns).flatten notes →
      kept.Sublist notes → List.Forall₂ (Performs name) kept played →
      PlaysTrack o patterns density (name, t) played

variable {o : Occurrence α} {patterns : PatternTable α} {swing : α}

omit [Scalar α] in
/-- A result is the same whatever a fault would be reported with. -/
theorem yields_of_inTrack {β : Type} {track : String} {r : Run β} {x : β}
    (h : (o.inTrack track r).Yields x) : r.Yields x := by
  obtain ⟨s, s', h⟩ := h
  unfold inTrack at h
  split at h
  · cases h
  · next hr =>
      cases h
      exact ⟨s, s', hr⟩

/-- A track without patterns has no notes in any order. -/
theorem inPatternOrder_nil {t : Track α} (h : t.patterns = []) (cursor : α) :
    InPatternOrder c cursor (List.replicate t.repeats.toNat t.patterns).flatten [] := by
  have hnames : (List.replicate t.repeats.toNat t.patterns).flatten = [] := by
    simp [h]
  rw [hnames]
  exact .nil cursor

theorem playTrack_yields {density : Option α} {name : String} {t : Track α}
    {played : List (PlayedNote α)}
    (h : (o.playTrack patterns swing density name t).Yields played) :
    o.PlaysTrack patterns density (name, t) played := by
  unfold playTrack at h
  split at h
  · next hmute =>
      cases h.of_pure
      exact .mute hmute
  · next hmute =>
      have hsounding : t.mute = false := Bool.eq_false_iff.2 hmute
      split at h
      · next hempty =>
          -- No names give no notes, which is one of the orders.
          obtain ⟨_, _, h⟩ := h.of_bind
          cases h.of_pure
          exact .sounding hsounding (inPatternOrder_nil (List.isEmpty_iff.1 hempty) 0.0) .slnil .nil
      · obtain ⟨notes, hnotes, h⟩ := h.of_bind
        obtain ⟨performance, _, h⟩ := h.of_bind
        obtain ⟨kept, hsub, hkept⟩ := Performance.play_yields h
        exact .sounding hsounding (expandPasses_yields (yields_of_inTrack hnotes)) hsub hkept

/-- No note that a track plays begins before the section does. -/
theorem PlaysTrack.begins {density : Option α} {track : String × Track α}
    {played : List (PlayedNote α)} (h : o.PlaysTrack patterns density track played)
    {n : PlayedNote α} (hn : n ∈ played) : ∃ beat, n.beat = Scalar.max 0.0 beat := by
  cases h with
  | mute => cases hn
  | sounding _ _ _ hplayed =>
      obtain ⟨m, _, hm⟩ := exists_of_mem_right hplayed hn
      exact hm.begins

/-! ## §3  Occurrences -/

/-- Tracks play one after the other, each its patterns in order. -/
def InTrackOrder (o : Occurrence α) (patterns : PatternTable α) (played : List (PlayedNote α)) :
    Prop :=
  ∃ density parts, List.Forall₂ (o.PlaysTrack patterns density) o.body.tracks parts ∧
    played = parts.flatten

theorem play_yields {played : List (PlayedNote α)} (h : (o.play patterns swing).Yields played) :
    o.InTrackOrder patterns played := by
  unfold play at h
  obtain ⟨density, _, h⟩ := h.of_bind
  obtain ⟨parts, hparts, h⟩ := h.of_bind
  cases h.of_pure
  exact ⟨density, parts, hparts.of_mapM.imp fun _ _ => playTrack_yields, rfl⟩

theorem InTrackOrder.begins {played : List (PlayedNote α)} (h : o.InTrackOrder patterns played)
    {n : PlayedNote α} (hn : n ∈ played) : ∃ beat, n.beat = Scalar.max 0.0 beat := by
  obtain ⟨density, parts, hparts, rfl⟩ := h
  obtain ⟨part, hpart, hn⟩ := List.mem_flatten.1 hn
  obtain ⟨track, _, htrack⟩ := exists_of_mem_right hparts hpart
  exact htrack.begins hn

/-- Timing a note changes nothing else about it. -/
theorem note_of_timeNote {n : PlayedNote α} {timed : TimedNote α} (h : o.timeNote n = .ok timed) :
    timed.note = n := by
  obtain ⟨time, _, h⟩ := Outcome.bind_ok h
  obtain ⟨finish, _, h⟩ := Outcome.bind_ok h
  rw [← Outcome.pure_ok h]

theorem map_note_of_timeNote {played : List (PlayedNote α)} {timed : List (TimedNote α)}
    (h : List.Forall₂ (fun n t => o.timeNote n = .ok t) played timed) :
    timed.map (·.note) = played := by
  induction h with
  | nil => rfl
  | cons hn _ ih => rw [List.map_cons, note_of_timeNote hn, ih]

theorem automate_yields {path : String} {a : Automation α} {samples : List (AutomationEvent α)}
    (h : (o.automate path a).Yields samples) : o.sample path a = .ok samples := by
  unfold automate at h
  obtain ⟨_, _, h⟩ := h.of_bind
  exact h.of_lift

/-- What an occurrence is compiled to: all that it plays, each note with its time, the samples of its
automation, path by path, and the time that it takes. -/
structure CompilesTo (o : Occurrence α) (patterns : PatternTable α) (swing : α)
    (x : CompiledSection α) : Prop where
  occurrence : x.occurrence = o
  played : (o.play patterns swing).Yields (x.notes.map (·.note))
  timed : ∀ n ∈ x.notes, o.timeNote n.note = .ok n
  sampled : ∃ events, List.Forall₂ (fun path samples => o.sample path.1 path.2 = .ok samples)
    o.body.automation events ∧ x.automation = events.flatten
  seconds : o.secondsAt o.beats = .ok x.seconds

theorem CompilesTo.inTrackOrder {x : CompiledSection α} (h : o.CompilesTo patterns swing x) :
    o.InTrackOrder patterns (x.notes.map (·.note)) :=
  play_yields h.played

/-- **A compiled occurrence taken apart.** -/
theorem compile_yields {x : CompiledSection α} (h : (o.compile patterns swing).Yields x) :
    o.CompilesTo patterns swing x := by
  unfold compile at h
  obtain ⟨played, hplayed, h⟩ := h.of_bind
  obtain ⟨notes, hnotes, h⟩ := h.of_bind
  obtain ⟨events, hevents, h⟩ := h.of_bind
  obtain ⟨seconds, hseconds, h⟩ := h.of_bind
  cases h.of_pure
  have htimed : List.Forall₂ (fun n t => o.timeNote n = .ok t) played notes :=
    Outcome.mapM_ok hnotes.of_lift
  have hsame : notes.map (·.note) = played := map_note_of_timeNote htimed
  refine ⟨rfl, hsame ▸ hplayed, fun n hn => ?_, ⟨events, ?_, rfl⟩, hseconds.of_lift⟩
  · obtain ⟨m, _, hm⟩ := exists_of_mem_right htimed hn
    rwa [note_of_timeNote hm]
  · exact hevents.of_mapM.imp fun _ _ => automate_yields

end Occurrence

end Partitura

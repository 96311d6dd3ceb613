import Partitura.Midi.Export
import Partitura.Proofs.Computation
import Partitura.Proofs.Number.Decimal
import Partitura.Proofs.Sorting

/-!
# The tempo in force

A tempo message holds until the next one. Which one holds at a tick is read off a track by adding its
deltas up again (§1). In the tempo track of a timeline it is that of the last section or that of the
last sample of an automated tempo, whichever lies later; where both lie on one tick the sample comes
after the section, so it holds (§3).
-/

namespace Partitura.Midi

/-! ## §1  Ticks from the start -/

/-- The messages of a track, each with its tick counted from the start. -/
def absolute : Nat → Track → List (Nat × Message)
  | _, [] => []
  | now, (delta, message) :: rest => (now + delta, message) :: absolute (now + delta) rest

/-- Adding deltas up gives back the ticks that they were taken from. -/
theorem absolute_withDeltas {now : Nat} {events : List Event}
    (hascending : events.Pairwise fun a b => a.tick ≤ b.tick) (hnow : ∀ e ∈ events, now ≤ e.tick) :
    absolute now (withDeltas now events) = events.map fun e => (e.tick, e.message) := by
  induction events generalizing now with
  | nil => rfl
  | cons e events ih =>
      obtain ⟨hnext, hrest⟩ := List.pairwise_cons.1 hascending
      have htick : now + (e.tick - now) = e.tick := Nat.add_sub_of_le (hnow e List.mem_cons_self)
      rw [withDeltas, absolute, htick, ih hrest hnext]
      rfl

/-- The microseconds of a beat that a message sets, if it sets any. -/
def Message.microseconds? : Message → Option Nat
  | .setTempo microseconds => some microseconds
  | _ => none

/-- The microseconds of a beat that are in force at a tick: those of the last tempo message at the
tick or before it, in the order of the track. -/
def tempoInForce (track : Track) (tick : Nat) : Option Nat :=
  ((absolute 0 track).filter fun e => e.1 ≤ tick && e.2.microseconds?.isSome).getLast?.bind
    (·.2.microseconds?)

/-- Whether an event sets a tempo at a tick or before it. -/
def Event.setsBy (tick : Nat) (e : Event) : Bool :=
  e.tick ≤ tick && e.message.microseconds?.isSome

/-- The messages of events stand at the ticks of the events, in the order of the track. -/
theorem absolute_ofEvents (name : String) (events : List Event) :
    absolute 0 (Track.ofEvents name events) = (0, .trackName name) ::
      (events.mergeSort Event.before).map fun e => (e.tick, e.message) := by
  have hascending : (events.mergeSort Event.before).Pairwise fun a b => a.tick ≤ b.tick := by
    refine (stablySorted_mergeSort_before events).ascending.imp fun {a b} hle => ?_
    rw [Prod.Lex.toLex_le_toLex] at hle
    rcases hle with hlt | ⟨heq, _⟩
    · exact le_of_lt hlt
    · exact le_of_eq heq
  unfold Track.ofEvents
  rw [absolute, Nat.add_zero, absolute_withDeltas hascending fun e _ => Nat.zero_le e.tick]

theorem tempoInForce_ofEvents (name : String) (events : List Event) (tick : Nat) :
    tempoInForce (Track.ofEvents name events) tick =
      ((events.mergeSort Event.before).filter (Event.setsBy tick)).getLast?.bind
        (·.message.microseconds?) := by
  unfold tempoInForce
  rw [absolute_ofEvents, List.filter_cons_of_neg (by simp [Message.microseconds?]),
    List.filter_map, List.getLast?_map, Option.bind_map]
  rfl

/-! ## §2  The events of a timeline -/

variable [Elementary]

/-- The tick of a beat. -/
def tickOf (beat : Rat) : Nat :=
  (Rational.round (beat * 480)).toNat

/-- The microseconds of a beat at a tempo. -/
def microsecondsOf (bpm : Rat) : Nat :=
  (Rational.round (60000000 / bpm)).toNat

/-- The tempo of a section, where it begins. -/
def ownTempo (m : SectionMarker Rat) : Event :=
  ⟨tickOf m.beat, 0, .setTempo (microsecondsOf m.tempo)⟩

/-- The tempo of a sample. -/
def sampledTempo (e : AutomationEvent Rat) : Event :=
  ⟨tickOf e.beat, 2, .setTempo (microsecondsOf (max 1 e.value))⟩

omit [Elementary] in
theorem tickOf_mono {b₁ b₂ : Rat} (h : b₁ ≤ b₂) : tickOf b₁ ≤ tickOf b₂ := by
  unfold tickOf
  refine Int.toNat_le_toNat (Rational.round_mono ?_)
  linarith

omit [Elementary] in
/-- Events of one rank stand in the order of their beats. -/
theorem place_mono {b₁ b₂ : Rat} (h : b₁ ≤ b₂) (rank : Nat) :
    toLex (tickOf b₁, rank) ≤ toLex (tickOf b₂, rank) := by
  rw [Prod.Lex.toLex_le_toLex]
  rcases (tickOf_mono h).lt_or_eq with hlt | heq
  · exact .inl hlt
  · exact .inr ⟨heq, le_rfl⟩

theorem ticks_eq (beat : Rat) : ticks beat = .ok (tickOf beat) := rfl

theorem eq_of_tempoMessage {bpm : Rat} {message : Message} (h : tempoMessage bpm = .ok message) :
    message = .setTempo (microsecondsOf bpm) := by
  obtain ⟨beat, hbeat, h⟩ := Outcome.bind_ok h
  obtain ⟨microseconds, hmicroseconds, h⟩ := Outcome.bind_ok h
  have hquotient : beat = 60000000 / bpm := by
    unfold divide at hbeat
    split at hbeat
    · cases hbeat
    · rw [← Except.ok.inj hbeat]
      norm_num
  rw [Exact.roundOf_eq] at hmicroseconds
  cases hmicroseconds
  split at h
  · rw [← Outcome.pure_ok h, hquotient]
    rfl
  · cases h

theorem eq_of_markerEvents {m : SectionMarker Rat} {events : List Event}
    (h : markerEvents m = .ok events) :
    events = [ownTempo m, ⟨tickOf m.beat, 1, .marker m.name⟩] := by
  obtain ⟨tick, htick, h⟩ := Outcome.bind_ok h
  obtain ⟨message, hmessage, h⟩ := Outcome.bind_ok h
  rw [ticks_eq] at htick
  cases htick
  rw [← Outcome.pure_ok h, eq_of_tempoMessage hmessage]
  rfl

/-- A section can be written if its tempo can. -/
theorem exists_markerEvents {m : SectionMarker Rat}
    (h : ∃ message, tempoMessage m.tempo = .ok message) : ∃ events, markerEvents m = .ok events := by
  obtain ⟨message, h⟩ := h
  unfold markerEvents
  rw [ticks_eq, h]
  exact ⟨_, rfl⟩

theorem eq_of_sampleEvent {e : AutomationEvent Rat} {event : Event}
    (h : sampleEvent e = .ok event) : event = sampledTempo e := by
  obtain ⟨tick, htick, h⟩ := Outcome.bind_ok h
  obtain ⟨message, hmessage, h⟩ := Outcome.bind_ok h
  rw [ticks_eq] at htick
  cases htick
  rw [← Outcome.pure_ok h, eq_of_tempoMessage hmessage, Exact.max_eq]
  unfold sampledTempo Automation.minTempo
  norm_num

theorem exists_sampleEvent {e : AutomationEvent Rat}
    (h : ∃ message, tempoMessage (Scalar.max Automation.minTempo e.value) = .ok message) :
    ∃ event, sampleEvent e = .ok event := by
  obtain ⟨message, h⟩ := h
  unfold sampleEvent
  rw [ticks_eq, h]
  exact ⟨_, rfl⟩

/-- The samples of the tempo at a tick or before it. -/
def samplesBy (tick : Nat) (t : Timeline Rat) : List (AutomationEvent Rat) :=
  t.automation.filter fun e => e.path = AutomationPath.tempoPath && tickOf e.beat ≤ tick

/-- The sections that begin at a tick or before it. -/
def sectionsBy (tick : Nat) (t : Timeline Rat) : List (SectionMarker Rat) :=
  t.sections.filter fun m => tickOf m.beat ≤ tick

/-- The events of a timeline that has sections. -/
theorem tempoEvents_eq {t : Timeline Rat} {events : List Event} (h : tempoEvents t = .ok events)
    (hsections : t.sections ≠ []) :
    events = (t.sections.flatMap fun m => [ownTempo m, ⟨tickOf m.beat, 1, .marker m.name⟩]) ++
      (t.automation.filter (·.path = AutomationPath.tempoPath)).map sampledTempo := by
  obtain ⟨standing, hstanding, h⟩ := Outcome.bind_ok h
  obtain ⟨markers, hmarkers, h⟩ := Outcome.bind_ok h
  obtain ⟨samples, hsamples, h⟩ := Outcome.bind_ok h
  have hnone : standing = [] := by
    unfold standingTempo at hstanding
    rw [if_neg fun hempty => hsections (List.isEmpty_iff.1 hempty)] at hstanding
    exact (Outcome.pure_ok hstanding).symm
  rw [← Outcome.pure_ok h, hnone, List.nil_append,
    eq_map_of_forall₂ ((Outcome.mapM_ok hmarkers).imp fun _ _ => eq_of_markerEvents),
    eq_map_of_forall₂ ((Outcome.mapM_ok hsamples).imp fun _ _ => eq_of_sampleEvent)]
  rfl

omit [Elementary] in
theorem setsBy_ownTempo (tick : Nat) (m : SectionMarker Rat) :
    (ownTempo m).setsBy tick = decide (tickOf m.beat ≤ tick) :=
  Bool.and_true _

omit [Elementary] in
theorem setsBy_sampledTempo (tick : Nat) (e : AutomationEvent Rat) :
    (sampledTempo e).setsBy tick = decide (tickOf e.beat ≤ tick) :=
  Bool.and_true _

omit [Elementary] in
/-- The tempo changes by a tick: those of sections, then those of samples. -/
theorem filter_setsBy (tick : Nat) (t : Timeline Rat) :
    ((t.sections.flatMap fun m => [ownTempo m, ⟨tickOf m.beat, 1, .marker m.name⟩]) ++
        (t.automation.filter (·.path = AutomationPath.tempoPath)).map sampledTempo).filter
          (Event.setsBy tick) =
      (sectionsBy tick t).map ownTempo ++ (samplesBy tick t).map sampledTempo := by
  have hsections : (t.sections.flatMap fun m =>
      [ownTempo m, ⟨tickOf m.beat, 1, .marker m.name⟩]).filter (Event.setsBy tick) =
        (sectionsBy tick t).map ownTempo := by
    unfold sectionsBy
    induction t.sections with
    | nil => rfl
    | cons m sections ih =>
        have hmarker : Event.setsBy tick ⟨tickOf m.beat, 1, .marker m.name⟩ = false := by
          simp [Event.setsBy, Message.microseconds?]
        rw [List.flatMap_cons, List.filter_append, ih, List.filter_cons, List.filter_cons,
          setsBy_ownTempo, hmarker, List.filter_cons]
        split <;> rfl
  have hsamples : Event.setsBy tick ∘ sampledTempo = fun e => decide (tickOf e.beat ≤ tick) :=
    funext fun e => setsBy_sampledTempo tick e
  rw [List.filter_append, hsections, List.filter_map, hsamples, List.filter_filter]
  unfold samplesBy
  congr 2
  exact List.filter_congr fun e _ => Bool.and_comm _ _

/-! ## §3  What is in force -/

/-- Whichever lies later holds, the section or the sample; of two on one tick the sample. -/
def prevailing (m : SectionMarker Rat) : Option (AutomationEvent Rat) → Nat
  | some e => if tickOf m.beat ≤ tickOf e.beat then microsecondsOf (max 1 e.value)
    else microsecondsOf m.tempo
  | none => microsecondsOf m.tempo

/-- **The tempo in force** is that of the last section or that of the last sample, whichever lies
later. -/
theorem tempoInForce_tempoTrack {t : Timeline Rat} {track : Track} (h : tempoTrack t = .ok track)
    (hsections : t.sections.Pairwise fun m next => m.beat ≤ next.beat)
    (hautomation : t.automation.Pairwise fun e next => e.beat ≤ next.beat) {tick : Nat}
    {m : SectionMarker Rat} (hm : (sectionsBy tick t).getLast? = some m) :
    tempoInForce track tick = some (prevailing m (samplesBy tick t).getLast?) := by
  obtain ⟨events, hevents, h⟩ := Outcome.bind_ok h
  obtain ⟨name, _, h⟩ := Outcome.bind_ok h
  have hmem : m ∈ t.sections := List.mem_of_mem_filter (List.mem_of_getLast? hm)
  have hsorted := (stablySorted_mergeSort_before events).filter (Event.setsBy tick)
  rw [tempoEvents_eq hevents (List.ne_nil_of_mem hmem), filter_setsBy] at hsorted
  rw [← Outcome.pure_ok h, tempoInForce_ofEvents,
    tempoEvents_eq hevents (List.ne_nil_of_mem hmem)]
  -- Both the changes by sections and those by samples come in the order of their ticks.
  have hown : ((sectionsBy tick t).map ownTempo).Pairwise fun a b =>
      toLex (a.tick, a.rank) ≤ toLex (b.tick, b.rank) := by
    exact List.pairwise_map.2 ((hsections.filter _).imp fun hle => place_mono hle 0)
  have hsampled : ((samplesBy tick t).map sampledTempo).Pairwise fun a b =>
      toLex (a.tick, a.rank) ≤ toLex (b.tick, b.rank) := by
    exact List.pairwise_map.2 ((hautomation.filter _).imp fun hle => place_mono hle 2)
  have hlast : ((sectionsBy tick t).map ownTempo).getLast? = some (ownTempo m) := by
    rw [List.getLast?_map, hm]
    rfl
  cases hsample : (samplesBy tick t).getLast? with
  | none =>
      -- Without samples the sections are alone.
      have hnone : samplesBy tick t = [] := List.getLast?_eq_none_iff.1 hsample
      rw [hnone, List.map_nil, List.append_nil] at hsorted
      rw [hsorted.getLast?_of_greatest hlast (le_of_getLast? hown hlast)]
      rfl
  | some e =>
      have hlate : ((samplesBy tick t).map sampledTempo).getLast? = some (sampledTempo e) := by
        rw [List.getLast?_map, hsample]
        rfl
      -- On one tick the rank of the sample is the higher one.
      have hlater : toLex ((ownTempo m).tick, (ownTempo m).rank) ≤
          toLex ((sampledTempo e).tick, (sampledTempo e).rank) ↔ tickOf m.beat ≤ tickOf e.beat := by
        rw [Prod.Lex.toLex_le_toLex]
        unfold ownTempo sampledTempo
        dsimp only
        omega
      rw [hsorted.getLast?_append hown hsampled hlast hlate]
      unfold prevailing
      dsimp only
      by_cases hle : tickOf m.beat ≤ tickOf e.beat
      · rw [if_pos (hlater.2 hle), if_pos hle]
        rfl
      · rw [if_neg (fun hkey => hle (hlater.1 hkey)), if_neg hle]
        rfl

end Partitura.Midi

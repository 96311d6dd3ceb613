import Partitura.Proofs.Midi.InForce

/-!
# Struck and released

A note that is exported is a *strike*: a key of a channel goes down at one tick and up at a later one.
The track of an instrument is made of the strikes of its notes (§1). Sorting them by ticks mixes the
messages of many notes, and the ticks between them are differences of neighbours, but nothing gets out
of hand (`instrumentTrack_orderly`): no difference is negative, no key is released more often than it
was struck, none is left down at the end, and where the strikes of a key do not overlap they alternate
with their releases.

Two facts carry this. A release comes strictly after its own strike in the order of the track, so in
front of any place there are at least as many strikes as releases (§2). And strikes of one key that do
not overlap are already in the order of the track once they are sorted by their starts (§3).
-/

namespace Partitura.Midi

variable {α : Type} [Scalar α]

/-! ## §1  Strikes -/

/-- From which tick to which a key of a channel is down, and how hard it is struck. -/
structure Strike where
  start : Nat
  finish : Nat
  channel : Nat
  note : Nat
  velocity : Nat

namespace Strike

def on (s : Strike) : Message :=
  .noteOn s.channel s.note s.velocity

def off (s : Strike) : Message :=
  .noteOff s.channel s.note

/-- The two events of a strike. -/
def events (s : Strike) : List Event :=
  [⟨s.start, 1, s.on⟩, ⟨s.finish, 0, s.off⟩]

/-- The two messages of a strike, each with its tick. -/
def messages (s : Strike) : List (Nat × Message) :=
  [(s.start, s.on), (s.finish, s.off)]

/-- What a note of an instrument is struck as. -/
structure Plays (channel : Nat) (n : NoteEvent α) (s : Strike) : Prop where
  start : ticks n.beat = .ok s.start
  finish : ∃ tick, ticks (n.beat + n.beats) = .ok tick ∧ s.finish = max (s.start + 1) tick
  channel : s.channel = if n.isDrum then drumChannel else channel
  note : noteNumber? n.pitch = .ok (some (s.note : Int))
  velocity : Midi.velocity n.velocity = .ok s.velocity

/-- A key is down for at least a tick. -/
theorem Plays.lasts {channel : Nat} {n : NoteEvent α} {s : Strike} (h : s.Plays channel n) :
    s.start + 1 ≤ s.finish := by
  obtain ⟨tick, _, hfinish⟩ := h.finish
  rw [hfinish]
  exact le_max_left _ _

end Strike

/-- Whether a note has a number. Only drums may have none. -/
def hasNumber (n : NoteEvent α) : Bool :=
  match noteNumber? n.pitch with
  | .ok (some _) => true
  | _ => false

theorem exists_strike {channel : Nat} {n : NoteEvent α} {number : Int} {events : List Event}
    (hnumber : noteNumber? n.pitch = .ok (some number))
    (h : strikeEvents channel n number = .ok events) :
    ∃ s : Strike, s.Plays channel n ∧ events = s.events := by
  obtain ⟨start, hstart, h⟩ := Outcome.bind_ok h
  obtain ⟨finish, hfinish, h⟩ := Outcome.bind_ok h
  obtain ⟨hard, hhard, h⟩ := Outcome.bind_ok h
  obtain ⟨note, hnote, h⟩ := Outcome.bind_ok h
  unfold dataByte at hnote
  split at hnote
  · next hrange =>
      cases hnote
      have hcast : ((number.toNat : Nat) : Int) = number := Int.toNat_of_nonneg hrange.1
      refine ⟨⟨start, max (start + 1) finish, if n.isDrum then drumChannel else channel,
        number.toNat, hard⟩, ⟨hstart, ⟨finish, hfinish, rfl⟩, rfl, ?_, hhard⟩, ?_⟩
      · rw [hcast]
        exact hnumber
      · exact (Outcome.pure_ok h).symm
  · cases hnote

/-- The notes of a track that have numbers are struck, in their order, and nothing else is. -/
theorem exists_strikes {channel : Nat} {notes : List (NoteEvent α)} {parts : List (List Event)}
    (h : List.Forall₂ (fun n events => noteEvents channel n = .ok events) notes parts) :
    ∃ strikes, List.Forall₂ (fun n s => Strike.Plays channel n s) (notes.filter hasNumber) strikes ∧
      parts.flatten = strikes.flatMap Strike.events := by
  induction h with
  | nil => exact ⟨[], .nil, rfl⟩
  | @cons n events notes parts hn _ ih =>
      obtain ⟨strikes, hplays, hparts⟩ := ih
      obtain ⟨number?, hnumber, hn⟩ := Outcome.bind_ok hn
      cases number? with
      | none =>
          have hnone : hasNumber n = false := by
            unfold hasNumber
            rw [hnumber]
          cases hn
          refine ⟨strikes, ?_, by simpa using hparts⟩
          rw [List.filter_cons_of_neg (by simp [hnone])]
          exact hplays
      | some number =>
          have hsome : hasNumber n = true := by
            unfold hasNumber
            rw [hnumber]
          obtain ⟨s, hs, rfl⟩ := exists_strike hnumber hn
          refine ⟨s :: strikes, ?_, ?_⟩
          · rw [List.filter_cons_of_pos hsome]
            exact .cons hs hplays
          · rw [List.flatten_cons, List.flatMap_cons, hparts]

theorem instrumentTrack_strikes {t : Timeline α} {name : String} {channel : Nat} {track : Track}
    (h : instrumentTrack t name channel = .ok track) :
    ∃ strikes, List.Forall₂ (fun n s => Strike.Plays channel n s)
        ((t.notesFor name).filter hasNumber) strikes ∧
      track = Track.ofEvents name (strikes.flatMap Strike.events) := by
  obtain ⟨parts, hparts, h⟩ := Outcome.bind_ok h
  obtain ⟨strikes, hplays, hevents⟩ := exists_strikes (Outcome.mapM_ok hparts)
  refine ⟨strikes, hplays, ?_⟩
  rw [← hevents]
  exact (Outcome.pure_ok h).symm

/-! ## §2  Down before up -/

/-- Whether a message strikes a key of a channel. -/
def Message.strikes (channel note : Nat) : Message → Bool
  | .noteOn c n _ => c = channel && n = note
  | _ => false

/-- Whether a message releases a key of a channel. -/
def Message.releases (channel note : Nat) : Message → Bool
  | .noteOff c n => c = channel && n = note
  | _ => false

/-- The place of an event in the order of a track. -/
def Event.place (e : Event) : Nat ×ₗ Nat :=
  toLex (e.tick, e.rank)

/-- Where whatever closes lies after something that opens, nothing is closed in front of any place of
a sorted list that was not opened there. -/
theorem countP_le_of_prefix {β κ : Type} [LinearOrder κ] {key : β → κ} {sorted front : List β}
    (hascending : sorted.Pairwise fun a b => key a ≤ key b) {opens closes : β → Bool}
    (hbefore : ∀ k, sorted.countP (fun x => closes x && decide (key x ≤ k)) ≤
      sorted.countP fun x => opens x && decide (key x < k))
    (h : front <+: sorted) : front.countP closes ≤ front.countP opens := by
  obtain ⟨rest, rfl⟩ := h
  cases hlast : front.getLast? with
  | none =>
      rw [List.getLast?_eq_none_iff.1 hlast]
      exact le_rfl
  | some last =>
      obtain ⟨hfront, _, happart⟩ := List.pairwise_append.1 hascending
      have hgreatest := le_of_getLast? hfront hlast
      have hafter : ∀ x ∈ rest, key last ≤ key x := happart last (List.mem_of_getLast? hlast)
      calc front.countP closes
          = front.countP (fun x => closes x && decide (key x ≤ key last)) :=
            List.countP_congr fun x hx => by simp [hgreatest x hx]
        _ ≤ (front ++ rest).countP (fun x => closes x && decide (key x ≤ key last)) :=
            (List.sublist_append_left front rest).countP_le
        _ ≤ (front ++ rest).countP (fun x => opens x && decide (key x < key last)) :=
            hbefore (key last)
        _ = front.countP (fun x => opens x && decide (key x < key last)) := by
            have hnone : rest.countP (fun x => opens x && decide (key x < key last)) = 0 := by
              rw [List.countP_eq_zero]
              intro x hx
              simp [hafter x hx]
            rw [List.countP_append, hnone, Nat.add_zero]
        _ ≤ front.countP opens :=
            List.countP_mono_left fun x _ hx => (Bool.and_eq_true_iff.1 hx).1

section Order

variable {strikes : List Strike}

/-- A key goes down before it goes up. -/
theorem Strike.place_lt {s : Strike} (h : s.start + 1 ≤ s.finish) :
    Event.place ⟨s.start, 1, s.on⟩ < Event.place ⟨s.finish, 0, s.off⟩ := by
  unfold Event.place
  rw [Prod.Lex.toLex_lt_toLex]
  exact .inl h

theorem countP_releases_le (hlasts : ∀ s ∈ strikes, s.start + 1 ≤ s.finish) (channel note : Nat)
    (k : Nat ×ₗ Nat) :
    (strikes.flatMap Strike.events).countP
        (fun e => e.message.releases channel note && decide (e.place ≤ k)) ≤
      (strikes.flatMap Strike.events).countP
        fun e => e.message.strikes channel note && decide (e.place < k) := by
  induction strikes with
  | nil => exact le_rfl
  | cons s strikes ih =>
      obtain ⟨hs, hrest⟩ := List.forall_mem_cons.1 hlasts
      rw [List.flatMap_cons, List.countP_append, List.countP_append]
      refine Nat.add_le_add ?_ (ih hrest)
      have hlt := Strike.place_lt hs
      by_cases hle : Event.place ⟨s.finish, 0, s.off⟩ ≤ k
      · -- If the release is counted, so is the strike.
        have hlt' := hlt.trans_le hle
        simp [Strike.events, Strike.on, Strike.off, List.countP_cons, Message.strikes,
          Message.releases] at hle hlt' ⊢
        simp [hle, hlt']
      · have hnone : s.events.countP
            (fun e => e.message.releases channel note && decide (e.place ≤ k)) = 0 := by
          simp [Strike.events, Strike.on, Message.releases, hle]
        rw [hnone]
        exact Nat.zero_le _

theorem countP_releases_eq (strikes : List Strike) (channel note : Nat) :
    (strikes.flatMap Strike.events).countP (·.message.releases channel note) =
      (strikes.flatMap Strike.events).countP (·.message.strikes channel note) := by
  induction strikes with
  | nil => rfl
  | cons s strikes ih =>
      rw [List.flatMap_cons, List.countP_append, List.countP_append, ih]
      simp [Strike.events, Strike.on, Strike.off, List.countP_cons, Message.strikes,
        Message.releases]

/-- The events of strikes in the order of their track. -/
def inOrder (strikes : List Strike) : List Event :=
  (strikes.flatMap Strike.events).mergeSort Event.before

theorem inOrder_perm (strikes : List Strike) :
    (inOrder strikes).Perm (strikes.flatMap Strike.events) :=
  List.mergeSort_perm _ _

theorem ascending_inOrder (strikes : List Strike) :
    (inOrder strikes).Pairwise fun a b => a.place ≤ b.place :=
  (stablySorted_mergeSort_before _).ascending

theorem map_message_withDeltas (last : Nat) (events : List Event) :
    (withDeltas last events).map (·.2) = events.map (·.message) := by
  induction events generalizing last with
  | nil => rfl
  | cons e events ih => rw [withDeltas, List.map_cons, List.map_cons, ih]

/-- The messages of a track in their order: its name, then those of its events. -/
theorem map_message_ofEvents (name : String) (strikes : List Strike) :
    (Track.ofEvents name (strikes.flatMap Strike.events)).map (·.2) =
      .trackName name :: (inOrder strikes).map (·.message) := by
  unfold Track.ofEvents
  rw [List.map_cons, map_message_withDeltas]
  rfl

/-- Nothing is released before it was struck. -/
theorem releases_le_strikes (hlasts : ∀ s ∈ strikes, s.start + 1 ≤ s.finish) (name : String)
    (channel note : Nat) {front : List Message}
    (h : front <+: (Track.ofEvents name (strikes.flatMap Strike.events)).map (·.2)) :
    front.countP (Message.releases channel note) ≤ front.countP (Message.strikes channel note) := by
  rw [map_message_ofEvents] at h
  rcases List.prefix_cons_iff.1 h with rfl | ⟨front, rfl, hfront⟩
  · exact le_rfl
  · obtain ⟨count, rfl⟩ : ∃ count, front = ((inOrder strikes).take count).map (·.message) := by
      rw [List.prefix_iff_eq_take.1 hfront, ← List.map_take]
      exact ⟨_, rfl⟩
    rw [List.countP_cons_of_neg (by simp [Message.releases]),
      List.countP_cons_of_neg (by simp [Message.strikes]), List.countP_map, List.countP_map]
    refine countP_le_of_prefix (ascending_inOrder strikes) (fun k => ?_) (List.take_prefix _ _)
    rw [(inOrder_perm strikes).countP_eq, (inOrder_perm strikes).countP_eq]
    exact countP_releases_le hlasts channel note k

/-- Nothing is left down. -/
theorem releases_eq_strikes (name : String) (strikes : List Strike) (channel note : Nat) :
    ((Track.ofEvents name (strikes.flatMap Strike.events)).map (·.2)).countP
        (Message.releases channel note) =
      ((Track.ofEvents name (strikes.flatMap Strike.events)).map (·.2)).countP
        (Message.strikes channel note) := by
  rw [map_message_ofEvents, List.countP_cons_of_neg (by simp [Message.releases]),
    List.countP_cons_of_neg (by simp [Message.strikes]), List.countP_map, List.countP_map,
    (inOrder_perm strikes).countP_eq, (inOrder_perm strikes).countP_eq]
  exact countP_releases_eq strikes channel note

end Order

/-! ## §3  In turn -/

/-- Strikes of a key and its releases in turn, beginning with a strike and ending with a release. -/
inductive InTurn (channel note : Nat) : List Message → Prop
  | nil : InTurn channel note []
  | strike (velocity : Nat) {rest : List Message} (h : InTurn channel note rest) :
      InTurn channel note (.noteOn channel note velocity :: .noteOff channel note :: rest)

/-- Whether a message strikes or releases a key of a channel. -/
def Message.concerns (channel note : Nat) (m : Message) : Bool :=
  m.strikes channel note || m.releases channel note

/-- Two strikes that do not overlap, if they are of one key. -/
def Strike.Apart (a b : Strike) : Prop :=
  a.channel = b.channel → a.note = b.note → a.finish ≤ b.start ∨ b.finish ≤ a.start

theorem Strike.Apart.symm {a b : Strike} (h : a.Apart b) : b.Apart a :=
  fun hchannel hnote => (h hchannel.symm hnote.symm).symm

/-- Whether a strike is one of a key. -/
def Strike.isOf (channel note : Nat) (s : Strike) : Bool :=
  s.channel = channel && s.note = note

/-- The strikes of a key in the order of their starts. -/
def strikesOf (channel note : Nat) (strikes : List Strike) : List Strike :=
  (strikes.filter (Strike.isOf channel note)).mergeSort fun a b => decide (a.start ≤ b.start)

section Turns

variable {strikes : List Strike} {channel note : Nat}

theorem stablySorted_strikesOf (channel note : Nat) (strikes : List Strike) :
    StablySorted Strike.start (strikes.filter (Strike.isOf channel note))
      (strikesOf channel note strikes) :=
  stablySorted_mergeSort (fun _ _ => decide_eq_true_iff) _

theorem mem_strikesOf {s : Strike} :
    s ∈ strikesOf channel note strikes ↔ s ∈ strikes ∧ s.channel = channel ∧ s.note = note := by
  rw [(stablySorted_strikesOf channel note strikes).mem_iff, List.mem_filter]
  simp [Strike.isOf]

/-- Of the strikes of a key that do not overlap, each ends before the next one starts. -/
theorem pairwise_strikesOf (hlasts : ∀ s ∈ strikes, s.start + 1 ≤ s.finish)
    (hapart : strikes.Pairwise Strike.Apart) :
    (strikesOf channel note strikes).Pairwise fun a b => a.finish ≤ b.start := by
  have hsorted := stablySorted_strikesOf channel note strikes
  have happart' : (strikesOf channel note strikes).Pairwise Strike.Apart :=
    (hsorted.perm.pairwise_iff Strike.Apart.symm).2 (hapart.filter _)
  refine (hsorted.ascending.and happart').imp_of_mem ?_
  rintro a b ha hb ⟨hstart, happart⟩
  obtain ⟨_, hchannel, hnote⟩ := mem_strikesOf.1 ha
  obtain ⟨hb, hchannel', hnote'⟩ := mem_strikesOf.1 hb
  have hlong := hlasts b hb
  rcases happart (hchannel.trans hchannel'.symm) (hnote.trans hnote'.symm) with h | h
  · exact h
  · omega

/-- Their events are in the order of the track. -/
theorem pairwise_events (hlasts : ∀ s ∈ strikes, s.start + 1 ≤ s.finish)
    (hapart : strikes.Pairwise Strike.Apart) :
    ((strikesOf channel note strikes).flatMap Strike.events).Pairwise
      fun a b => a.place < b.place := by
  have hlasts' : ∀ s ∈ strikesOf channel note strikes, s.start + 1 ≤ s.finish :=
    fun s hs => hlasts s (mem_strikesOf.1 hs).1
  rw [List.pairwise_flatMap]
  constructor
  · intro s hs
    exact List.pairwise_pair.2 (Strike.place_lt (hlasts' s hs))
  · refine (pairwise_strikesOf hlasts hapart).imp_of_mem ?_
    intro a b ha hb hle
    have hlong := hlasts' a ha
    have hlong' := hlasts' b hb
    intro x hx y hy
    simp only [Strike.events, List.mem_cons, List.not_mem_nil, or_false] at hx hy
    -- A release stands before the strikes of its own tick.
    rcases hx with rfl | rfl <;> rcases hy with rfl | rfl <;>
      · simp only [Event.place, Prod.Lex.toLex_lt_toLex]
        omega

theorem Strike.concerns_on (s : Strike) : s.on.concerns channel note = s.isOf channel note :=
  Bool.or_false _

theorem Strike.concerns_off (s : Strike) : s.off.concerns channel note = s.isOf channel note :=
  Bool.false_or _

theorem filter_concerns_events (strikes : List Strike) :
    (strikes.flatMap Strike.events).filter (fun e => e.message.concerns channel note) =
      (strikes.filter (Strike.isOf channel note)).flatMap Strike.events := by
  induction strikes with
  | nil => rfl
  | cons s strikes ih =>
      rw [List.flatMap_cons, List.filter_append, ih]
      by_cases hs : s.isOf channel note = true
      · rw [List.filter_cons_of_pos hs, List.flatMap_cons]
        simp [Strike.events, Strike.concerns_on, Strike.concerns_off, hs]
      · rw [List.filter_cons_of_neg hs]
        simp [Strike.events, Strike.concerns_on, Strike.concerns_off, hs]

/-- What strictly ascends has one member for a place. -/
theorem eq_of_place_eq {events : List Event} (h : events.Pairwise fun a b => a.place < b.place)
    {a b : Event} (ha : a ∈ events) (hb : b ∈ events) (heq : a.place = b.place) : a = b := by
  by_contra hne
  rcases sublist_pair_or ha hb hne with hpair | hpair
  · exact absurd heq (List.pairwise_iff_forall_sublist.1 h hpair).ne
  · exact absurd heq.symm (List.pairwise_iff_forall_sublist.1 h hpair).ne

/-- What a track holds of a key are its strikes one after the other. -/
theorem filter_concerns_inOrder (hlasts : ∀ s ∈ strikes, s.start + 1 ≤ s.finish)
    (hapart : strikes.Pairwise Strike.Apart) :
    (inOrder strikes).filter (fun e => e.message.concerns channel note) =
      (strikesOf channel note strikes).flatMap Strike.events := by
  have hstrict : ((strikesOf channel note strikes).flatMap Strike.events).Pairwise
      fun a b => a.place < b.place := pairwise_events hlasts hapart
  have hperm : ((inOrder strikes).filter fun e => e.message.concerns channel note).Perm
      ((strikesOf channel note strikes).flatMap Strike.events) := by
    refine ((inOrder_perm strikes).filter _).trans ?_
    rw [filter_concerns_events]
    exact (stablySorted_strikesOf channel note strikes).perm.symm.flatMap_right _
  have hascending := (ascending_inOrder strikes).filter fun e => e.message.concerns channel note
  refine hperm.eq_of_pairwise ?_ hascending (hstrict.imp le_of_lt)
  intro a b ha hb hab hba
  exact eq_of_place_eq hstrict (hperm.mem_iff.1 ha) hb (le_antisymm hab hba)

theorem inTurn_events (h : ∀ s ∈ strikes, s.channel = channel ∧ s.note = note) :
    InTurn channel note ((strikes.flatMap Strike.events).map (·.message)) := by
  induction strikes with
  | nil => exact .nil
  | cons s strikes ih =>
      obtain ⟨⟨rfl, rfl⟩, hrest⟩ := List.forall_mem_cons.1 h
      exact .strike s.velocity (ih hrest)

/-- Where the strikes of a key do not overlap, they alternate with their releases. -/
theorem inTurn_of_apart (hlasts : ∀ s ∈ strikes, s.start + 1 ≤ s.finish)
    (hapart : strikes.Pairwise Strike.Apart) (name : String) (channel note : Nat) :
    InTurn channel note (((Track.ofEvents name (strikes.flatMap Strike.events)).map (·.2)).filter
      (Message.concerns channel note)) := by
  rw [map_message_ofEvents, List.filter_cons_of_neg (by simp [Message.concerns, Message.strikes,
    Message.releases]), List.filter_map]
  change InTurn channel note
    (((inOrder strikes).filter fun e => e.message.concerns channel note).map (·.message))
  rw [filter_concerns_inOrder hlasts hapart]
  exact inTurn_events fun s hs => (mem_strikesOf.1 hs).2

end Turns

/-! ## §4  Whole tracks -/

/-- The messages of events, each after the difference of its tick and the one before, the first since
`last`; the differences are whole numbers and may fall below zero. -/
def withDifferences : Int → List Event → List (Int × Message)
  | _, [] => []
  | last, e :: rest => (e.tick - last, e.message) :: withDifferences e.tick rest

/-- Differences of ascending ticks are the ticks in between. -/
theorem withDifferences_eq {last : Nat} {events : List Event}
    (hascending : events.Pairwise fun a b => a.tick ≤ b.tick) (hlast : ∀ e ∈ events, last ≤ e.tick) :
    withDifferences last events = (withDeltas last events).map fun m => ((m.1 : Int), m.2) := by
  induction events generalizing last with
  | nil => rfl
  | cons e events ih =>
      obtain ⟨hnext, hrest⟩ := List.pairwise_cons.1 hascending
      rw [withDifferences, withDeltas, List.map_cons, ih hrest hnext,
        Int.natCast_sub (hlast e List.mem_cons_self)]

theorem tick_le_of_place_le {a b : Event} (h : a.place ≤ b.place) : a.tick ≤ b.tick := by
  unfold Event.place at h
  rw [Prod.Lex.toLex_le_toLex] at h
  omega

/-- A track of strikes in which everything is in order. -/
structure Track.Orderly (name : String) (strikes : List Strike) (track : Track) : Prop where
  /-- The differences of the sorted ticks are those of the track, and none is negative. -/
  differences : withDifferences 0 (inOrder strikes) =
    track.tail.map fun m => ((m.1 : Int), m.2)
  nonneg : ∀ d ∈ withDifferences 0 (inOrder strikes), 0 ≤ d.1
  /-- Added up again, they put every message on its tick; there are no others. -/
  played : (absolute 0 track).Perm ((0, .trackName name) :: strikes.flatMap Strike.messages)
  lasts : ∀ s ∈ strikes, s.start + 1 ≤ s.finish
  down : ∀ channel note front, front <+: track.map (·.2) →
    front.countP (Message.releases channel note) ≤ front.countP (Message.strikes channel note)
  up : ∀ channel note, (track.map (·.2)).countP (Message.releases channel note) =
    (track.map (·.2)).countP (Message.strikes channel note)
  inTurn : strikes.Pairwise Strike.Apart → ∀ channel note,
    InTurn channel note ((track.map (·.2)).filter (Message.concerns channel note))

theorem messages_perm (strikes : List Strike) :
    ((inOrder strikes).map fun e => (e.tick, e.message)).Perm
      (strikes.flatMap Strike.messages) := by
  have hmap : (strikes.flatMap Strike.events).map (fun e => (e.tick, e.message)) =
      strikes.flatMap Strike.messages := by
    rw [List.map_flatMap]
    rfl
  rw [← hmap]
  exact (inOrder_perm strikes).map _

theorem orderly_ofEvents (name : String) {strikes : List Strike}
    (hlasts : ∀ s ∈ strikes, s.start + 1 ≤ s.finish) :
    Track.Orderly name strikes (Track.ofEvents name (strikes.flatMap Strike.events)) := by
  have hdifferences : withDifferences 0 (inOrder strikes) =
      (withDeltas 0 (inOrder strikes)).map fun m => ((m.1 : Int), m.2) :=
    withDifferences_eq ((ascending_inOrder strikes).imp tick_le_of_place_le)
      fun e _ => Nat.zero_le e.tick
  refine ⟨hdifferences, ?_, ?_, hlasts, ?_, ?_, ?_⟩
  · intro d hd
    rw [hdifferences] at hd
    obtain ⟨m, _, rfl⟩ := List.mem_map.1 hd
    exact Int.natCast_nonneg m.1
  · rw [absolute_ofEvents]
    exact (messages_perm strikes).cons _
  · intro channel note front hfront
    exact releases_le_strikes hlasts name channel note hfront
  · exact releases_eq_strikes name strikes
  · exact fun hapart => inTurn_of_apart hlasts hapart name

/-- **An instrument's track is in order.** Its notes that have numbers are struck, each for a tick at
least; no ticks between messages are negative; no key is released before it was struck, and none is
left down; and where the strikes of a key do not overlap, strikes and releases alternate. -/
theorem instrumentTrack_orderly {t : Timeline α} {name : String} {channel : Nat} {track : Track}
    (h : instrumentTrack t name channel = .ok track) :
    ∃ strikes, List.Forall₂ (fun n s => Strike.Plays channel n s)
        ((t.notesFor name).filter hasNumber) strikes ∧
      track.Orderly name strikes := by
  obtain ⟨strikes, hplays, rfl⟩ := instrumentTrack_strikes h
  refine ⟨strikes, hplays, orderly_ofEvents name ?_⟩
  intro s hs
  obtain ⟨n, _, hn⟩ := exists_of_mem_right hplays hs
  exact hn.lasts

/-- A note of a beat on the bass. -/
def plucked (pitch : String) (beat : Rat) : NoteEvent Rat :=
  { instrument := "bass", pitch, beat, beats := 1, time := beat / 2, seconds := 1 / 2,
    velocity := 4 / 5 }

/-- A key struck on two beats in a row, and a drum with the second of them. -/
def bassLine : Timeline Rat where
  notes := [plucked "C2" 0, plucked "C2" 1, plucked "drum:kick@808" 1]
  totalBeats := 2
  totalSeconds := 1
  instruments := ["bass"]
  settings := { tempo := 120, key := "C major", timeSignature := "4/4", swing := 0 }

theorem bassLine_played :
    letI := Elementary.coarse
    (instrumentTrack bassLine "bass" 1).toOption.isSome = true ∧
      (bassLine.notesFor "bass").all hasNumber = true ∧
      (ticks (0 : Rat)).toOption = some 0 ∧ (ticks (0 + 1 : Rat)).toOption = some 480 ∧
      (ticks (1 : Rat)).toOption = some 480 := by
  decide +kernel

/-- The theorem at work: the two strikes of the key share a tick, and take turns. -/
theorem bassLine_orderly : ∃ _ : Elementary, ∃ (track : Track) (first second drum : Strike),
    instrumentTrack bassLine "bass" 1 = .ok track ∧
      track.Orderly "bass" [first, second, drum] ∧ first.finish = second.start ∧
      [first, second, drum].Pairwise Strike.Apart := by
  let _ := Elementary.coarse
  obtain ⟨hplayed, hnumbers, hzero, hend, hstart⟩ := bassLine_played
  obtain ⟨track, htrack⟩ := Outcome.exists_of_isSome hplayed
  obtain ⟨strikes, hplays, horderly⟩ := instrumentTrack_orderly htrack
  rw [List.filter_eq_self.2 (List.all_eq_true.1 hnumbers)] at hplays
  change List.Forall₂ _ [plucked "C2" 0, plucked "C2" 1, plucked "drum:kick@808" 1] strikes
    at hplays
  rcases hplays with _ | ⟨hfirst, _ | ⟨hsecond, _ | ⟨hthird, ⟨⟩⟩⟩⟩
  rename_i first second drum
  have hfinish : first.finish = 480 := by
    have hfrom : ticks (0 : Rat) = .ok first.start := hfirst.start
    obtain ⟨tick, hto, hlate⟩ := hfirst.finish
    change ticks (0 + 1 : Rat) = .ok tick at hto
    rw [hfrom] at hzero
    rw [hto] at hend
    rw [hlate, Option.some.inj hzero, Option.some.inj hend]
    rfl
  have hmiddle : second.start = 480 := by
    have hfrom : ticks (1 : Rat) = .ok second.start := hsecond.start
    rw [hfrom] at hstart
    exact Option.some.inj hstart
  have hkeys : first.channel = 1 ∧ second.channel = 1 ∧ drum.channel = 9 :=
    ⟨hfirst.channel, hsecond.channel, hthird.channel⟩
  refine ⟨_, track, first, second, drum, htrack, horderly, hfinish.trans hmiddle.symm, ?_⟩
  have hother : ∀ s : Strike, s.channel = 1 → s.Apart drum := by
    intro s hs hsame
    rw [hs, hkeys.2.2] at hsame
    exact absurd hsame (by decide)
  refine .cons ?_ (.cons ?_ (List.pairwise_singleton _ _))
  · rintro s (_ | ⟨_, _ | ⟨_, ⟨⟩⟩⟩)
    · exact fun _ _ => .inl (le_of_eq (hfinish.trans hmiddle.symm))
    · exact hother first hkeys.1
  · rintro s (_ | ⟨_, ⟨⟩⟩)
    exact hother second hkeys.2.1

end Partitura.Midi

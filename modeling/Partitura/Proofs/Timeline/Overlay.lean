import Mathlib
import Partitura.Proofs.Ordered
import Partitura.Proofs.Sorting
import Partitura.Timeline.Basic

/-!
# Timelines laid over each other

Laying timelines over each other sorts all their events by beat, takes the greatest of their lengths and
names each instrument once. Each of these may be done for some of the timelines first: sorting because
it is stable, the greatest because it is taken from the left, the names because only first appearances
count (§1). So timelines may be laid over each other in groups, from the front
(`merge_lays_over`), and a single timeline that has been built stays as it is.

Nothing is asked of scalars but that the beats of the timelines can be put in order. The totals need not.
-/

namespace Partitura.Timeline

variable {α : Type} [Scalar α]

/-! ## §1  A part first -/

theorem greatest_append (first : α) (xs ys : List α) :
    greatest (greatest first xs) ys = greatest first (xs ++ ys) := by
  simp [greatest, List.foldl_append]

/-- The beats of all events of a timeline. -/
def beats (t : Timeline α) : List α :=
  t.notes.map (·.beat) ++ t.sections.map (·.beat) ++ t.automation.map (·.beat)

omit [Scalar α] in
theorem beat_mem_beats {part timelines : List (Timeline α)} (h : part ⊆ timelines) :
    (∀ n ∈ part.flatMap (·.notes), n.beat ∈ timelines.flatMap beats) ∧
    (∀ m ∈ part.flatMap (·.sections), m.beat ∈ timelines.flatMap beats) ∧
    (∀ e ∈ part.flatMap (·.automation), e.beat ∈ timelines.flatMap beats) := by
  refine ⟨fun x hx => ?_, fun x hx => ?_, fun x hx => ?_⟩
  all_goals
    obtain ⟨t, ht, hx⟩ := List.mem_flatMap.1 hx
    refine List.mem_flatMap.2 ⟨t, h ht, ?_⟩
    simp only [beats, List.mem_append, List.mem_map]
  · exact .inl (.inl ⟨x, hx, rfl⟩)
  · exact .inl (.inr ⟨x, hx, rfl⟩)
  · exact .inr ⟨x, hx, rfl⟩

/-! ## §2  Overlays -/

/-- A timeline with the events of others in the order of their beats, those of one beat in the order in
which the timelines are given. -/
structure Overlays (timelines : List (Timeline α)) (whole : Timeline α) : Prop where
  notes : SortedByBeat (·.beat) (timelines.flatMap (·.notes)) whole.notes
  sections : SortedByBeat (·.beat) (timelines.flatMap (·.sections)) whole.sections
  automation : SortedByBeat (·.beat) (timelines.flatMap (·.automation)) whole.automation

/-- The timeline of a first one and more that are laid over it. -/
def overlay (first : Timeline α) (rest : List (Timeline α)) : Timeline α :=
  { notes := sortByBeat (·.beat) ((first :: rest).flatMap (·.notes))
    totalBeats := greatest first.totalBeats (rest.map (·.totalBeats))
    totalSeconds := greatest first.totalSeconds (rest.map (·.totalSeconds))
    instruments := Ordered.distinct ((first :: rest).flatMap (·.instruments))
    settings := first.settings
    sections := sortByBeat (·.beat) ((first :: rest).flatMap (·.sections))
    automation := sortByBeat (·.beat) ((first :: rest).flatMap (·.automation)) }

theorem merge_cons (first : Timeline α) (rest : List (Timeline α)) :
    merge (first :: rest) = .ok (overlay first rest) :=
  rfl

variable {first : Timeline α} {rest more : List (Timeline α)}

theorem overlays_overlay (h : Orderable ((first :: rest).flatMap beats)) :
    Overlays (first :: rest) (overlay first rest) := by
  obtain ⟨hnotes, hsections, hautomation⟩ := beat_mem_beats (List.Subset.refl (first :: rest))
  exact ⟨h.sortedByBeat hnotes, h.sortedByBeat hsections, h.sortedByBeat hautomation⟩

/-- Some timelines may be laid over each other before the rest. -/
theorem overlay_overlay (h : Orderable ((first :: rest ++ more).flatMap beats)) :
    overlay (overlay first rest) more = overlay first (rest ++ more) := by
  obtain ⟨hnotes, hsections, hautomation⟩ := beat_mem_beats (List.subset_append_left (first :: rest) more)
  obtain ⟨hnotes', hsections', hautomation'⟩ :=
    beat_mem_beats (List.subset_append_right (first :: rest) more)
  unfold overlay
  simp only [List.flatMap_cons, ← List.cons_append, List.flatMap_append, List.map_append,
    greatest_append, Timeline.mk.injEq, true_and]
  refine ⟨?_, ?_, ?_, ?_⟩
  · exact h.sortByBeat_append hnotes hnotes'
  · exact Ordered.distinct_append_distinct _ _
  · exact h.sortByBeat_append hsections hsections'
  · exact h.sortByBeat_append hautomation hautomation'

theorem mem_sortByBeat {β : Type} {beat : β → α} {events : List β} {e : β} :
    e ∈ sortByBeat beat events ↔ e ∈ events := by
  simp [sortByBeat]

/-- What has been built is in order and names each instrument once. -/
theorem overlay_build {draft : TimelineDraft α} {totalBeats totalSeconds : α}
    (h : Orderable (draft.build totalBeats totalSeconds).beats) :
    overlay (draft.build totalBeats totalSeconds) [] = draft.build totalBeats totalSeconds := by
  obtain ⟨hnotes, hsections, hautomation⟩ :=
    beat_mem_beats (List.Subset.refl [draft.build totalBeats totalSeconds])
  simp only [List.flatMap_singleton, TimelineDraft.build, mem_sortByBeat] at hnotes hsections hautomation h
  unfold overlay
  simp only [List.flatMap_singleton, TimelineDraft.build, Timeline.mk.injEq, List.map_nil, greatest,
    List.foldl_nil, true_and]
  refine ⟨?_, ?_, ?_, ?_⟩
  · exact h.sortByBeat_sortByBeat hnotes
  · exact Ordered.distinct_of_nodup (Ordered.firstAppearances_distinct _).nodup
  · exact h.sortByBeat_sortByBeat hsections
  · exact h.sortByBeat_sortByBeat hautomation

/-! ## §3  Groups of timelines -/

/-- **Timelines may be laid over each other in groups.** The events of some timelines whose beats can be
put in order come out sorted by beat, ties in the order of the timelines, and laying more timelines over
the outcome is laying all of them over each other at once. A timeline that has been built is not changed
by being laid over nothing. -/
theorem merge_lays_over (α : Type) [Scalar α] :
    (∀ timelines more : List (Timeline α), timelines ≠ [] →
      Orderable ((timelines ++ more).flatMap beats) →
      ∃ whole, merge timelines = .ok whole ∧ Overlays timelines whole ∧
        merge (whole :: more) = merge (timelines ++ more)) ∧
    ∀ (draft : TimelineDraft α) (totalBeats totalSeconds : α),
      Orderable (draft.build totalBeats totalSeconds).beats →
      merge [draft.build totalBeats totalSeconds] = .ok (draft.build totalBeats totalSeconds) := by
  constructor
  · intro timelines more hsome hbeats
    obtain ⟨first, rest, rfl⟩ := List.exists_cons_of_ne_nil hsome
    have hpart : Orderable ((first :: rest).flatMap beats) := by
      refine hbeats.sublist ?_
      rw [List.flatMap_append]
      exact List.sublist_append_left _ _
    refine ⟨overlay first rest, merge_cons first rest, overlays_overlay hpart, ?_⟩
    rw [List.cons_append, merge_cons, merge_cons, overlay_overlay hbeats]
  · intro draft totalBeats totalSeconds hbeats
    rw [merge_cons, overlay_build hbeats]

def struck (instrument pitch : String) (beat : Rat) : NoteEvent Rat :=
  { instrument, pitch, beat, beats := 1, time := beat, seconds := 1, velocity := 4 / 5 }

def duo : TimelineDraft Rat :=
  { settings := { tempo := 60, key := "C major", timeSignature := "4/4", swing := 0 }
    notes := [struck "lead" "C4" 2, struck "bass" "C2" 0, struck "lead" "E4" 0] }

def drone : TimelineDraft Rat :=
  { settings := { tempo := 90, key := "G major", timeSignature := "4/4", swing := 0 }
    notes := [struck "drone" "G2" 0, struck "bass" "G1" 2] }

/-- The theorem at work: on both beats the notes of the first timeline come first, and the bass is named
once, where it is first heard. -/
theorem duo_over_drone : ∃ _ : Elementary,
    [duo.build 4 4, drone.build 8 8] ≠ [] ∧
    Orderable (([duo.build 4 4, drone.build 8 8] ++ [duo.build 2 2]).flatMap beats) ∧
    (∃ whole, merge [duo.build 4 4, drone.build 8 8] = .ok whole ∧
      whole.notes.map (fun n => (n.beat, n.pitch)) =
        [(0, "C2"), (0, "E4"), (0, "G2"), (2, "C4"), (2, "G1")] ∧
      whole.instruments = ["lead", "bass", "drone"] ∧ whole.totalBeats = 8 ∧
      merge [whole, duo.build 2 2] = merge [duo.build 4 4, drone.build 8 8, duo.build 2 2]) ∧
    Orderable (drone.build 8 8).beats ∧ merge [drone.build 8 8] = .ok (drone.build 8 8) := by
  let _ := Elementary.coarse
  have hsome : [duo.build 4 4, drone.build 8 8] ≠ [] := List.cons_ne_nil _ _
  have hbeats : Orderable (([duo.build 4 4, drone.build 8 8] ++ [duo.build 2 2]).flatMap beats) :=
    orderable_rat _
  obtain ⟨whole, hwhole, -, hgroup⟩ := (merge_lays_over Rat).1 _ _ hsome hbeats
  obtain rfl := Except.ok.inj ((merge_cons _ _).symm.trans hwhole)
  refine ⟨inferInstance, hsome, hbeats, ⟨_, hwhole, ?_, ?_, ?_, hgroup⟩, orderable_rat _,
    (merge_lays_over Rat).2 drone 8 8 (orderable_rat _)⟩
  · cbv
  · decide +kernel
  · decide +kernel

end Partitura.Timeline

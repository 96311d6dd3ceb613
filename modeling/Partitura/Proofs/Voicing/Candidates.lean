import Mathlib.Data.List.Forall2
import Mathlib.Data.List.Lex
import Partitura.Proofs.Harmony.Chords
import Partitura.Proofs.Notation.Pitches
import Partitura.Voicing.Candidates

/-!
# What a chord may be voiced as

Candidates are found by going through the voices from the bottom, with the tones already taken at hand
and only so much room left. What is found is the beginning of a plain list: all choices of one tone a
voice, those that cover the chord (`candidates_eq`). This list holds all voicings of the chord
(`mem_voicingsOf`) in lexicographic order (`pairwise_voicingsOf`). So every candidate is a voicing of
the chord, and where there is room for more, no voicing is missing (`candidates_first`).
-/

namespace Partitura.Voicing

/-! ## §1  Choices -/

/-- All ways to take one of each of the options, in lexicographic order. -/
def choices : List (List Int) → List Voicing
  | [] => [[]]
  | tones :: options => tones.flatMap fun m => (choices options).map (m :: ·)

theorem mem_choices {options : List (List Int)} {v : Voicing} :
    v ∈ choices options ↔ List.Forall₂ (· ∈ ·) v options := by
  induction options generalizing v with
  | nil =>
      rw [List.forall₂_nil_right_iff]
      exact List.mem_singleton
  | cons tones options ih =>
      rw [choices, List.mem_flatMap, List.forall₂_cons_right_iff]
      constructor
      · rintro ⟨m, hm, hv⟩
        obtain ⟨rest, hrest, rfl⟩ := List.mem_map.1 hv
        exact ⟨m, rest, hm, ih.1 hrest, rfl⟩
      · rintro ⟨m, rest, hm, hrest, rfl⟩
        exact ⟨m, hm, List.mem_map_of_mem (ih.2 hrest)⟩

/-! ## §2  The search -/

section Search

variable {β : Type} {room : Nat}

/-- What no longer fits does not matter to what is added behind it. -/
theorem take_append_take (xs ys : List β) (room : Nat) :
    (xs.take room ++ ys).take room = (xs ++ ys).take room := by
  rcases Nat.le_total xs.length room with hle | hle
  · rw [List.take_of_length_le hle]
  · rw [List.take_append_of_le_length (le_of_eq (List.length_take_of_le hle).symm), List.take_take,
      Nat.min_self, List.take_append_of_le_length hle]

/-- Lists searched one after the other while there is room: each is given the room that is left. -/
theorem foldl_search {γ : Type} {found : List β} {all : γ → List β} {searched : γ → Nat → List β}
    (h : ∀ x room, searched x room = (all x).take room) (hfits : found.length ≤ room)
    (xs : List γ) :
    xs.foldl (fun found x =>
        if found.length < room then found ++ searched x (room - found.length) else found) found =
      (found ++ xs.flatMap all).take room := by
  induction xs generalizing found with
  | nil => rw [List.foldl_nil, List.flatMap_nil, List.append_nil, List.take_of_length_le hfits]
  | cons x xs ih =>
      have hstep : (if found.length < room then found ++ searched x (room - found.length)
          else found) = (found ++ all x).take room := by
        rw [List.take_append, List.take_of_length_le hfits]
        split
        · rw [h]
        · next hfull =>
            have hnone : room - found.length = 0 := by omega
            rw [hnone, List.take_zero, List.append_nil]
      rw [List.foldl_cons, hstep, ih (List.length_take_le room _), take_append_take,
        List.flatMap_cons, List.append_assoc]

end Search

/-- The search finds the first choices that cover what is required, behind the tones already taken. -/
theorem enumerate_eq (required : List Int) (options : List (List Int)) (taken : List Int)
    (room : Nat) :
    enumerate required options taken room =
      (((choices options).map (taken.reverse ++ ·)).filter (covers required)).take room := by
  induction options generalizing taken room with
  | nil =>
      cases room with
      | zero => rfl
      | succ room =>
          have htaken : (choices []).map (taken.reverse ++ ·) = [taken.reverse] := by
            rw [choices, List.map_singleton, List.append_nil]
          rw [enumerate, htaken]
          split
          · next hcovers =>
              rw [List.filter_cons_of_pos hcovers, List.filter_nil, List.take_succ_cons,
                List.take_nil]
          · next hcovers =>
              rw [List.filter_cons_of_neg hcovers, List.filter_nil, List.take_nil]
  | cons tones options ih =>
      cases room with
      | zero => rfl
      | succ room =>
          have hbehind : (choices (tones :: options)).map (taken.reverse ++ ·) =
              tones.flatMap fun m => (choices options).map ((m :: taken).reverse ++ ·) := by
            simp only [choices, List.map_flatMap, List.map_map, List.reverse_cons,
              List.append_assoc]
            rfl
          rw [hbehind, List.filter_flatMap]
          exact foldl_search (fun m room => ih (m :: taken) room) (Nat.zero_le _) tones

/-! ## §3  Voicings of a chord -/

/-- The numbers of a chord's pitches are a matter of the chord alone. -/
theorem exists_numbers {symbol : String} {octave : Int} {pitches : List String}
    (h : ChordToken.notesOf symbol octave = .ok pitches) :
    ∃ numbers, pitches.mapM Pitch.midiOf = .ok numbers := by
  refine Outcome.exists_mapM fun tone htone => ?_
  obtain ⟨p, rfl⟩ := ChordToken.exists_pitch_of_notesOf h tone htone
  exact ⟨p.midi, Pitch.midiOf_text p⟩

theorem mem_tonesWithin {classes : List Int} {r : PitchRange} {m : Int} :
    m ∈ tonesWithin classes r ↔ (r.1 ≤ m ∧ m ≤ r.2) ∧ m % octaveSize ∈ classes := by
  unfold tonesWithin
  rw [List.mem_filter, List.contains_iff_mem, List.mem_map]
  refine and_congr_left fun _ => ?_
  constructor
  · rintro ⟨i, hi, rfl⟩
    rw [List.mem_range] at hi
    omega
  · rintro ⟨hlow, hhigh⟩
    exact ⟨(m - r.1).toNat, by rw [List.mem_range]; omega, by omega⟩

/-- One tone of a chord for every voice, in its range, the first three classes of the chord among
them. -/
structure Voices (numbers : List Int) (ranges : List PitchRange) (v : Voicing) : Prop where
  inRange : List.Forall₂ (fun m r => r.1 ≤ m ∧ m ≤ r.2) v ranges
  ofChord : ∀ m ∈ v, m % octaveSize ∈ numbers.map (· % octaveSize)
  covering : ∀ n ∈ numbers.take 3, ∃ m ∈ v, m % octaveSize = n % octaveSize

theorem covers_iff {required : List Int} {v : Voicing} :
    covers required v = true ↔ ∀ pc ∈ required, ∃ m ∈ v, m % octaveSize = pc := by
  unfold covers
  simp

/-- All voicings of a chord, given by the numbers of its pitches, in lexicographic order. -/
def voicingsOf (numbers : List Int) (ranges : List PitchRange) : List Voicing :=
  (choices (ranges.map (tonesWithin (numbers.map (· % octaveSize))))).filter
    (covers ((numbers.map (· % octaveSize)).take 3))

theorem mem_voicingsOf {numbers : List Int} {ranges : List PitchRange} {v : Voicing} :
    v ∈ voicingsOf numbers ranges ↔ Voices numbers ranges v := by
  have htones : List.Forall₂ (fun m r => m ∈ tonesWithin (numbers.map (· % octaveSize)) r) v ranges ↔
      List.Forall₂ (fun m r => r.1 ≤ m ∧ m ≤ r.2) v ranges ∧
        ∀ m ∈ v, m % octaveSize ∈ numbers.map (· % octaveSize) := by
    rw [and_comm, ← List.forall₂_and_left]
    simp only [mem_tonesWithin, and_comm]
  unfold voicingsOf
  rw [List.mem_filter, mem_choices, List.forall₂_map_right_iff, htones, covers_iff,
    ← List.map_take, List.forall_mem_map]
  constructor
  · rintro ⟨⟨hrange, hchord⟩, hcovers⟩
    exact ⟨hrange, hchord, hcovers⟩
  · rintro ⟨hrange, hchord, hcovers⟩
    exact ⟨⟨hrange, hchord⟩, hcovers⟩

/-- The candidates for a chord are the first of its voicings. -/
theorem candidates_eq {pitches : List String} {numbers : List Int}
    (h : pitches.mapM Pitch.midiOf = .ok numbers) (ranges : List PitchRange) :
    candidates pitches ranges = .ok ((voicingsOf numbers ranges).take maxCandidates) := by
  unfold candidates
  rw [h, Outcome.ok_bind]
  dsimp only
  rw [enumerate_eq]
  simp only [List.reverse_nil, List.nil_append, List.map_id']
  rfl

/-- Every candidate is a voicing of its chord. -/
theorem voices_of_mem_candidates {pitches : List String} {numbers : List Int}
    {ranges : List PitchRange} {found : List Voicing} {v : Voicing}
    (hnumbers : pitches.mapM Pitch.midiOf = .ok numbers)
    (h : candidates pitches ranges = .ok found) (hv : v ∈ found) : Voices numbers ranges v := by
  rw [candidates_eq hnumbers] at h
  cases h
  exact mem_voicingsOf.1 (List.mem_of_mem_take hv)

/-! ## §4  Their order -/

/-- One choice stands before another if it is lower at the first voice in which they differ. -/
theorem pairwise_choices {options : List (List Int)}
    (h : ∀ tones ∈ options, tones.Pairwise (· < ·)) : (choices options).Pairwise (· < ·) := by
  induction options with
  | nil => exact List.pairwise_singleton _ _
  | cons tones options ih =>
      obtain ⟨htones, hrest⟩ := List.forall_mem_cons.1 h
      rw [choices, List.pairwise_flatMap]
      constructor
      · intro m _
        rw [List.pairwise_map]
        exact (ih hrest).imp fun hlt => List.cons_lt_cons_iff.2 (.inr ⟨rfl, hlt⟩)
      · apply htones.imp
        intro m m' hlt v hv v' hv'
        obtain ⟨rest, _, rfl⟩ := List.mem_map.1 hv
        obtain ⟨rest', _, rfl⟩ := List.mem_map.1 hv'
        exact List.cons_lt_cons_iff.2 (.inl hlt)

theorem pairwise_tonesWithin (classes : List Int) (r : PitchRange) :
    (tonesWithin classes r).Pairwise (· < ·) := by
  unfold tonesWithin
  apply List.Pairwise.filter
  rw [List.pairwise_map]
  apply List.pairwise_lt_range.imp
  intro i j hlt
  omega

theorem pairwise_voicingsOf (numbers : List Int) (ranges : List PitchRange) :
    (voicingsOf numbers ranges).Pairwise (· < ·) := by
  unfold voicingsOf
  apply List.Pairwise.filter
  apply pairwise_choices
  intro tones htones
  obtain ⟨r, _, rfl⟩ := List.mem_map.1 htones
  exact pairwise_tonesWithin _ r

/-- **The candidates are the first voicings of the chord.** All voicings of a chord stand in one list
in lexicographic order. The candidates are its beginning, and the whole of it, without repetition,
wherever fewer are found than are listed at most. -/
theorem candidates_first {pitches : List String} {numbers : List Int}
    (hnumbers : pitches.mapM Pitch.midiOf = .ok numbers) (ranges : List PitchRange) :
    ∃ all found : List Voicing,
      (all.Pairwise (· < ·) ∧ ∀ v, v ∈ all ↔ Voices numbers ranges v) ∧
        candidates pitches ranges = .ok found ∧ found = all.take maxCandidates ∧
        (found.length < maxCandidates →
          found.Nodup ∧ ∀ v, v ∈ found ↔ Voices numbers ranges v) := by
  have hsorted := pairwise_voicingsOf numbers ranges
  refine ⟨voicingsOf numbers ranges, (voicingsOf numbers ranges).take maxCandidates,
    ⟨hsorted, fun v => mem_voicingsOf⟩, candidates_eq hnumbers ranges, rfl, ?_⟩
  intro hfew
  have hall : (voicingsOf numbers ranges).take maxCandidates = voicingsOf numbers ranges := by
    rw [List.length_take] at hfew
    exact List.take_of_length_le (by omega)
  rw [hall]
  exact ⟨hsorted.imp fun hlt => ne_of_lt hlt, fun v => mem_voicingsOf⟩

/-- The theorem at work: a triad has two voicings in these ranges. -/
theorem triad_candidates : ["C3", "E3", "G3"].mapM Pitch.midiOf = .ok [48, 52, 55] ∧
    ∃ found, candidates ["C3", "E3", "G3"] [(48, 52), (52, 60), (55, 55)] = .ok found ∧
      found = [[48, 52, 55], [52, 60, 55]] ∧ found.Nodup ∧
      ∀ v, v ∈ found ↔ Voices [48, 52, 55] [(48, 52), (52, 60), (55, 55)] v := by
  have hnumbers : ["C3", "E3", "G3"].mapM Pitch.midiOf = .ok [48, 52, 55] := by
    rfl
  have hfound : candidates ["C3", "E3", "G3"] [(48, 52), (52, 60), (55, 55)] =
      .ok [[48, 52, 55], [52, 60, 55]] := by
    rfl
  obtain ⟨all, found, _, hcandidates, _, hcomplete⟩ :=
    candidates_first hnumbers [(48, 52), (52, 60), (55, 55)]
  rw [hfound] at hcandidates
  cases hcandidates
  obtain ⟨hnodup, hmem⟩ := hcomplete (by decide)
  exact ⟨hnumbers, _, hfound, rfl, hnodup, hmem⟩

end Partitura.Voicing

import Mathlib.Data.List.ProdSigma
import Partitura.Proofs.Sorting
import Partitura.Proofs.Voicing.Search

/-!
# The best progression

The search is greedy in width: of the extended sequences it keeps the best ones, and what it has dropped
may have led further. As long as there is room for all of them nothing is dropped. Then the beam holds
every sequence of candidates whose steps are all allowed (`Exhausts`), each with the sum of its scores,
and what comes out is the greatest of them (`bestSequence_greatest`). The last step may find more than
can be kept, since only the first of the sorted sequences counts from there on.

With two chords there is one step, which is the last. Among the pairs of the greatest score the first one
in the order of enumeration is taken (`bestSequence_pair`), because sorting is stable.
-/

namespace Partitura.Voicing

/-! ## §1  Admissible sequences and their scores -/

/-- One candidate for each chord, and every step allowed: nothing is set aside. -/
abbrev Admissible (r : Rules) (offered : List (List Voicing)) (sequence : List Voicing) : Prop :=
  Sound r [] offered sequence

/-- The sum of the scores of all steps. -/
def total (r : Rules) : List Voicing → Int
  | v :: w :: rest => stepScore r v w + total r (w :: rest)
  | _ => 0

/-- An admissible sequence that no other one surpasses. -/
structure Greatest (r : Rules) (offered : List (List Voicing)) (sequence : List Voicing) : Prop where
  admissible : Admissible r offered sequence
  greatest : ∀ other, Admissible r offered other → total r other ≤ total r sequence

section Sequences

variable {r : Rules} {offered : List (List Voicing)} {sequence : List Voicing}
  {found : List Voicing} {v : Voicing}

theorem total_snoc (hlast : sequence.getLast? = some v) (w : Voicing) :
    total r (sequence ++ [w]) = total r sequence + stepScore r v w := by
  induction sequence with
  | nil => cases hlast
  | cons a rest ih =>
      cases rest with
      | nil =>
          cases hlast
          simp [total]
      | cons b rest =>
          rw [List.getLast?_cons_cons] at hlast
          show stepScore r a b + total r (b :: rest ++ [w]) = _
          rw [ih hlast]
          simp only [total]
          omega

/-- The last voicing of an admissible sequence extends an admissible one. -/
theorem exists_of_admissible_snoc (hne : offered ≠ [])
    (h : Admissible r (offered ++ [found]) sequence) :
    ∃ before v w, sequence = before ++ [w] ∧ Admissible r offered before ∧
      before.getLast? = some v ∧ w ∈ found ∧ allowed r v w = true := by
  have hfront := List.forall₂_take_append _ _ _ h.chosen
  have hback := List.forall₂_drop_append _ _ _ h.chosen
  obtain ⟨w, hw⟩ : ∃ w, sequence.drop offered.length = [w] := by
    apply List.length_eq_one_iff.1
    rw [hback.length_eq]
    rfl
  have hsplit : sequence = sequence.take offered.length ++ [w] := by
    rw [← hw, List.take_append_drop]
  generalize sequence.take offered.length = before at hfront hsplit
  rw [hw] at hback
  subst hsplit
  have hlength := hfront.length_eq
  obtain ⟨v, hv⟩ : ∃ v, before.getLast? = some v := by
    cases hlast : before.getLast? with
    | none =>
        rw [List.getLast?_eq_none_iff] at hlast
        subst hlast
        exact absurd (List.length_eq_zero_iff.1 hlength.symm) hne
    | some v => exact ⟨v, rfl⟩
  have hpos : 0 < before.length := by
    rw [hlength]
    exact List.length_pos_iff.2 hne
  refine ⟨before, v, w, rfl, ⟨hfront, ?_⟩, hv, (List.forall₂_cons.1 hback).1, ?_⟩
  · intro i a b ha hb hsaid
    have hi : i + 1 < before.length := (List.getElem?_eq_some_iff.1 hb).1
    apply h.steps i a b _ _ hsaid
    · rw [List.getElem?_append_left (by omega), ha]
    · rw [List.getElem?_append_left hi, hb]
  · apply h.steps (before.length - 1) v w _ _ List.not_mem_nil
    · rw [List.getElem?_append_left (by omega), ← List.getLast?_eq_getElem?, hv]
    · rw [Nat.sub_add_cancel hpos, List.getElem?_concat_length]

end Sequences

/-! ## §2  Beams that hold everything -/

/-- The paths of a beam are the admissible sequences, and each has the score of its sequence. -/
structure Exhausts (r : Rules) (offered : List (List Voicing)) (beam : List Path) : Prop where
  sound : ∀ p ∈ beam, Admissible r offered p.toList
  scored : ∀ p ∈ beam, p.score = total r p.toList
  complete : ∀ sequence, Admissible r offered sequence → ∃ p ∈ beam, p.toList = sequence

section Beams

variable {r : Rules} {offered : List (List Voicing)} {beam paths : List Path}
  {found : List Voicing} {p : Path} {kept : List Path}

theorem exhausts_start (r : Rules) (found : List Voicing) :
    Exhausts r [found] (found.map Path.start) where
  sound := AllSound.start r [] found
  scored := by
    intro p hp
    obtain ⟨v, _, rfl⟩ := List.mem_map.1 hp
    rfl
  complete := by
    intro sequence h
    obtain ⟨v, rest, hv, hrest, rfl⟩ := List.forall₂_cons_right_iff.1 h.chosen
    rw [List.forall₂_nil_right_iff] at hrest
    subst hrest
    exact ⟨Path.start v, List.mem_map_of_mem hv, rfl⟩

theorem mem_extensions {q : Path} : q ∈ extensions r beam found ↔
    ∃ p ∈ beam, ∃ w ∈ found, allowed r p.newest w = true ∧
      p.extend (stepScore r p.newest w) w = q := by
  simp only [extensions, List.mem_flatMap, List.mem_map, List.mem_filter, and_assoc]

/-- One step of the search leaves out no admissible sequence. -/
theorem Exhausts.extensions (h : Exhausts r offered beam) (hne : offered ≠ []) :
    Exhausts r (offered ++ [found]) (extensions r beam found) where
  sound := by
    have hsound : AllSound r [] offered beam := h.sound
    exact hsound.extensions
  scored := by
    intro q hq
    obtain ⟨p, hp, w, _, _, rfl⟩ := mem_extensions.1 hq
    rw [Path.toList_extend, total_snoc p.getLast?_toList, ← h.scored p hp]
    rfl
  complete := by
    intro sequence hsequence
    obtain ⟨before, v, w, rfl, hbefore, hlast, hw, hallowed⟩ :=
      exists_of_admissible_snoc hne hsequence
    obtain ⟨p, hp, rfl⟩ := h.complete before hbefore
    rw [p.getLast?_toList] at hlast
    cases hlast
    exact ⟨_, mem_extensions.2 ⟨p, hp, w, hw, hallowed, rfl⟩, p.toList_extend _ w⟩

/-- Of no more paths than can be kept all are kept. -/
theorem mem_best (hfew : paths.length ≤ beamWidth) : p ∈ best paths ↔ p ∈ paths := by
  unfold best
  rw [List.take_of_length_le (by rwa [List.length_mergeSort]), List.mem_mergeSort]

theorem Exhausts.best (h : Exhausts r offered paths) (hfew : paths.length ≤ beamWidth) :
    Exhausts r offered (best paths) where
  sound p hp := h.sound p ((mem_best hfew).1 hp)
  scored p hp := h.scored p ((mem_best hfew).1 hp)
  complete sequence hsequence := by
    obtain ⟨p, hp, hsame⟩ := h.complete sequence hsequence
    exact ⟨p, (mem_best hfew).2 hp, hsame⟩

/-- What scores more than all before and no less than all after scores most. -/
theorem score_le_of_split {β : Type} {score : β → Int} {before after : List β} {x : β}
    (hbefore : ∀ y ∈ before, score y < score x) (hafter : ∀ y ∈ after, score y ≤ score x) :
    ∀ y ∈ before ++ x :: after, score y ≤ score x := by
  intro y hy
  rcases List.mem_append.1 hy with hy | hy
  · exact le_of_lt (hbefore y hy)
  · rcases List.mem_cons.1 hy with rfl | hy
    · exact le_rfl
    · exact hafter y hy

/-- The best path is the first one given among those of the greatest score, kept or not. -/
theorem exists_of_best (h : best paths = p :: kept) :
    ∃ before after, paths = before ++ p :: after ∧ (∀ q ∈ before, q.score < p.score) ∧
      ∀ q ∈ after, q.score ≤ p.score := by
  have hsorted : StablySorted (fun q : Path => -q.score) paths
      (paths.mergeSort fun p q => q.score ≤ p.score) := by
    apply stablySorted_mergeSort
    intro a b
    simp
  have hhead : (paths.mergeSort fun p q => q.score ≤ p.score).head? = some p := by
    have htake : (best paths).head? = some p := by
      rw [h]
      rfl
    unfold Voicing.best at htake
    rwa [List.head?_take, if_neg (by decide)] at htake
  obtain ⟨before, after, hpaths, hbefore, hafter⟩ := hsorted.exists_of_head? hhead
  refine ⟨before, after, hpaths, fun q hq => ?_, fun q hq => ?_⟩
  · exact neg_lt_neg_iff.1 (hbefore q hq)
  · exact neg_le_neg_iff.1 (hafter q hq)

theorem Exhausts.greatest (h : Exhausts r offered paths)
    (hbest : Voicing.best paths = p :: kept) : Greatest r offered p.toList := by
  obtain ⟨before, after, rfl, hbefore, hafter⟩ := exists_of_best hbest
  have hmem : p ∈ before ++ p :: after := List.mem_append_right _ List.mem_cons_self
  refine ⟨h.sound p hmem, ?_⟩
  intro other hother
  obtain ⟨q, hq, rfl⟩ := h.complete other hother
  rw [← h.scored p hmem, ← h.scored q hq]
  exact score_le_of_split hbefore hafter q hq

end Beams

/-! ## §3  The search -/

/-- The search goes on from a beam without dropping a sequence: every step finds an extension that the
rules allow, and every step but the last finds no more than are kept. -/
inductive Unpruned (r : Rules) : List Path → List (List Voicing) → Prop
  | done (beam : List Path) : Unpruned r beam []
  | last {beam : List Path} {found : List Voicing} (hsome : extensions r beam found ≠ []) :
      Unpruned r beam [found]
  | step {beam : List Path} {found : List Voicing} {rest : List (List Voicing)}
      (hsome : extensions r beam found ≠ [])
      (hfew : (extensions r beam found).length ≤ beamWidth)
      (hrest : Unpruned r (best (extensions r beam found)) rest) : Unpruned r beam (found :: rest)

section Search

variable {r : Rules} {index : Nat} {offered : List (List Voicing)} {beam : List Path}
  {found : List Voicing} {rest : List (List Voicing)}

/-- The search ends with the greatest sequence in front, if it starts so. -/
theorem search_greatest (h : Unpruned r beam rest) (hne : offered ≠ [])
    (hall : Exhausts r offered beam) (hbeam : beam ≠ [])
    (hfront : ∀ p ∈ beam.head?, Greatest r offered p.toList) :
    ∃ p kept, search r index beam rest = (p :: kept, []) ∧
      Greatest r (offered ++ rest) p.toList := by
  induction h generalizing index offered with
  | done beam =>
      obtain ⟨p, kept, rfl⟩ := List.exists_cons_of_ne_nil hbeam
      rw [List.append_nil]
      exact ⟨p, kept, rfl, hfront p rfl⟩
  | @last beam found hsome =>
      obtain ⟨p, kept, hbest⟩ := List.exists_cons_of_ne_nil (best_ne_nil hsome)
      refine ⟨p, kept, ?_, (hall.extensions hne).greatest hbest⟩
      rw [search_cons_of_ne_nil _ _ hsome, hbest]
      rfl
  | @step beam found rest hsome hfew _ ih =>
      have hnext : Exhausts r (offered ++ [found]) (extensions r beam found) := hall.extensions hne
      have hgreatest : ∀ p ∈ (best (extensions r beam found)).head?,
          Greatest r (offered ++ [found]) p.toList := by
        intro p hp
        obtain ⟨q, kept, hbest⟩ := List.exists_cons_of_ne_nil (best_ne_nil hsome)
        rw [hbest] at hp
        cases hp
        exact hnext.greatest hbest
      rw [search_cons_of_ne_nil _ _ hsome, List.append_cons]
      exact ih (List.append_ne_nil_of_right_ne_nil _ (List.cons_ne_nil _ _)) (hnext.best hfew)
        (best_ne_nil hsome) hgreatest

end Search

/-! ## §4  Whole progressions -/

section Sequences

variable {r : Rules} {first second : List Voicing} {rest : List (List Voicing)}

/-- What is taken is the greatest of all admissible sequences, if none is dropped. -/
theorem bestSequence_greatest (hsome : [] ∉ first :: rest)
    (h : Unpruned r (first.map Path.start) rest) :
    ∃ sequence, bestSequence r (first :: rest) = .ok (sequence, []) ∧
      Greatest r (first :: rest) sequence := by
  have hall := exhausts_start r first
  have hbeam : first.map Path.start ≠ [] :=
    fun hnil => hsome (List.map_eq_nil_iff.1 hnil ▸ List.mem_cons_self)
  -- A single voicing makes no step, so all of them score the same.
  have hlevel : ∀ sequence, Admissible r [first] sequence → total r sequence = 0 := by
    intro sequence hsequence
    obtain ⟨p, hp, rfl⟩ := hall.complete sequence hsequence
    obtain ⟨v, _, rfl⟩ := List.mem_map.1 hp
    rfl
  have hfront : ∀ p ∈ (first.map Path.start).head?, Greatest r [first] p.toList := by
    intro p hp
    have hsound := hall.sound p (List.mem_of_mem_head? hp)
    refine ⟨hsound, fun other hother => ?_⟩
    rw [hlevel other hother, hlevel _ hsound]
  obtain ⟨p, kept, hsearch, hgreatest⟩ :=
    search_greatest h (List.cons_ne_nil first []) hall hbeam hfront
  exact ⟨p.toList, bestSequence_eq hsome hsearch, hgreatest⟩

/-- The allowed pairs of a first and a second voicing, in the order in which they are enumerated. -/
def allowedPairs (r : Rules) (first second : List Voicing) : List (Voicing × Voicing) :=
  (first.product second).filter fun q => allowed r q.1 q.2

/-- The first pair in the order of enumeration among the allowed pairs of the greatest score. -/
def Foremost (r : Rules) (first second : List Voicing) (v w : Voicing) : Prop :=
  ∃ before after, allowedPairs r first second = before ++ (v, w) :: after ∧
    (∀ q ∈ before, stepScore r q.1 q.2 < stepScore r v w) ∧
    ∀ q ∈ after, stepScore r q.1 q.2 ≤ stepScore r v w

theorem Foremost.mem {v w : Voicing} (h : Foremost r first second v w) :
    (v, w) ∈ allowedPairs r first second := by
  obtain ⟨before, after, hpairs, _⟩ := h
  rw [hpairs]
  exact List.mem_append_right before List.mem_cons_self

theorem Foremost.le {v w : Voicing} (h : Foremost r first second v w) :
    ∀ q ∈ allowedPairs r first second, stepScore r q.1 q.2 ≤ stepScore r v w := by
  obtain ⟨before, after, hpairs, hbefore, hafter⟩ := h
  rw [hpairs]
  exact score_le_of_split (x := (v, w)) hbefore hafter

theorem extensions_start : extensions r (first.map Path.start) second =
    (allowedPairs r first second).map fun q => (Path.start q.1).extend (stepScore r q.1 q.2) q.2 := by
  unfold extensions allowedPairs List.product
  rw [List.flatMap_map, List.filter_flatMap, List.map_flatMap]
  congr 1
  funext v
  rw [List.filter_map, List.map_map]
  rfl

/-- Of the pairs of the greatest score the first one enumerated is taken. -/
theorem bestSequence_pair (h : ∃ v ∈ first, ∃ w ∈ second, allowed r v w = true) :
    ∃ v w, bestSequence r [first, second] = .ok ([v, w], []) ∧ Foremost r first second v w := by
  obtain ⟨v₀, hv₀, w₀, hw₀, hallowed⟩ := h
  have hpair : (v₀, w₀) ∈ allowedPairs r first second :=
    List.mem_filter.2 ⟨List.mem_product.2 ⟨hv₀, hw₀⟩, hallowed⟩
  have hsome : extensions r (first.map Path.start) second ≠ [] := by
    rw [extensions_start]
    exact List.ne_nil_of_mem (List.mem_map_of_mem hpair)
  have hoffered : [] ∉ [first, second] := by
    simp [(List.ne_nil_of_mem hv₀).symm, (List.ne_nil_of_mem hw₀).symm]
  obtain ⟨p, kept, hbest⟩ := List.exists_cons_of_ne_nil (best_ne_nil hsome)
  obtain ⟨before, after, hsplit, hbefore, hafter⟩ := exists_of_best hbest
  rw [extensions_start, List.map_eq_append_iff] at hsplit
  obtain ⟨qs, qs', hpairs, rfl, hrest⟩ := hsplit
  obtain ⟨⟨v, w⟩, qs', rfl, rfl, rfl⟩ := List.map_eq_cons_iff.1 hrest
  have hscore (v w : Voicing) :
      ((Path.start v).extend (stepScore r v w) w).score = stepScore r v w :=
    Int.zero_add _
  simp only [List.forall_mem_map, hscore] at hbefore hafter
  refine ⟨v, w, ?_, qs, qs', hpairs, hbefore, hafter⟩
  show bestSequence r [first, second] =
    .ok (((Path.start v).extend (stepScore r v w) w).toList, [])
  apply bestSequence_eq hoffered
  rw [search_cons_of_ne_nil _ _ hsome, hbest]
  rfl

end Sequences

section Leading

variable {progression : List String} {rs : List PitchRange} {chords : List (List String)}
  {first : List Voicing} {rest : List (List Voicing)} {α : Type} {voices : Int} {given : Fields α}

/-- What was taken is what is written, and nothing is said. -/
theorem lead_of_bestSequence {style : String} {extra : List String} {sequence : List Voicing}
    (hranges : ranges voices given = .ok rs)
    (hoffers : Offers rs progression chords (first :: rest))
    (hbest : bestSequence (Rules.ofNames (effectiveConstraints style extra)) (first :: rest) =
      .ok (sequence, [])) :
    lead progression voices style extra given =
      .ok { voicings := sequence.map (·.map Pitch.textOfMidi) } := by
  have hne : progression ≠ [] := by
    rintro rfl
    obtain ⟨hwritten, hfound⟩ := hoffers
    cases hwritten
    cases hfound
  rw [lead_eq style extra hne hranges hoffers, hbest]

/-- **A search that drops nothing is exhaustive.** If every chord has candidates, every step finds an
extension and every step but the last finds no more than are kept, the voices are led through the
sequence of the greatest total score among all sequences of candidates whose steps are all allowed. For
two chords this needs one allowed pair, and of the pairs of the greatest score the first one enumerated
is taken. -/
theorem lead_greatest (style : String) (extra : List String)
    (hranges : ranges voices given = .ok rs)
    (hoffers : Offers rs progression chords (first :: rest)) (hsome : [] ∉ first :: rest) :
    (Unpruned (Rules.ofNames (effectiveConstraints style extra)) (first.map Path.start) rest →
      ∃ sequence, lead progression voices style extra given =
          .ok { voicings := sequence.map (·.map Pitch.textOfMidi) } ∧
        Greatest (Rules.ofNames (effectiveConstraints style extra)) (first :: rest) sequence) ∧
    ∀ second, rest = [second] →
      (∃ v ∈ first, ∃ w ∈ second,
        allowed (Rules.ofNames (effectiveConstraints style extra)) v w = true) →
      ∃ v w, lead progression voices style extra given =
          .ok { voicings := [v, w].map (·.map Pitch.textOfMidi) } ∧
        Greatest (Rules.ofNames (effectiveConstraints style extra)) [first, second] [v, w] ∧
        Foremost (Rules.ofNames (effectiveConstraints style extra)) first second v w := by
  generalize hrules : Rules.ofNames (effectiveConstraints style extra) = r
  constructor
  · intro hunpruned
    obtain ⟨sequence, hbest, hgreatest⟩ := bestSequence_greatest hsome hunpruned
    exact ⟨sequence, lead_of_bestSequence hranges hoffers (hrules ▸ hbest), hgreatest⟩
  · rintro second rfl hpair
    obtain ⟨v, w, hbest, hforemost⟩ := bestSequence_pair hpair
    have hlast : Unpruned r (first.map Path.start) [second] := by
      apply Unpruned.last
      rw [extensions_start]
      exact List.ne_nil_of_mem (List.mem_map_of_mem hforemost.mem)
    obtain ⟨sequence, hbest', hgreatest⟩ := bestSequence_greatest hsome hlast
    rw [hbest] at hbest'
    cases hbest'
    exact ⟨v, w, lead_of_bestSequence hranges hoffers (hrules ▸ hbest), hgreatest, hforemost⟩

/-- Chords and candidates that have been worked out. -/
theorem exists_offers_of_eq {offered : List (List Voicing)}
    (h : (progression.mapM (ChordToken.notesOf · chordOctave) >>= fun chords =>
      chords.mapM (candidates · rs)).toOption = some offered) :
    ∃ chords, Offers rs progression chords offered := by
  cases hfound : progression.mapM (ChordToken.notesOf · chordOctave) >>= fun chords =>
      chords.mapM (candidates · rs) with
  | error why =>
      rw [hfound] at h
      cases h
  | ok found =>
      rw [hfound] at h
      cases h
      obtain ⟨chords, hchords, hoffered⟩ := Outcome.bind_ok hfound
      exact ⟨chords, Outcome.mapM_ok hchords, Outcome.mapM_ok hoffered⟩

end Leading

/-- Ranges of four voices that leave little room between them. -/
def crowd : Fields Rat :=
  [("bass", .list [.text "A#1", .text "C2"]), ("tenor", .list [.text "C2", .text "G2"]),
   ("alto", .list [.text "G2", .text "A#2"]), ("soprano", .list [.text "D#3", .text "E3"])]

theorem crowd_ranges : ranges 4 crowd = .ok [(34, 36), (36, 43), (43, 46), (51, 52)] := by
  rfl

/-- The voicings of C minor in these ranges. -/
def crowdedMinor : List Voicing :=
  [[36, 36, 43, 51], [36, 39, 43, 51], [36, 43, 43, 51]]

/-- The voicings of the seventh chord on C in these ranges. -/
def crowdedSeventh : List Voicing :=
  [[34, 36, 43, 52], [36, 36, 43, 52], [36, 40, 43, 52], [36, 43, 43, 52], [36, 43, 46, 52]]

theorem crowd_offers : ∃ chords, Offers [(34, 36), (36, 43), (43, 46), (51, 52)] ["Cm", "C7"] chords
    [crowdedMinor, crowdedSeventh] := by
  apply exists_offers_of_eq
  decide +kernel

/-- All rules are in force. -/
def Rules.strict : Rules :=
  ⟨true, true, true, true, true⟩

theorem rules_bach : Rules.ofNames (effectiveConstraints "bach" []) = .strict := by
  decide +kernel

/-- One pair scores more than all others. -/
theorem foremost_crowded {v w : Voicing}
    (h : Foremost .strict crowdedMinor crowdedSeventh v w) :
    v = [36, 36, 43, 51] ∧ w = [34, 36, 43, 52] := by
  have hpairs : ([36, 36, 43, 51], [34, 36, 43, 52]) ∈
      allowedPairs .strict crowdedMinor crowdedSeventh := by
    decide
  have honly : ∀ q ∈ allowedPairs .strict crowdedMinor crowdedSeventh,
      stepScore .strict [36, 36, 43, 51] [34, 36, 43, 52] ≤
        stepScore .strict q.1 q.2 →
      q = ([36, 36, 43, 51], [34, 36, 43, 52]) := by
    decide
  cases honly (v, w) h.mem (h.le _ hpairs)
  exact ⟨rfl, rfl⟩

/-- The theorem at work: the first chord may be voiced in three ways and the second in five, and one of
the pairs is the best. Going back to the first chord drops nothing either. -/
theorem crowd_greatest :
    (lead ["Cm", "C7"] 4 "bach" [] crowd =
        .ok { voicings := [["C2", "C2", "G2", "D#3"], ["A#1", "C2", "G2", "E3"]] } ∧
      Greatest .strict [crowdedMinor, crowdedSeventh]
        [[36, 36, 43, 51], [34, 36, 43, 52]]) ∧
    ∃ sequence, lead ["Cm", "C7", "Cm"] 4 "bach" [] crowd =
        .ok { voicings := sequence.map (·.map Pitch.textOfMidi) } ∧
      Greatest .strict [crowdedMinor, crowdedSeventh, crowdedMinor]
        sequence := by
  constructor
  · obtain ⟨chords, hoffers⟩ := crowd_offers
    obtain ⟨_, hpair⟩ := lead_greatest "bach" [] crowd_ranges hoffers (by decide)
    rw [rules_bach] at hpair
    have hallowed : ∃ v ∈ crowdedMinor, ∃ w ∈ crowdedSeventh,
        allowed .strict v w = true := by
      decide
    obtain ⟨v, w, hled, hgreatest, hforemost⟩ := hpair crowdedSeventh rfl hallowed
    obtain ⟨rfl, rfl⟩ := foremost_crowded hforemost
    exact ⟨hled, hgreatest⟩
  · obtain ⟨chords, hoffers⟩ : ∃ chords, Offers [(34, 36), (36, 43), (43, 46), (51, 52)]
        ["Cm", "C7", "Cm"] chords [crowdedMinor, crowdedSeventh, crowdedMinor] := by
      apply exists_offers_of_eq
      decide +kernel
    obtain ⟨hsearch, _⟩ := lead_greatest "bach" [] crowd_ranges hoffers (by decide)
    rw [rules_bach] at hsearch
    apply hsearch
    have hfirst : Path.extend (Path.start [36, 36, 43, 51]) (-3) [34, 36, 43, 52] ∈
        extensions .strict (crowdedMinor.map Path.start) crowdedSeventh := by
      decide
    have hfew : (extensions .strict (crowdedMinor.map Path.start)
        crowdedSeventh).length ≤ beamWidth := by
      decide
    have hback : allowed .strict [34, 36, 43, 52] [36, 39, 43, 51] = true := by
      decide
    refine .step (List.ne_nil_of_mem hfirst) hfew (.last ?_)
    exact List.ne_nil_of_mem (mem_extensions.2
      ⟨_, (mem_best hfew).2 hfirst, [36, 39, 43, 51], by decide, hback, rfl⟩)

end Partitura.Voicing

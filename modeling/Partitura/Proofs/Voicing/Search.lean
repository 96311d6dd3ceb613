import Partitura.Proofs.Voicing.Candidates
import Partitura.Voicing.Progression

/-!
# Led voices

A progression is voiced by a search that keeps some partial progressions, drops others and at times
sets the rules aside. Whatever it keeps is sound: each voicing is a candidate for its chord, and each
step is allowed unless it was said that the rules are set aside there (`search_sound`). Nothing more
has to be known of the scores and of what is dropped, since every path that survives was sound before.

The search never runs out of paths: where the rules leave none, setting them aside leaves all of them
(`search_ne_nil`). So a progression is stacked plainly only if a chord has no candidates at all
(`lead_sound`).
-/

namespace Partitura.Voicing

/-! ## §1  Sound sequences -/

/-- What is said where the rules are set aside. -/
def setAside (index : Nat) : String :=
  "No valid voicings satisfy all constraints at chord " ++ toString index

/-- Voicings of the chords of a progression, each one of those offered for its chord. Every step is
allowed, unless it is said that the rules were set aside at the chord it leads to. -/
structure Sound (r : Rules) (said : Warnings) (offered : List (List Voicing))
    (sequence : List Voicing) : Prop where
  chosen : List.Forall₂ (· ∈ ·) sequence offered
  steps : ∀ i v w, sequence[i]? = some v → sequence[i + 1]? = some w →
    setAside (i + 1) ∉ said → allowed r v w = true

section Sequences

variable {r : Rules} {said : Warnings} {offered : List (List Voicing)} {sequence : List Voicing}
  {found : List Voicing} {v w : Voicing}

theorem Sound.mono {more : Warnings} (h : Sound r said offered sequence) (hmore : said ⊆ more) :
    Sound r more offered sequence :=
  ⟨h.chosen, fun i v w hv hw hsaid => h.steps i v w hv hw fun hmem => hsaid (hmore hmem)⟩

theorem Sound.start (hv : v ∈ found) : Sound r said [found] [v] := by
  refine ⟨.cons hv .nil, ?_⟩
  intro i _ w _ hw
  simp at hw

/-- One more voicing, after the last one. -/
theorem Sound.snoc (h : Sound r said offered sequence) (hlast : sequence.getLast? = some v)
    (hw : w ∈ found) (hstep : setAside offered.length ∉ said → allowed r v w = true) :
    Sound r said (offered ++ [found]) (sequence ++ [w]) := by
  refine ⟨List.rel_append h.chosen (.cons hw .nil), ?_⟩
  intro i v' w' hv' hw' hsaid
  have hlength := h.chosen.length_eq
  rcases Nat.lt_trichotomy (i + 1) sequence.length with hlt | heq | hgt
  · rw [List.getElem?_append_left (by omega)] at hv'
    rw [List.getElem?_append_left hlt] at hw'
    exact h.steps i v' w' hv' hw' hsaid
  · -- The step that is added.
    rw [List.getElem?_append_left (by omega)] at hv'
    rw [heq, List.getElem?_concat_length] at hw'
    rw [List.getLast?_eq_getElem?, ← heq, Nat.add_sub_cancel, hv'] at hlast
    cases hlast
    cases hw'
    rw [heq, hlength] at hsaid
    exact hstep hsaid
  · rw [List.getElem?_eq_none (by simp; omega)] at hw'
    cases hw'

end Sequences

/-! ## §2  Paths -/

namespace Path

theorem toList_extend (p : Path) (gain : Int) (v : Voicing) :
    (p.extend gain v).toList = p.toList ++ [v] :=
  List.reverse_cons

theorem getLast?_toList (p : Path) : p.toList.getLast? = some p.newest := by
  unfold toList
  rw [List.getLast?_reverse]
  rfl

end Path

/-- All paths of a beam are sound. -/
def AllSound (r : Rules) (said : Warnings) (offered : List (List Voicing)) (beam : List Path) :
    Prop :=
  ∀ p ∈ beam, Sound r said offered p.toList

section Beams

variable {r : Rules} {said : Warnings} {offered : List (List Voicing)} {beam : List Path}
  {found : List Voicing}

theorem AllSound.start (r : Rules) (said : Warnings) (found : List Voicing) :
    AllSound r said [found] (found.map Path.start) := by
  intro p hp
  obtain ⟨v, hv, rfl⟩ := List.mem_map.1 hp
  exact Sound.start hv

theorem AllSound.mono {more : Warnings} (h : AllSound r said offered beam) (hmore : said ⊆ more) :
    AllSound r more offered beam :=
  fun p hp => (h p hp).mono hmore

/-- Extended as the rules allow. -/
theorem AllSound.extensions (h : AllSound r said offered beam) :
    AllSound r said (offered ++ [found]) (extensions r beam found) := by
  intro p hp
  obtain ⟨before, hbefore, hp⟩ := List.mem_flatMap.1 hp
  obtain ⟨v, hv, rfl⟩ := List.mem_map.1 hp
  obtain ⟨hv, hallowed⟩ := List.mem_filter.1 hv
  rw [Path.toList_extend]
  exact (h before hbefore).snoc before.getLast?_toList hv fun _ => hallowed

/-- Extended with the rules set aside, which is said. -/
theorem AllSound.relaxed (h : AllSound r said offered beam) (hsaid : setAside offered.length ∈ said) :
    AllSound r said (offered ++ [found]) (relaxed beam found) := by
  intro p hp
  obtain ⟨before, hbefore, hp⟩ := List.mem_flatMap.1 hp
  obtain ⟨v, hv, rfl⟩ := List.mem_map.1 hp
  rw [Path.toList_extend]
  exact (h before hbefore).snoc before.getLast?_toList hv fun hnone => absurd hsaid hnone

theorem relaxed_ne_nil (hbeam : beam ≠ []) (hfound : found ≠ []) : relaxed beam found ≠ [] := by
  obtain ⟨p, beam, rfl⟩ := List.exists_cons_of_ne_nil hbeam
  obtain ⟨v, found, rfl⟩ := List.exists_cons_of_ne_nil hfound
  exact List.cons_ne_nil _ _

/-- Only the best paths are kept, and those are as sound as all. -/
theorem AllSound.best {paths : List Path} (h : AllSound r said offered paths) :
    AllSound r said offered (best paths) :=
  fun p hp => h p (List.mem_mergeSort.1 (List.mem_of_mem_take hp))

theorem best_singleton (p : Path) : best [p] = [p] := by
  unfold best
  rw [List.mergeSort_singleton]
  rfl

theorem best_ne_nil {paths : List Path} (h : paths ≠ []) : best paths ≠ [] := by
  unfold best
  rw [ne_eq, List.take_eq_nil_iff, ← List.length_eq_zero_iff, List.length_mergeSort,
    List.length_eq_zero_iff]
  rintro (hwidth | hnil)
  · exact absurd hwidth (by decide)
  · exact h hnil

end Beams

/-! ## §3  The search -/

section Search

variable (r : Rules) (index : Nat) (beam : List Path) (found : List Voicing)
  (rest : List (List Voicing))

variable {r beam found} in
/-- As long as the rules allow something, the best of it is gone on with. -/
theorem search_cons_of_ne_nil (hsome : extensions r beam found ≠ []) :
    search r index beam (found :: rest) =
      search r (index + 1) (best (extensions r beam found)) rest := by
  rw [search, if_neg fun hempty => hsome (List.isEmpty_iff.1 hempty)]

/-- One step of the search: the rules allow something, or they are set aside. -/
theorem search_cons :
    (extensions r beam found ≠ [] ∧ search r index beam (found :: rest) =
      search r (index + 1) (best (extensions r beam found)) rest) ∨
    search r index beam (found :: rest) =
      ((search r (index + 1) (best (relaxed beam found)) rest).1,
        setAside index :: (search r (index + 1) (best (relaxed beam found)) rest).2) := by
  by_cases hnone : extensions r beam found = []
  · right
    rw [search, if_pos (List.isEmpty_iff.2 hnone)]
    rfl
  · left
    exact ⟨hnone, search_cons_of_ne_nil index rest hnone⟩

variable {r index beam found rest}

theorem search_sound {said : Warnings} {offered : List (List Voicing)}
    (h : AllSound r said offered beam) (hindex : offered.length = index) :
    AllSound r (said ++ (search r index beam rest).2) (offered ++ rest)
      (search r index beam rest).1 := by
  induction rest generalizing index beam said offered with
  | nil =>
      rw [search, List.append_nil, List.append_nil]
      exact h
  | cons found rest ih =>
      have hnext : (offered ++ [found]).length = index + 1 := by
        rw [List.length_append, hindex]
        rfl
      have hshift : offered ++ found :: rest = (offered ++ [found]) ++ rest := by
        simp
      rw [hshift]
      rcases search_cons r index beam found rest with ⟨_, hallowed⟩ | haside
      · rw [hallowed]
        exact ih h.extensions.best hnext
      · rw [haside]
        have hsaid : setAside offered.length ∈ said ++ [setAside index] := by
          rw [hindex]
          exact List.mem_append_right said List.mem_cons_self
        have hmore : AllSound r (said ++ [setAside index]) (offered ++ [found])
            (relaxed beam found) :=
          (h.mono (List.subset_append_left said [setAside index])).relaxed hsaid
        have hrest := ih hmore.best hnext
        rw [List.append_assoc] at hrest
        exact hrest

/-- The search keeps some path while every chord has candidates. -/
theorem search_ne_nil (hbeam : beam ≠ []) (hrest : ∀ found ∈ rest, found ≠ []) :
    (search r index beam rest).1 ≠ [] := by
  induction rest generalizing index beam with
  | nil => exact hbeam
  | cons found rest ih =>
      obtain ⟨hfound, hrest⟩ := List.forall_mem_cons.1 hrest
      rcases search_cons r index beam found rest with ⟨hsome, hallowed⟩ | haside
      · rw [hallowed]
        exact ih (best_ne_nil hsome) hrest
      · rw [haside]
        exact ih (best_ne_nil (relaxed_ne_nil hbeam hfound)) hrest

/-- The search only ever says that rules are set aside. -/
theorem said_search : ∀ text ∈ (search r index beam rest).2, ∃ i, text = setAside i := by
  induction rest generalizing index beam with
  | nil => exact List.forall_mem_nil _
  | cons found rest ih =>
      rcases search_cons r index beam found rest with ⟨_, hallowed⟩ | haside
      · rw [hallowed]
        exact ih
      · rw [haside]
        exact List.forall_mem_cons.2 ⟨⟨index, rfl⟩, ih⟩

end Search

/-! ## §4  Whole progressions -/

/-- What is said where chords are stacked plainly. -/
def stackedPlainly : String :=
  "Could not find valid voicing sequence for all chords"

theorem setAside_ne_stackedPlainly (i : Nat) : setAside i ≠ stackedPlainly := by
  have hsaid : (setAside i).toList.head? = some 'N' := by
    unfold setAside
    rw [String.toList_append, List.head?_append]
    rfl
  have hplainly : stackedPlainly.toList.head? = some 'C' := rfl
  intro h
  rw [h, hplainly] at hsaid
  exact absurd hsaid (by decide)

/-- If every chord has candidates, the path in front is taken. -/
theorem bestSequence_eq {r : Rules} {first : List Voicing} {rest : List (List Voicing)} {p : Path}
    {kept : List Path} {said : Warnings} (hsome : [] ∉ first :: rest)
    (h : search r 1 (first.map Path.start) rest = (p :: kept, said)) :
    bestSequence r (first :: rest) = .ok (p.toList, said) := by
  have hindex : (first :: rest).findIdx? List.isEmpty = none := by
    rw [List.findIdx?_eq_none_iff]
    intro found hfound
    exact List.isEmpty_eq_false_iff.2 fun hnil => hsome (hnil ▸ hfound)
  unfold bestSequence
  rw [hindex]
  dsimp only
  rw [h]

/-- If every chord has candidates, one of the sequences found is taken. -/
theorem bestSequence_ok (r : Rules) {offered : List (List Voicing)} (hne : offered ≠ [])
    (hsome : [] ∉ offered) :
    ∃ sequence said, bestSequence r offered = .ok (sequence, said) ∧
      Sound r said offered sequence ∧ stackedPlainly ∉ said := by
  obtain ⟨first, rest, rfl⟩ := List.exists_cons_of_ne_nil hne
  have hall : ∀ found ∈ first :: rest, found ≠ [] := fun found hfound hnil => hsome (hnil ▸ hfound)
  obtain ⟨hfirst, hrest⟩ := List.forall_mem_cons.1 hall
  have hsound : AllSound r ([] ++ (search r 1 (first.map Path.start) rest).2) ([first] ++ rest)
      (search r 1 (first.map Path.start) rest).1 :=
    search_sound (AllSound.start r [] first) rfl
  have hkept : (search r 1 (first.map Path.start) rest).1 ≠ [] :=
    search_ne_nil (fun hnil => hfirst (List.map_eq_nil_iff.1 hnil)) hrest
  obtain ⟨p, kept, hfound⟩ := List.exists_cons_of_ne_nil hkept
  refine ⟨p.toList, (search r 1 (first.map Path.start) rest).2, ?_, ?_, ?_⟩
  · exact bestSequence_eq hsome (Prod.ext hfound rfl)
  · exact hsound p (hfound ▸ List.mem_cons_self)
  · intro hmem
    obtain ⟨i, hi⟩ := said_search _ hmem
    exact setAside_ne_stackedPlainly i hi.symm

/-- If a chord has none, no sequence is looked for. -/
theorem bestSequence_error (r : Rules) {offered : List (List Voicing)}
    (hnone : [] ∈ offered) : ∃ i, bestSequence r offered = .error i := by
  cases hindex : offered.findIdx? List.isEmpty with
  | none => exact absurd (List.findIdx?_eq_none_iff.1 hindex [] hnone) (by decide)
  | some i =>
      refine ⟨i, ?_⟩
      unfold bestSequence
      rw [hindex]

theorem mapM_midiOf_textOfMidi (v : Voicing) : (v.map Pitch.textOfMidi).mapM Pitch.midiOf = .ok v := by
  refine Outcome.mapM_map_eq_self fun m _ => ?_
  unfold Pitch.textOfMidi
  rw [Pitch.midiOf_text, Pitch.midi_ofMidi]

/-- The chords of a progression as written pitches, and the candidates for each of them. -/
structure Offers (rs : List PitchRange) (progression : List String) (chords : List (List String))
    (offered : List (List Voicing)) : Prop where
  written : List.Forall₂ (fun symbol pitches => ChordToken.notesOf symbol chordOctave = .ok pitches)
    progression chords
  found : List.Forall₂ (fun pitches found => candidates pitches rs = .ok found) chords offered

section Leading

variable {progression : List String} {rs : List PitchRange} {chords : List (List String)}
  {offered : List (List Voicing)}

/-- Chords that can be read have candidates, or it is clear that there are none. -/
theorem exists_offers (rs : List PitchRange)
    (h : ∀ symbol ∈ progression, ∃ pitches, ChordToken.notesOf symbol chordOctave = .ok pitches) :
    ∃ chords offered, Offers rs progression chords offered := by
  obtain ⟨chords, hchords⟩ := Outcome.exists_mapM h
  have hwritten := Outcome.mapM_ok hchords
  have hfound : ∃ offered, chords.mapM (candidates · rs) = .ok offered := by
    refine Outcome.exists_mapM fun pitches hpitches => ?_
    obtain ⟨symbol, _, hsymbol⟩ := exists_of_mem_right hwritten hpitches
    obtain ⟨numbers, hnumbers⟩ := exists_numbers hsymbol
    exact ⟨_, candidates_eq hnumbers rs⟩
  obtain ⟨offered, hoffered⟩ := hfound
  exact ⟨chords, offered, hwritten, Outcome.mapM_ok hoffered⟩

/-- One candidate for each chord is one voicing of each chord. -/
theorem Offers.voices (h : Offers rs progression chords offered) {sequence : List Voicing}
    (hchosen : List.Forall₂ (· ∈ ·) sequence offered) :
    List.Forall₂ (fun pitches v => ∃ numbers, pitches.mapM Pitch.midiOf = .ok numbers ∧
      Voices numbers rs v) chords sequence := by
  obtain ⟨hwritten, hfound⟩ := h
  induction hwritten generalizing offered sequence with
  | nil =>
      cases hfound
      cases hchosen
      exact .nil
  | cons hsymbol _ ih =>
      rcases hfound with _ | ⟨hfound, hmore⟩
      rcases hchosen with _ | ⟨hv, hrest⟩
      obtain ⟨numbers, hnumbers⟩ := exists_numbers hsymbol
      exact .cons ⟨numbers, hnumbers, voices_of_mem_candidates hnumbers hfound hv⟩ (ih hrest hmore)

variable {α : Type} {voices : Int} {given : Fields α}

/-- Leading the voices of chords that can be read comes down to the best sequence. -/
theorem lead_eq (style : String) (extra : List String) (hne : progression ≠ []) (hranges : ranges voices given = .ok rs)
    (h : Offers rs progression chords offered) :
    lead progression voices style extra given =
      match bestSequence (Rules.ofNames (effectiveConstraints style extra)) offered with
      | .ok (sequence, warnings) =>
        .ok { voicings := sequence.map (·.map Pitch.textOfMidi), warnings }
      | .error i =>
        .ok (stacked chords ["No valid voicings for chord: " ++ progression.getD i ""]) := by
  have hchords := Outcome.mapM_of_forall₂ h.written
  have hoffered := Outcome.mapM_of_forall₂ h.found
  unfold lead
  rw [if_neg fun hempty => hne (List.isEmpty_iff.1 hempty), hranges, Outcome.ok_bind, hchords,
    Outcome.ok_bind, hoffered, Outcome.ok_bind]
  cases bestSequence (Rules.ofNames (effectiveConstraints style extra)) offered with
  | error i => rfl
  | ok found => rfl

/-- **Voice leading is sound.** A progression of chords that can be read is always voiced. If every
chord has candidates, its voices are led through candidates, one for each chord, and every step is
allowed by the rules in force, unless it was said that they were set aside there. The chords are
stacked plainly if and only if one of them has no candidates. -/
theorem lead_sound (style : String) (extra : List String) (hne : progression ≠ [])
    (hchords : ∀ symbol ∈ progression,
      ∃ pitches, ChordToken.notesOf symbol chordOctave = .ok pitches)
    (hranges : ranges voices given = .ok rs) :
    ∃ chords offered led, Offers rs progression chords offered ∧
      lead progression voices style extra given = .ok led ∧
      ([] ∉ offered → ∃ sequence,
        List.Forall₂ (fun names v => names.mapM Pitch.midiOf = .ok v) led.voicings sequence ∧
        List.Forall₂ (fun pitches v => ∃ numbers, pitches.mapM Pitch.midiOf = .ok numbers ∧
          Voices numbers rs v) chords sequence ∧
        Sound (Rules.ofNames (effectiveConstraints style extra)) led.warnings offered sequence) ∧
      (stackedPlainly ∈ led.warnings ↔ [] ∈ offered) ∧
      ([] ∈ offered → led.voicings = chords) := by
  obtain ⟨chords, offered, hoffers⟩ := exists_offers rs hchords
  have hled := lead_eq style extra hne hranges hoffers
  by_cases hnone : [] ∈ offered
  · obtain ⟨i, hi⟩ := bestSequence_error
      (Rules.ofNames (effectiveConstraints style extra)) hnone
    rw [hi] at hled
    refine ⟨chords, offered, _, hoffers, hled, fun hsome => absurd hnone hsome, ?_, fun _ => rfl⟩
    exact iff_of_true (List.mem_append_right _ List.mem_cons_self) hnone
  · have hoffered : offered ≠ [] := by
      rintro rfl
      obtain ⟨hwritten, ⟨⟩⟩ := hoffers
      exact hne (List.forall₂_nil_right_iff.1 hwritten)
    obtain ⟨sequence, said, hbest, hsound, hsaid⟩ := bestSequence_ok
      (Rules.ofNames (effectiveConstraints style extra)) hoffered hnone
    rw [hbest] at hled
    refine ⟨chords, offered, _, hoffers, hled, fun _ => ⟨sequence, ?_, ?_, hsound⟩, ?_,
      fun hmem => absurd hmem hnone⟩
    · exact List.forall₂_map_left_iff.2
        (List.forall₂_same.2 fun v _ => mapM_midiOf_textOfMidi v)
    · exact hoffers.voices hsound.chosen
    · exact iff_of_false hsaid hnone

end Leading

/-- Ranges so narrow that the chords of C, D and A minor have one voicing each. -/
def narrow : Fields Rat :=
  [("bass", .list [.text "C3", .text "D3"]), ("tenor", .list [.text "G3", .text "A3"]),
   ("alto", .list [.text "E4", .text "F#4"])]

theorem narrow_ranges : ranges 3 narrow = .ok [(48, 50), (55, 57), (64, 66)] := by
  rfl

theorem narrow_offers :
    (["C", "D", "Am"].mapM (ChordToken.notesOf · chordOctave) >>= fun chords =>
      chords.mapM (candidates · [(48, 50), (55, 57), (64, 66)])).toOption =
        some [[[48, 55, 64]], [[50, 57, 66]], [[48, 57, 64]]] := by
  decide +kernel

/-- The fifth of C has to become that of D, but that of D need not become another one. -/
theorem narrow_best :
    bestSequence (Rules.ofNames (effectiveConstraints "bach" []))
        [[[48, 55, 64]], [[50, 57, 66]], [[48, 57, 64]]] =
      .ok ([[48, 55, 64], [50, 57, 66], [48, 57, 64]], [setAside 1]) := by
  have hrules : Rules.ofNames (effectiveConstraints "bach" []) = ⟨true, true, true, true, true⟩ := by
    decide +kernel
  have hforbidden : extensions ⟨true, true, true, true, true⟩ [Path.start [48, 55, 64]]
      [[50, 57, 66]] = [] := by
    decide
  have haside : relaxed [Path.start [48, 55, 64]] [[50, 57, 66]] =
      [⟨-100, [50, 57, 66], [[48, 55, 64]]⟩] := by
    decide
  have hallowed : extensions ⟨true, true, true, true, true⟩
      [⟨-100, [50, 57, 66], [[48, 55, 64]]⟩] [[48, 57, 64]] =
        [⟨-114, [48, 57, 64], [[50, 57, 66], [48, 55, 64]]⟩] := by
    decide
  have hsearch : search ⟨true, true, true, true, true⟩ 1 [Path.start [48, 55, 64]]
      [[[50, 57, 66]], [[48, 57, 64]]] =
        ([⟨-114, [48, 57, 64], [[50, 57, 66], [48, 55, 64]]⟩], [setAside 1]) := by
    simp only [search, hforbidden, haside, best_singleton, hallowed]
    rfl
  have hindex : [[[48, 55, 64]], [[50, 57, 66]], [[48, 57, 64]]].findIdx?
      (List.isEmpty : List Voicing → Bool) = none := by
    decide
  rw [hrules]
  unfold bestSequence
  rw [hindex]
  dsimp only [List.map]
  rw [hsearch]
  rfl

/-- The theorem at work: the voices of D are led in parallel, which is said, and those of A minor are
led as all rules of the style would have it. -/
theorem narrow_led : ∃ (led : Led) (sequence : List Voicing),
    lead ["C", "D", "Am"] 3 "bach" [] narrow = .ok led ∧ led.warnings = [setAside 1] ∧
      List.Forall₂ (fun names v => names.mapM Pitch.midiOf = .ok v) led.voicings sequence ∧
      Sound (Rules.ofNames (effectiveConstraints "bach" [])) [setAside 1]
        [[[48, 55, 64]], [[50, 57, 66]], [[48, 57, 64]]] sequence := by
  have hread : ∀ symbol ∈ ["C", "D", "Am"],
      (ChordToken.notesOf symbol chordOctave).toOption.isSome = true := by
    decide +kernel
  have hchords : ∀ symbol ∈ ["C", "D", "Am"],
      ∃ pitches, ChordToken.notesOf symbol chordOctave = .ok pitches :=
    fun symbol hsymbol => Outcome.exists_of_isSome (hread symbol hsymbol)
  obtain ⟨chords, offered, led, hoffers, hled, hsound, _⟩ :=
    lead_sound "bach" [] (List.cons_ne_nil "C" ["D", "Am"]) hchords narrow_ranges
  have hoffered : offered = [[[48, 55, 64]], [[50, 57, 66]], [[48, 57, 64]]] := by
    have hfound := narrow_offers
    rw [Outcome.mapM_of_forall₂ hoffers.written, Outcome.ok_bind,
      Outcome.mapM_of_forall₂ hoffers.found] at hfound
    exact Option.some.inj hfound
  subst hoffered
  have hwarnings : led.warnings = [setAside 1] := by
    rw [lead_eq "bach" [] (List.cons_ne_nil "C" ["D", "Am"]) narrow_ranges hoffers,
      narrow_best] at hled
    cases hled
    rfl
  obtain ⟨sequence, hnames, _, hsequence⟩ := hsound (by decide)
  rw [hwarnings] at hsequence
  exact ⟨led, sequence, hled, hwarnings, hnames, hsequence⟩

end Partitura.Voicing

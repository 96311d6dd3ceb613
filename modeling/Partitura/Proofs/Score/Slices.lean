import Partitura.Proofs.Determined
import Partitura.Proofs.Score.Independence

/-!
# Slices of an arrangement

A slice begins at the first entry of a section and goes on to the end. Its entries keep the places
that they have in the whole arrangement, but not their seeds: a compilation takes a seed for each
entry that it compiles, so the entry at the place `i` of a slice that begins at the place `k` has the
seed of the place `i - k` (`Score.slice_agrees_iff`). The slice plays its entries as the whole does
only if that makes no difference.
-/

namespace Partitura

variable {α : Type} [Scalar α]

/-! ## §1  The seed of a turn -/

/-- The seed that a master stream gives in a turn, counted from 0. -/
def seedAt (turn : Nat) (t : Twister) : Nat :=
  ((nextSeeds (turn + 1) t)[turn]?).getD 0

theorem nextSeeds_seedAt {turn count : Nat} (h : turn < count) (t : Twister) :
    (nextSeeds count t)[turn]? = some (seedAt turn t) := by
  have hlast : turn < (nextSeeds (turn + 1) t).length := by
    rw [length_nextSeeds]
    exact Nat.lt_succ_self turn
  rw [getElem?_nextSeeds h (Nat.lt_succ_self turn), seedAt, List.getElem?_eq_getElem hlast,
    Option.getD_some]

omit [Scalar α] in
/-- Selected entries take the seeds in their order. -/
theorem Score.mem_seeded {s : Score α} {o : CompileOptions α} {turn : Nat} {entry : Nat × String}
    (h : (s.selection o)[turn]? = some entry) :
    (entry, seedAt turn (Twister.ofSeed o.seed)) ∈ s.seeded o := by
  obtain ⟨hturn, _⟩ := List.getElem?_eq_some_iff.1 h
  exact List.mem_iff_getElem?.2 ⟨turn, List.getElem?_zip_eq_some.2
    ⟨h, nextSeeds_seedAt hturn (Twister.ofSeed o.seed)⟩⟩

/-! ## §2  What an entry contributes -/

/-- The notes that the entry at a place contributes if it is compiled on the stream of a seed, counted
from the start of its section. -/
def Score.contribution (s : Score α) (o : CompileOptions α) (place : Nat) (name : String)
    (seed : Nat) : Outcome (List (PlayedNote α)) := do
  let settings := s.effectiveSettings o
  let meter ← TimeSignature.parse (α := α) (.text settings.timeSignature)
  let beatsPerBar ← meter.beatsPerBar
  let compiled ← (s.compileEntry settings beatsPerBar place name seed []).map Prod.fst
  return compiled.toList.flatMap (·.played)

/-- An entry of a compilation contributes what it comes to on the seed of its turn. -/
theorem Score.contribution_of_compile {s : Score α} {o : CompileOptions α} {c : Compilation α}
    (h : s.compile o = .ok c) {turn place : Nat} {name : String}
    (hentry : (s.selection o)[turn]? = some (place, name)) :
    s.contribution o place name (seedAt turn (Twister.ofSeed o.seed)) = .ok (c.playedAt place) := by
  have hseeded := Score.mem_seeded hentry
  generalize seedAt turn (Twister.ofSeed o.seed) = seed at hseeded ⊢
  obtain ⟨meter, beatsPerBar, x, hmeter, hbeats, ⟨w, w', hx⟩, hplayed⟩ :=
    Score.playedAt_of_compile h hseeded
  have hsame : (s.compileEntry (s.effectiveSettings o) beatsPerBar place name seed []).map Prod.fst =
      .ok x :=
    (Score.compileEntry_eq rfl rfl _ _ _ _ [] w).trans (congrArg _ hx)
  change (TimeSignature.parse (α := α) (.text s.settings.timeSignature) >>= fun meter =>
    meter.beatsPerBar >>= fun beatsPerBar => (s.compileEntry (s.effectiveSettings o) beatsPerBar place
      name seed []).map Prod.fst >>= fun compiled => pure (compiled.toList.flatMap (·.played))) = _
  rw [hmeter, Outcome.ok_bind, hbeats, Outcome.ok_bind, hsame, Outcome.ok_bind]
  exact congrArg Except.ok hplayed.symm

omit [Scalar α] in
/-- The result of a determined run, apart from what is left of the session. -/
theorem Run.Determined.forget {r : Run (CompiledSection α)} (h : r.Determined) (t t' : Twister) :
    ((do
      let result ← r ⟨t, []⟩
      return (some result.1, result.2.warnings) : Outcome _)).map Prod.fst =
    ((do
      let result ← r ⟨t', []⟩
      return (some result.1, result.2.warnings) : Outcome _)).map Prod.fst := by
  rcases same_of_map_fst (h ⟨t, []⟩ ⟨t', []⟩) with ⟨why, hr, hr'⟩ | ⟨x, y, y', hr, hr'⟩
  · rw [hr, hr']
  · rw [hr, hr']
    rfl

/-- Without chance an entry comes to the same on every seed. -/
theorem Score.compileEntry_seed {s : Score α} (ht : s.patterns.Determined) {name : String}
    (hbody : ∀ body, s.sections.lookup name = some body → body.Determined) (settings : Settings α)
    (beatsPerBar : α) (place seed seed' : Nat) :
    (s.compileEntry settings beatsPerBar place name seed []).map Prod.fst =
      (s.compileEntry settings beatsPerBar place name seed' []).map Prod.fst := by
  unfold Score.compileEntry
  -- The streams may be any two from here on.
  generalize Twister.ofSeed seed = t
  generalize Twister.ofSeed seed' = t'
  cases hlookup : s.sections.lookup name with
  | none => rfl
  | some body =>
      dsimp only
      cases hoccur : body.occur name place settings beatsPerBar with
      | error why => rw [Outcome.error_bind, Outcome.error_bind]
      | ok occurrence =>
          have hplayed : occurrence.body = body := by
            obtain ⟨key, _, hoccurrence⟩ := Outcome.bind_ok hoccur
            cases hoccurrence
            rfl
          exact (Occurrence.determined_compile ht (hplayed ▸ hbody body hlookup)
            settings.swing).forget t t'

theorem Score.contribution_seed {s : Score α} (ht : s.patterns.Determined) {name : String}
    (hbody : ∀ body, s.sections.lookup name = some body → body.Determined) (o : CompileOptions α)
    (place seed seed' : Nat) :
    s.contribution o place name seed = s.contribution o place name seed' := by
  have hsame := fun beatsPerBar => Score.compileEntry_seed ht hbody (s.effectiveSettings o)
    beatsPerBar place seed seed'
  unfold Score.contribution
  simp only [hsame]

/-! ## §3  Slices -/

/-- The options with another first section. -/
def CompileOptions.startingAt (o : CompileOptions α) (name : String) : CompileOptions α :=
  { o with startSection := some name }

variable {s : Score α} {o : CompileOptions α} {name : String} {k : Nat}

omit [Scalar α] in
theorem Score.getElem?_selection_whole (hstart : o.startSection = none) (hend : o.endSection = none)
    (i : Nat) : (s.selection o)[i]? = s.arrangement[i]?.map fun entry => (i, entry) := by
  rw [s.selection_whole hstart hend]
  exact s.getElem?_entries i

omit [Scalar α] in
/-- A slice selects what the whole does, from the place of its first entry on. -/
theorem Score.selection_startingAt (hstart : o.startSection = none) (hend : o.endSection = none)
    (hfirst : s.arrangement.idxOf? name = some k) :
    s.selection (o.startingAt name) = (s.selection o).drop k := by
  unfold Score.selection firstPlace CompileOptions.startingAt
  dsimp only [Option.bind_some]
  rw [hstart, hend, hfirst]
  rfl

omit [Scalar α] in
theorem Score.getElem?_selection_startingAt (hstart : o.startSection = none)
    (hend : o.endSection = none) (hfirst : s.arrangement.idxOf? name = some k) {i : Nat} (hi : k ≤ i) :
    (s.selection (o.startingAt name))[i - k]? = (s.selection o)[i]? := by
  rw [Score.selection_startingAt hstart hend hfirst, List.getElem?_drop, Nat.add_sub_cancel' hi]

/-- **A slice plays its entries on earlier seeds.** Let a slice of an arrangement begin at the first
entry of a section, which has the place `k`. Then an entry from there on, at the place `i`, contributes
to the slice what it comes to on the seed of the turn `i - k`, and to the whole compilation what it
comes to on the seed of the turn `i`. So the slice previews the whole there if and only if both seeds
lead to the same notes. They do if the slice is the whole, and if neither a pattern nor the section of
the entry leaves anything to chance. -/
theorem Score.slice_agrees_iff (hstart : o.startSection = none) (hend : o.endSection = none)
    (hfirst : s.arrangement.idxOf? name = some k) {whole slice : Compilation α}
    (hwhole : s.compile o = .ok whole) (hslice : s.compile (o.startingAt name) = .ok slice)
    {i : Nat} {entry : String} (hi : k ≤ i) (hentry : s.arrangement[i]? = some entry) :
    s.contribution o i entry (seedAt i (Twister.ofSeed o.seed)) = .ok (whole.playedAt i) ∧
    s.contribution o i entry (seedAt (i - k) (Twister.ofSeed o.seed)) = .ok (slice.playedAt i) ∧
    (slice.playedAt i = whole.playedAt i ↔
      s.contribution o i entry (seedAt (i - k) (Twister.ofSeed o.seed)) =
        s.contribution o i entry (seedAt i (Twister.ofSeed o.seed))) ∧
    ((k = 0 ∨ s.patterns.Determined ∧
        ∀ body, s.sections.lookup entry = some body → body.Determined) →
      slice.playedAt i = whole.playedAt i) := by
  have hselected : (s.selection o)[i]? = some (i, entry) := by
    rw [Score.getElem?_selection_whole hstart hend, hentry]
    rfl
  have hsliced : (s.selection (o.startingAt name))[i - k]? = some (i, entry) :=
    (Score.getElem?_selection_startingAt hstart hend hfirst hi).trans hselected
  have hinWhole := Score.contribution_of_compile hwhole hselected
  have hinSlice : s.contribution o i entry (seedAt (i - k) (Twister.ofSeed o.seed)) =
      .ok (slice.playedAt i) :=
    Score.contribution_of_compile hslice hsliced
  have hiff : slice.playedAt i = whole.playedAt i ↔
      s.contribution o i entry (seedAt (i - k) (Twister.ofSeed o.seed)) =
        s.contribution o i entry (seedAt i (Twister.ofSeed o.seed)) := by
    rw [hinWhole, hinSlice]
    exact ⟨congrArg Except.ok, Except.ok.inj⟩
  refine ⟨hinWhole, hinSlice, hiff, fun hchance => hiff.2 ?_⟩
  rcases hchance with rfl | ⟨ht, hbody⟩
  · rfl
  · exact Score.contribution_seed ht hbody o i _ _

/-- A bar without chance, played twice after a name of no section. -/
def refrain [Elementary] : Score Rat :=
  { Score.simple [("piano", ["C4:q", "E4:q"])] 1 120 "C major" with
    arrangement := ["nowhere", "main", "main"] }

theorem determined_patterns_refrain [Elementary] : refrain.patterns.Determined := by
  rintro p ⟨name, hp⟩
  obtain ⟨rfl, rfl⟩ := Prod.mk.inj (List.mem_singleton.1 (mem_of_lookup hp))
  have hcertain : Certain ["C4:q", "E4:q"] := by
    unfold Certain
    decide
  exact hcertain

theorem determined_section_refrain [Elementary] {body : Section Rat}
    (h : refrain.sections.lookup "main" = some body) : body.Determined := by
  obtain ⟨_, rfl⟩ := Prod.mk.inj (List.mem_singleton.1 (mem_of_lookup h))
  refine ⟨rfl, fun track htrack p hp => ?_⟩
  cases List.mem_singleton.1 htrack
  obtain ⟨style, hstyle, hp⟩ := hp.of_bind
  cases hstyle.of_pure
  cases hp.of_pure
  have hzero : ((0.0 : Rat) == 0) = true := beq_iff_eq.2 Exact.start_eq
  exact ⟨hzero, hzero⟩

set_option maxRecDepth 10000 in
theorem refrain_plays :
    letI := Elementary.coarse
    (refrain.compile {}).toOption.any (fun _ => true) = true ∧
      (refrain.compile { startSection := some "main" }).toOption.any
        (fun c => (c.playedAt 2).map (·.pitch) = ["C4", "E4"]) = true := by
  decide +kernel

/-- The theorem at work: the last bar of the slice on the seed of the turn before. -/
theorem refrain_slice_agrees : ∃ _ : Elementary, ∃ whole slice : Compilation Rat,
    refrain.compile {} = .ok whole ∧
      refrain.compile { startSection := some "main" } = .ok slice ∧
      (slice.playedAt 2).map (·.pitch) = ["C4", "E4"] ∧ slice.playedAt 2 = whole.playedAt 2 := by
  let _ := Elementary.coarse
  obtain ⟨whole, hwhole, _⟩ := Outcome.exists_of_any refrain_plays.1
  obtain ⟨slice, hslice, hplayed⟩ := Outcome.exists_of_any refrain_plays.2
  have hfirst : refrain.arrangement.idxOf? "main" = some 1 := by decide
  have hentry : refrain.arrangement[2]? = some "main" := rfl
  obtain ⟨_, _, _, hagrees⟩ :=
    Score.slice_agrees_iff rfl rfl hfirst hwhole hslice (by decide) hentry
  exact ⟨_, whole, slice, hwhole, hslice, of_decide_eq_true hplayed,
    hagrees (.inr ⟨determined_patterns_refrain, fun _ => determined_section_refrain⟩)⟩

end Partitura

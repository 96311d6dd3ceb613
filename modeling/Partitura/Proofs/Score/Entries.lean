import Mathlib.Data.List.Nodup
import Partitura.Proofs.Heedless

/-!
# The entries of a compilation

A compilation is taken apart into its entries. An entry has a place, a name and a seed, and comes to
a compiled section or, if its name is no section, to nothing (`Score.CompilesTo`). What it comes to
is settled by these three, the settings, the patterns and the section of its name, and by nothing else
(`CompilesTo.unique`): warnings are never read, and the seed of a place does not depend on how many
places follow.
-/

namespace Partitura

variable {α : Type} [Scalar α]

/-! ## Seeds -/

theorem length_nextSeeds (count : Nat) (t : Twister) : (nextSeeds count t).length = count := by
  induction count generalizing t with
  | zero => rfl
  | succ count ih => simp [nextSeeds, ih]

/-- The seed of a place is the same however many places follow. -/
theorem getElem?_nextSeeds {i m n : Nat} (hm : i < m) (hn : i < n) (t : Twister) :
    (nextSeeds m t)[i]? = (nextSeeds n t)[i]? := by
  induction i generalizing m n t with
  | zero =>
      cases m with
      | zero => exact absurd hm (Nat.lt_irrefl 0)
      | succ m =>
          cases n with
          | zero => exact absurd hn (Nat.lt_irrefl 0)
          | succ n => rfl
  | succ i ih =>
      cases m with
      | zero => exact absurd hm (Nat.not_lt_zero _)
      | succ m =>
          cases n with
          | zero => exact absurd hn (Nat.not_lt_zero _)
          | succ n => exact ih (Nat.lt_of_succ_lt_succ hm) (Nat.lt_of_succ_lt_succ hn) _

/-! ## Selected entries -/

/-- The entries of the whole arrangement with their places. -/
def Score.entries (s : Score α) : List (Nat × String) :=
  s.arrangement.zipIdx.map Prod.swap

omit [Scalar α] in
theorem Score.getElem?_entries (s : Score α) (i : Nat) :
    s.entries[i]? = s.arrangement[i]?.map fun name => (i, name) := by
  unfold entries
  rw [List.getElem?_map, List.getElem?_zipIdx, Option.map_map, Nat.zero_add]
  rfl

omit [Scalar α] in
/-- Places are selected at most once each. -/
theorem Score.nodup_selection (s : Score α) (o : CompileOptions α) :
    ((s.selection o).map (·.1)).Nodup := by
  have places : (s.arrangement.zipIdx.map Prod.swap).map (·.1) =
      List.range' 0 s.arrangement.length := by
    rw [List.map_map, ← List.zipIdx_map_snd 0 s.arrangement]
    rfl
  have hsub : ((s.selection o).map (·.1)).Sublist ((s.arrangement.zipIdx.map Prod.swap).map (·.1)) :=
    ((List.drop_sublist _ _).trans (List.take_sublist _ _)).map _
  rw [places] at hsub
  exact (List.nodup_range' 1).sublist hsub

omit [Scalar α] in
/-- Without a start and an end the whole arrangement is selected. -/
theorem Score.selection_whole (s : Score α) {o : CompileOptions α}
    (hstart : o.startSection = none) (hend : o.endSection = none) :
    s.selection o = s.arrangement.zipIdx.map Prod.swap := by
  unfold Score.selection firstPlace
  rw [hstart, hend]
  exact List.take_of_length_le (by simp)

/-! ## What an entry comes to -/

/-- The entry at a place, of a name and with a seed, comes to this, whatever was reported before. -/
def Score.CompilesTo (s : Score α) (settings : Settings α) (beatsPerBar : α)
    (entry : (Nat × String) × Nat) (x : Option (CompiledSection α)) : Prop :=
  ∃ w w', s.compileEntry settings beatsPerBar entry.1.1 entry.1.2 entry.2 w = .ok (x, w')

/-- The result of an entry depends on the score by its patterns and by the section of its name
alone, and not on the warnings so far. -/
theorem Score.compileEntry_eq {s₁ s₂ : Score α} {name : String}
    (hpatterns : s₁.patterns = s₂.patterns)
    (hsection : s₁.sections.lookup name = s₂.sections.lookup name)
    (settings : Settings α) (beatsPerBar : α) (index seed : Nat) (w₁ w₂ : Warnings) :
    (s₁.compileEntry settings beatsPerBar index name seed w₁).map Prod.fst =
      (s₂.compileEntry settings beatsPerBar index name seed w₂).map Prod.fst := by
  unfold Score.compileEntry
  rw [hsection, hpatterns]
  cases s₂.sections.lookup name with
  | none => rfl
  | some body =>
      generalize Twister.ofSeed seed = t
      dsimp only
      cases body.occur name index settings beatsPerBar with
      | error why => rfl
      | ok o =>
          have h := o.heedless_compile s₂.patterns settings.swing t w₁ w₂
          have forget (w : Warnings) : ∀ r : Run (CompiledSection α),
              ((do
                let result ← r ⟨t, w⟩
                return (some result.1, result.2.warnings) : Outcome _)).map Prod.fst
              = (r.bare t w).map fun p => some p.1 := by
            intro r
            unfold Run.bare
            cases r ⟨t, w⟩ <;> rfl
          exact (forget w₁ _).trans ((congrArg _ h).trans (forget w₂ _).symm)

/-- An entry comes to the same in two scores that agree on its section and on all patterns. -/
theorem Score.CompilesTo.unique {s₁ s₂ : Score α} {settings : Settings α} {beatsPerBar : α}
    {entry : (Nat × String) × Nat} {x₁ x₂ : Option (CompiledSection α)}
    (hpatterns : s₁.patterns = s₂.patterns)
    (hsection : s₁.sections.lookup entry.1.2 = s₂.sections.lookup entry.1.2)
    (h₁ : s₁.CompilesTo settings beatsPerBar entry x₁)
    (h₂ : s₂.CompilesTo settings beatsPerBar entry x₂) : x₁ = x₂ := by
  obtain ⟨w₁, w₁', h₁⟩ := h₁
  obtain ⟨w₂, w₂', h₂⟩ := h₂
  have h := Score.compileEntry_eq hpatterns hsection settings beatsPerBar entry.1.1 entry.2 w₁ w₂
  rw [h₁, h₂] at h
  exact Except.ok.inj h

/-- What an entry comes to, if it comes to a section: an occurrence at its place, compiled. -/
theorem Score.CompilesTo.compiled {s : Score α} {settings : Settings α} {beatsPerBar : α}
    {entry : (Nat × String) × Nat} {x : CompiledSection α}
    (h : s.CompilesTo settings beatsPerBar entry (some x)) :
    ∃ body, s.sections.lookup entry.1.2 = some body ∧
      body.occur entry.1.2 entry.1.1 settings beatsPerBar = .ok x.occurrence ∧
      (x.occurrence.compile s.patterns settings.swing).Yields x := by
  obtain ⟨w, w', h⟩ := h
  unfold Score.compileEntry at h
  generalize Twister.ofSeed entry.2 = t at h
  cases hbody : s.sections.lookup entry.1.2 with
  | none => rw [hbody] at h; cases h
  | some body =>
      rw [hbody] at h
      obtain ⟨o, ho, h⟩ := Outcome.bind_ok h
      obtain ⟨⟨x', session⟩, hx, h⟩ := Outcome.bind_ok h
      cases h
      have hyields : (o.compile s.patterns settings.swing).Yields x := ⟨_, _, hx⟩
      have hoccurrence : x.occurrence = o := by
        obtain ⟨played, _, h⟩ := hyields.of_bind
        obtain ⟨notes, _, h⟩ := h.of_bind
        obtain ⟨events, _, h⟩ := h.of_bind
        obtain ⟨seconds, _, h⟩ := h.of_bind
        rw [← h.of_pure]
      exact ⟨body, rfl, hoccurrence ▸ ho, hoccurrence ▸ hyields⟩

/-- An entry that comes to a section is that of its name, at its place. -/
theorem Score.CompilesTo.occurs {s : Score α} {settings : Settings α} {beatsPerBar : α}
    {entry : (Nat × String) × Nat} {x : CompiledSection α}
    (h : s.CompilesTo settings beatsPerBar entry (some x)) :
    x.occurrence.index = entry.1.1 ∧ x.occurrence.name = entry.1.2 ∧
      s.sections.lookup entry.1.2 = some x.occurrence.body := by
  obtain ⟨body, hbody, ho, _⟩ := h.compiled
  obtain ⟨key, _, ho⟩ := Outcome.bind_ok ho
  rw [← Outcome.pure_ok ho]
  exact ⟨rfl, rfl, hbody⟩

/-- An entry that comes to nothing has the name of no section. -/
theorem Score.CompilesTo.unknown {s : Score α} {settings : Settings α} {beatsPerBar : α}
    {entry : (Nat × String) × Nat} (h : s.CompilesTo settings beatsPerBar entry none) :
    s.sections.lookup entry.1.2 = none := by
  obtain ⟨w, w', h⟩ := h
  unfold Score.compileEntry at h
  generalize Twister.ofSeed entry.2 = t at h
  cases hbody : s.sections.lookup entry.1.2 with
  | none => rfl
  | some body =>
      rw [hbody] at h
      obtain ⟨o, _, h⟩ := Outcome.bind_ok h
      obtain ⟨x, _, h⟩ := Outcome.bind_ok h
      cases h

/-- Entries that compile one after the other do so one by one. -/
theorem Score.compileEntries_ok {s : Score α} {settings : Settings α} {beatsPerBar : α}
    {entries : List ((Nat × String) × Nat)} {w w' : Warnings} {sections : List (CompiledSection α)}
    (h : s.compileEntries settings beatsPerBar entries w = .ok (sections, w')) :
    ∃ xs, List.Forall₂ (s.CompilesTo settings beatsPerBar) entries xs ∧
      sections = xs.flatMap Option.toList := by
  induction entries generalizing w sections with
  | nil =>
      cases h
      exact ⟨[], .nil, rfl⟩
  | cons entry rest ih =>
      obtain ⟨⟨index, name⟩, seed⟩ := entry
      unfold Score.compileEntries at h
      obtain ⟨⟨x, w₁⟩, hx, h⟩ := Outcome.bind_ok h
      obtain ⟨⟨more, w₂⟩, hmore, h⟩ := Outcome.bind_ok h
      cases h
      obtain ⟨xs, hxs, rfl⟩ := ih hmore
      exact ⟨x :: xs, .cons ⟨w, w₁, hx⟩ hxs, rfl⟩

/-! ## Whole compilations -/

/-- The entries of a compilation with their seeds. -/
def Score.seeded (s : Score α) (o : CompileOptions α) : List ((Nat × String) × Nat) :=
  (s.selection o).zip (nextSeeds (s.selection o).length (Twister.ofSeed o.seed))

omit [Scalar α] in
theorem Score.map_fst_seeded (s : Score α) (o : CompileOptions α) :
    (s.seeded o).map (·.1) = s.selection o :=
  List.map_fst_zip (Nat.le_of_eq (length_nextSeeds _ _).symm)

/-- A compilation taken apart: its bars, and what each of its entries comes to. -/
theorem Score.compile_ok {s : Score α} {o : CompileOptions α} {c : Compilation α}
    (h : s.compile o = .ok c) :
    ∃ meter beatsPerBar xs,
      TimeSignature.parse (α := α) (.text s.settings.timeSignature) = .ok meter ∧
      meter.beatsPerBar = .ok beatsPerBar ∧
      List.Forall₂ (s.CompilesTo (s.effectiveSettings o) beatsPerBar) (s.seeded o) xs ∧
      c.sections = xs.flatMap Option.toList ∧
      c.timeline = timelineOf (s.effectiveSettings o) c.sections := by
  obtain ⟨meter, hmeter, h⟩ := Outcome.bind_ok h
  obtain ⟨beatsPerBar, hbeats, h⟩ := Outcome.bind_ok h
  obtain ⟨⟨sections, w⟩, hsections, h⟩ := Outcome.bind_ok h
  obtain ⟨xs, hxs, rfl⟩ := Score.compileEntries_ok hsections
  cases h
  exact ⟨meter, beatsPerBar, xs, hmeter, hbeats, hxs, rfl, rfl⟩

/-- Every compiled section is the section of an entry, in its occurrence there, compiled. -/
theorem Score.compiled_of_mem {s : Score α} {o : CompileOptions α} {c : Compilation α}
    (h : s.compile o = .ok c) {x : CompiledSection α} (hx : x ∈ c.sections) :
    ∃ meter beatsPerBar entry body,
      TimeSignature.parse (α := α) (.text s.settings.timeSignature) = .ok meter ∧
      meter.beatsPerBar = .ok beatsPerBar ∧
      entry ∈ s.selection o ∧ s.sections.lookup entry.2 = some body ∧
      body.occur entry.2 entry.1 (s.effectiveSettings o) beatsPerBar = .ok x.occurrence ∧
      (x.occurrence.compile s.patterns (s.effectiveSettings o).swing).Yields x := by
  obtain ⟨meter, beatsPerBar, xs, hmeter, hbeats, hxs, hsections, _⟩ := Score.compile_ok h
  rw [hsections] at hx
  obtain ⟨x', hx', hmem⟩ := List.mem_flatMap.1 hx
  cases Option.mem_toList.1 hmem
  obtain ⟨entry, hentry, hto⟩ := exists_of_mem_right hxs hx'
  obtain ⟨body, hbody, hoccur, hyields⟩ := hto.compiled
  refine ⟨meter, beatsPerBar, entry.1, body, hmeter, hbeats, ?_, hbody, hoccur, hyields⟩
  rw [← s.map_fst_seeded o]
  exact List.mem_map_of_mem hentry

theorem Score.yields_of_mem {s : Score α} {o : CompileOptions α} {c : Compilation α}
    (h : s.compile o = .ok c) {x : CompiledSection α} (hx : x ∈ c.sections) :
    (x.occurrence.compile s.patterns (s.effectiveSettings o).swing).Yields x := by
  obtain ⟨_, _, _, _, _, _, _, _, _, hyields⟩ := Score.compiled_of_mem h hx
  exact hyields

theorem Score.timeline_eq {s : Score α} {o : CompileOptions α} {c : Compilation α}
    (h : s.compile o = .ok c) : c.timeline = timelineOf (s.effectiveSettings o) c.sections := by
  obtain ⟨_, _, _, _, _, _, _, htimeline⟩ := Score.compile_ok h
  exact htimeline

end Partitura

import Partitura.Number.Exact
import Partitura.Proofs.Score.Entries
import Partitura.Score.Analysis

/-!
# Entries do not disturb each other

What an entry of the arrangement plays, counted from the start of its section, is the same in every
arrangement that has the same section at the same place, whatever stands at all other places
(`played_independent`). Names of unknown sections take their seed like all others, so they may stand
anywhere.
-/

namespace Partitura

variable {α : Type} [Scalar α]

/-- The notes of a compiled section, counted from its start. -/
def CompiledSection.played (c : CompiledSection α) : List (PlayedNote α) :=
  c.notes.map (·.note)

/-- The notes that the entry at a place of the arrangement contributes. -/
def Compilation.playedAt (c : Compilation α) (place : Nat) : List (PlayedNote α) :=
  (c.sections.filter (·.occurrence.index = (place : Int))).flatMap (·.played)

/-- A compiled section has the place of one of the entries. -/
theorem exists_entry_of_mem {s : Score α} {settings : Settings α} {beatsPerBar : α}
    {entries : List ((Nat × String) × Nat)} {xs : List (Option (CompiledSection α))}
    (h : List.Forall₂ (s.CompilesTo settings beatsPerBar) entries xs)
    {c : CompiledSection α} (hc : c ∈ xs.flatMap Option.toList) :
    ∃ entry ∈ entries, c.occurrence.index = entry.1.1 := by
  induction h with
  | nil => cases hc
  | @cons first x rest xs hx hxs ih =>
      rw [List.flatMap_cons] at hc
      rcases List.mem_append.1 hc with hc | hc
      · rw [Option.mem_toList] at hc
        cases hc
        exact ⟨first, List.mem_cons_self, hx.occurs.1⟩
      · obtain ⟨entry, hmem, heq⟩ := ih hc
        exact ⟨entry, List.mem_cons_of_mem _ hmem, heq⟩

/-- Since places are distinct, the section of an entry is found again by its place. -/
theorem filter_index_eq {s : Score α} {settings : Settings α} {beatsPerBar : α}
    {entries : List ((Nat × String) × Nat)} {xs : List (Option (CompiledSection α))}
    (h : List.Forall₂ (s.CompilesTo settings beatsPerBar) entries xs)
    (hplaces : (entries.map (·.1.1)).Nodup) {entry : (Nat × String) × Nat}
    (hentry : entry ∈ entries) :
    ∃ x, s.CompilesTo settings beatsPerBar entry x ∧
      (xs.flatMap Option.toList).filter (·.occurrence.index = (entry.1.1 : Int)) = x.toList := by
  induction h with
  | nil => cases hentry
  | @cons first x rest xs hx hxs ih =>
      obtain ⟨hfirst, hrest⟩ := List.nodup_cons.1 hplaces
      rw [List.flatMap_cons, List.filter_append]
      rcases List.mem_cons.1 hentry with rfl | hmem
      · refine ⟨x, hx, ?_⟩
        have own : x.toList.filter (·.occurrence.index = (entry.1.1 : Int)) = x.toList := by
          refine List.filter_eq_self.2 fun c hc => ?_
          cases Option.mem_toList.1 hc
          exact decide_eq_true hx.occurs.1
        have others : (xs.flatMap Option.toList).filter
            (·.occurrence.index = (entry.1.1 : Int)) = [] := by
          refine List.filter_eq_nil_iff.2 fun c hc heq => ?_
          obtain ⟨other, hother, hindex⟩ := exists_entry_of_mem hxs hc
          have hplace : entry.1.1 = other.1.1 := by
            exact_mod_cast (of_decide_eq_true heq).symm.trans hindex
          exact hfirst (List.mem_map.2 ⟨other, hother, hplace.symm⟩)
        rw [own, others, List.append_nil]
      · obtain ⟨y, hy, hfilter⟩ := ih hrest hmem
        refine ⟨y, hy, ?_⟩
        have own : x.toList.filter (·.occurrence.index = (entry.1.1 : Int)) = [] := by
          refine List.filter_eq_nil_iff.2 fun c hc heq => ?_
          cases Option.mem_toList.1 hc
          have hplace : first.1.1 = entry.1.1 := by
            exact_mod_cast hx.occurs.1.symm.trans (of_decide_eq_true heq)
          exact hfirst (List.mem_map.2 ⟨entry, hmem, hplace.symm⟩)
        rw [own, hfilter, List.nil_append]

/-- The contribution of an entry is what it comes to. -/
theorem Score.playedAt_of_compile {s : Score α} {o : CompileOptions α} {c : Compilation α}
    (h : s.compile o = .ok c) {entry : (Nat × String) × Nat} (hentry : entry ∈ s.seeded o) :
    ∃ meter beatsPerBar x,
      TimeSignature.parse (α := α) (.text s.settings.timeSignature) = .ok meter ∧
      meter.beatsPerBar = .ok beatsPerBar ∧
      s.CompilesTo (s.effectiveSettings o) beatsPerBar entry x ∧
      c.playedAt entry.1.1 = x.toList.flatMap (·.played) := by
  obtain ⟨meter, beatsPerBar, xs, hmeter, hbeats, hxs, hsections, _⟩ := Score.compile_ok h
  have hplaces : ((s.seeded o).map (·.1.1)).Nodup := by
    have hmap : (s.seeded o).map (·.1.1) = ((s.seeded o).map (·.1)).map (·.1) := by
      rw [List.map_map]
      rfl
    rw [hmap, s.map_fst_seeded]
    exact s.nodup_selection o
  obtain ⟨x, hx, hfilter⟩ := filter_index_eq hxs hplaces hentry
  refine ⟨meter, beatsPerBar, x, hmeter, hbeats, hx, ?_⟩
  unfold Compilation.playedAt
  rw [hsections, hfilter]

omit [Scalar α] in
/-- The entry at a place of a whole arrangement, with a seed that depends on the place alone. -/
theorem Score.mem_seeded_whole {s : Score α} {o : CompileOptions α}
    (hstart : o.startSection = none) (hend : o.endSection = none) {i : Nat} {name : String}
    (h : s.arrangement[i]? = some name) {seed : Nat}
    (hseed : (nextSeeds (i + 1) (Twister.ofSeed o.seed))[i]? = some seed) :
    ((i, name), seed) ∈ s.seeded o := by
  obtain ⟨hi, hname⟩ := List.getElem?_eq_some_iff.1 h
  unfold Score.seeded
  rw [s.selection_whole hstart hend]
  generalize Twister.ofSeed o.seed = t at hseed ⊢
  have hlength : i < (s.arrangement.zipIdx.map Prod.swap).length := by
    simpa using hi
  rw [getElem?_nextSeeds (Nat.lt_succ_self i) hlength t] at hseed
  refine List.mem_iff_getElem?.2 ⟨i, ?_⟩
  rw [List.getElem?_zip_eq_some]
  refine ⟨?_, hseed⟩
  simp [h]

/-- **Entries do not disturb each other.** Let two scores agree in settings and patterns, and let the
entry at one place of both arrangements name the same section. If both compile with the same options
(and so from the same seed), the entry contributes the same notes to both, counted from the start of
its section: whatever the other entries and the other sections are, names of no section included. -/
theorem played_independent {s₁ s₂ : Score α} {o : CompileOptions α}
    (hstart : o.startSection = none) (hend : o.endSection = none)
    (hsettings : s₁.settings = s₂.settings) (hpatterns : s₁.patterns = s₂.patterns)
    {i : Nat} {name : String}
    (h₁ : s₁.arrangement[i]? = some name) (h₂ : s₂.arrangement[i]? = some name)
    (hsection : s₁.sections.lookup name = s₂.sections.lookup name)
    {c₁ c₂ : Compilation α} (hc₁ : s₁.compile o = .ok c₁) (hc₂ : s₂.compile o = .ok c₂) :
    c₁.playedAt i = c₂.playedAt i := by
  obtain ⟨seed, hseed⟩ : ∃ seed, (nextSeeds (i + 1) (Twister.ofSeed o.seed))[i]? = some seed :=
    ⟨_, List.getElem?_eq_getElem (by rw [length_nextSeeds]; exact Nat.lt_succ_self i)⟩
  obtain ⟨m₁, b₁, x₁, hm₁, hb₁, hx₁, hp₁⟩ :=
    Score.playedAt_of_compile hc₁ (Score.mem_seeded_whole hstart hend h₁ hseed)
  obtain ⟨m₂, b₂, x₂, hm₂, hb₂, hx₂, hp₂⟩ :=
    Score.playedAt_of_compile hc₂ (Score.mem_seeded_whole hstart hend h₂ hseed)
  -- The bars have the same length and the settings are the same, so the entries agree.
  have hmeter : m₁ = m₂ := by
    rw [hsettings] at hm₁
    exact Except.ok.inj (hm₁.symm.trans hm₂)
  subst hmeter
  have hbeats : b₁ = b₂ := Except.ok.inj (hb₁.symm.trans hb₂)
  subst hbeats
  have heffective : s₁.effectiveSettings o = s₂.effectiveSettings o := by
    unfold Score.effectiveSettings
    rw [hsettings]
  rw [heffective] at hx₁
  have hx : x₁ = x₂ := hx₁.unique hpatterns hsection hx₂
  rw [hp₁, hp₂, hx]

/-- A bar that is left to chance, in an arrangement. -/
def loose [Elementary] (arrangement : List String) : Score Rat :=
  { Score.simple [("piano", ["C4:q", "E4:q"])] 1 120 "C major" with
    sections :=
      [("main", { bars := 1, tracks := [("piano", { patterns := ["piano"], humanize := some 1 })] })]
    arrangement }

set_option maxRecDepth 10000 in
theorem loose_plays :
    letI := Elementary.coarse
    ((loose ["nowhere", "main"]).compile {}).toOption.any
      (fun c => (c.playedAt 1).map (·.pitch) = ["C4", "E4"]) = true := by
  decide +kernel

set_option maxRecDepth 10000 in
theorem loose_compiles :
    letI := Elementary.coarse
    ((loose ["main", "main", "main"]).compile {}).toOption.any (fun _ => true) = true := by
  decide +kernel

/-- The theorem at work: it makes no difference whether the entry before is a section. -/
theorem played_after_nowhere : ∃ _ : Elementary, ∃ c₁ c₂ : Compilation Rat,
    (loose ["nowhere", "main"]).compile {} = .ok c₁ ∧
      (loose ["main", "main", "main"]).compile {} = .ok c₂ ∧
      (c₁.playedAt 1).map (·.pitch) = ["C4", "E4"] ∧ c₁.playedAt 1 = c₂.playedAt 1 := by
  let _ := Elementary.coarse
  obtain ⟨c₁, h₁, hplayed⟩ := Outcome.exists_of_any loose_plays
  obtain ⟨c₂, h₂, _⟩ := Outcome.exists_of_any loose_compiles
  have hentry₁ : (loose ["nowhere", "main"]).arrangement[1]? = some "main" := rfl
  have hentry₂ : (loose ["main", "main", "main"]).arrangement[1]? = some "main" := rfl
  refine ⟨_, c₁, c₂, h₁, h₂, of_decide_eq_true hplayed, ?_⟩
  exact played_independent rfl rfl (by rfl) (by rfl) hentry₁ hentry₂ (by rfl) h₁ h₂

end Partitura

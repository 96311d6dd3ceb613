import Mathlib.Data.List.Basic
import Mathlib.Data.List.Infix
import Partitura.Number.Exact
import Partitura.Proofs.Score.Entries
import Partitura.Score.Analysis

/-!
# From the start to the end

A section may stand in an arrangement many times. From the first start there is a run of entries to
the end as soon as the end stands there or later (`Score.exists_spans_iff`). What is selected is the
part between the first start and the first end. So it is such a run only if these come in this order;
an end that is only found again after the start selects nothing (`Score.selection_spans_iff`).
-/

namespace Partitura

namespace Score

variable {α : Type} {s : Score α} {o : CompileOptions α} {first last : String}

/-- A run of entries, none of them left out in between, from a section to a section. -/
structure Spans (s : Score α) (first last : String) (run : List (Nat × String)) : Prop where
  consecutive : run <:+: s.entries
  begins : run.head?.map Prod.snd = some first
  ends : run.getLast?.map Prod.snd = some last

/-! ## §1  Runs of entries -/

/-- The first place of a section comes before all others. -/
theorem idxOf_le_of_getElem? {i : Nat} (h : s.arrangement[i]? = some first) :
    s.arrangement.idxOf first ≤ i := by
  have hmem : first ∈ s.arrangement.take (i + 1) := by
    refine List.mem_of_getElem? (i := i) ?_
    rw [List.getElem?_take_of_lt (Nat.lt_succ_self i), h]
  exact Nat.le_of_lt_succ ((List.mem_take_iff_idxOf_lt (List.mem_of_mem_take hmem)).1 hmem)

theorem spans_between {i j : Nat} (hij : i ≤ j) (hi : s.arrangement[i]? = some first)
    (hj : s.arrangement[j]? = some last) : s.Spans first last ((s.entries.take (j + 1)).drop i) := by
  have hlength : ¬ (s.entries.take (j + 1)).length ≤ i := by
    have hshort : j < s.entries.length := by
      obtain ⟨hshort, _⟩ := List.getElem?_eq_some_iff.1 hj
      unfold entries
      rwa [List.length_map, List.length_zipIdx]
    rw [List.length_take]
    omega
  refine ⟨(List.drop_suffix i _).isInfix.trans (List.take_prefix _ _).isInfix, ?_, ?_⟩
  · rw [List.head?_drop, List.getElem?_take_of_lt (Nat.lt_succ_of_le hij), getElem?_entries, hi]
    rfl
  · rw [List.getLast?_drop, if_neg hlength, List.getLast?_take, if_neg (Nat.succ_ne_zero j),
      Nat.add_sub_cancel, getElem?_entries, hj]
    rfl

/-- There is a run to the end exactly if the end stands at the first start or later. -/
theorem exists_spans_iff : (∃ run, s.Spans first last run) ↔
    ∃ i, s.arrangement.idxOf first ≤ i ∧ s.arrangement[i]? = some last := by
  constructor
  · rintro ⟨run, ⟨pre, post, hrun⟩, hbegins, hends⟩
    -- What stands in the run stands in the arrangement, behind all that comes before the run.
    have hname {i : Nat} {name : String} (h : run[i]?.map Prod.snd = some name) :
        s.arrangement[pre.length + i]? = some name := by
      obtain ⟨entry, hentry, rfl⟩ := Option.map_eq_some_iff.1 h
      obtain ⟨hi, _⟩ := List.getElem?_eq_some_iff.1 hentry
      have hplace : s.entries[pre.length + i]? = some entry := by
        rw [← hrun, List.append_assoc, List.getElem?_append_right (Nat.le_add_right _ _),
          Nat.add_sub_cancel_left, List.getElem?_append_left hi, hentry]
      rw [getElem?_entries] at hplace
      obtain ⟨name, hname, rfl⟩ := Option.map_eq_some_iff.1 hplace
      exact hname
    rw [List.head?_eq_getElem?] at hbegins
    rw [List.getLast?_eq_getElem?] at hends
    exact ⟨_, (idxOf_le_of_getElem? (hname hbegins)).trans (Nat.le_add_right _ _), hname hends⟩
  · rintro ⟨i, hi, hlast⟩
    obtain ⟨hshort, _⟩ := List.getElem?_eq_some_iff.1 hlast
    have hfirst := List.getElem?_idxOf (List.idxOf_lt_length_iff.1 (hi.trans_lt hshort))
    exact ⟨_, spans_between hi hfirst hlast⟩

/-! ## §2  What is selected -/

theorem firstPlace_of_mem {arrangement : List String} {name : String} (h : name ∈ arrangement)
    (found : Nat → Nat) (standard : Nat) :
    firstPlace arrangement (some name) found standard = found (arrangement.idxOf name) := by
  unfold firstPlace
  rw [List.idxOf_eq_getD_idxOf?, Option.bind_some]
  cases hplace : arrangement.idxOf? name with
  | none => exact absurd h (List.idxOf?_eq_none_iff.1 hplace)
  | some i => rfl

theorem selection_between (hstart : o.startSection = some first) (hend : o.endSection = some last)
    (hfirst : first ∈ s.arrangement) (hlast : last ∈ s.arrangement) :
    s.selection o =
      (s.entries.take (s.arrangement.idxOf last + 1)).drop (s.arrangement.idxOf first) := by
  unfold selection
  rw [hstart, hend, firstPlace_of_mem hfirst, firstPlace_of_mem hlast]
  rfl

/-- **A selection reaches from its start to its end exactly if the first end does not come before the
first start.** In the other case nothing is selected, also if the end stands again after the start and
there is a run of entries from the one to the other. -/
theorem selection_spans_iff (hstart : o.startSection = some first) (hend : o.endSection = some last)
    (hfirst : first ∈ s.arrangement) (hlast : last ∈ s.arrangement) :
    (s.Spans first last (s.selection o) ↔
      s.arrangement.idxOf first ≤ s.arrangement.idxOf last) ∧
    (s.arrangement.idxOf last < s.arrangement.idxOf first → s.selection o = []) ∧
    ((∃ run, s.Spans first last run) ↔
      ∃ i, s.arrangement.idxOf first ≤ i ∧ s.arrangement[i]? = some last) := by
  have hnone (hback : s.arrangement.idxOf last < s.arrangement.idxOf first) : s.selection o = [] := by
    rw [selection_between hstart hend hfirst hlast]
    exact List.drop_eq_nil_of_le ((List.length_take_le _ _).trans hback)
  refine ⟨⟨fun hspans => ?_, fun hforth => ?_⟩, hnone, exists_spans_iff⟩
  · by_contra hback
    have hbegins := hspans.begins
    rw [hnone (not_le.1 hback)] at hbegins
    cases hbegins
  · rw [selection_between hstart hend hfirst hlast]
    exact spans_between hforth (List.getElem?_idxOf hfirst) (List.getElem?_idxOf hlast)

end Score

/-- A chorus comes before the verse and after it. -/
def chorusVerseChorus [Elementary] : Score Rat :=
  { Score.simple [("piano", ["C4:q", "E4:q"])] 1 120 "C major" with
    arrangement := ["chorus", "verse", "chorus"] }

/-- The theorem at work: from the chorus to the verse. -/
theorem chorusVerseChorus_spans : ∃ _ : Elementary, ∃ o : CompileOptions Rat,
    o.startSection = some "chorus" ∧ o.endSection = some "verse" ∧
    "chorus" ∈ chorusVerseChorus.arrangement ∧ "verse" ∈ chorusVerseChorus.arrangement ∧
      chorusVerseChorus.selection o = [(0, "chorus"), (1, "verse")] ∧
      chorusVerseChorus.Spans "chorus" "verse" (chorusVerseChorus.selection o) := by
  let _ : Elementary := .coarse
  let o : CompileOptions Rat := { startSection := some "chorus", endSection := some "verse" }
  have hchorus : "chorus" ∈ chorusVerseChorus.arrangement := by decide
  have hverse : "verse" ∈ chorusVerseChorus.arrangement := by decide
  have hforth : chorusVerseChorus.arrangement.idxOf "chorus" ≤
      chorusVerseChorus.arrangement.idxOf "verse" := by decide
  exact ⟨.coarse, o, rfl, rfl, hchorus, hverse, by decide,
    (Score.selection_spans_iff (o := o) rfl rfl hchorus hverse).1.2 hforth⟩

/-- From the verse to the chorus nothing is selected, although the last two entries are such a run. -/
theorem verse_to_chorus_nothing : ∃ _ : Elementary, ∃ o : CompileOptions Rat,
    o.startSection = some "verse" ∧ o.endSection = some "chorus" ∧
      chorusVerseChorus.Spans "verse" "chorus" [(1, "verse"), (2, "chorus")] ∧
      chorusVerseChorus.selection o = [] := by
  let _ : Elementary := .coarse
  exact ⟨.coarse, { startSection := some "verse", endSection := some "chorus" }, rfl, rfl,
    Score.spans_between (i := 1) (j := 2) (by decide) rfl rfl, by decide⟩

end Partitura

import Partitura.Markov.Preset
import Partitura.Proofs.Ordered
import Partitura.Proofs.Random.Choices

/-!
# Tables that can be walked

A walk over a table whose weights are numbers never stops (`Table.stops_walk`). The tables of the
presets are of this kind (`Preset.table_ok`), and so is every row that has been looked at
(`Row.numbered_of_problems`).
-/

namespace Partitura

namespace Markov

variable [Elementary] {P : Fault → Prop}

/-! ## §1  Rows -/

namespace Row

omit [Elementary] in
theorem unusable_not_mem {r : Row Rat} : .unusable ∉ weights r ↔ Numbered r := by
  unfold weights Numbered
  simp only [List.mem_map, not_exists, not_and, ne_eq]

theorem normalize_ok {r : Row Rat} (h : Numbered r) :
    ∃ r', normalize r = .ok r' ∧ Numbered r' := by
  obtain ⟨shares, hshares⟩ := Weight.shares_ok (unusable_not_mem.2 h)
  unfold normalize
  rw [hshares]
  refine ⟨_, rfl, fun option hmem => ?_⟩
  obtain ⟨x, _, hx⟩ := List.mem_map.1 (List.of_mem_zip (a := option.1) (b := option.2) hmem).2
  rw [← hx]
  exact nofun

theorem stops_problems {r : Row Rat} (states : List String) (state : String)
    (hkind : ¬ Numbered r → P .wrongKind) : Outcome.StopsWith P (problems states state r) := by
  have hsum : Outcome.StopsWith P (Weight.sum (weights r)) :=
    Weight.stops_sum fun hmem => hkind fun hr => unusable_not_mem.2 hr hmem
  refine hsum.bind_of_ok fun total htotal => ?_
  exact (Outcome.StopsWith.of_ok (Weight.toScalar_ok (Weight.number_of_sum htotal).1)).bind
    fun _ => .ok _

/-- A row that has been looked at holds numbers. -/
theorem numbered_of_problems {r : Row Rat} {states : List String} {state : String}
    {found : List String} (h : problems states state r = .ok found) : Numbered r := by
  obtain ⟨total, htotal, _⟩ := Outcome.bind_ok h
  exact unusable_not_mem.1 (Weight.number_of_sum htotal).2

end Row

/-! ## §2  Tables -/

namespace Table

/-- All weights are numbers. -/
def Numbered (t : Table Rat) : Prop :=
  ∀ row ∈ t, Partitura.Numbered row.2

theorem normalize_ok {t : Table Rat} (h : t.Numbered) :
    ∃ t', t.normalize = .ok t' ∧ t'.Numbered := by
  have hrow : ∀ row ∈ t, ∃ row' : String × Row Rat,
      (do return (row.1, ← Row.normalize row.2) : Outcome _) = .ok row' := fun row hmem => by
    obtain ⟨r', hr', _⟩ := Row.normalize_ok (h row hmem)
    rw [hr']
    exact ⟨_, rfl⟩
  obtain ⟨t', ht'⟩ := Outcome.exists_mapM hrow
  refine ⟨t', ht', fun row' hmem => ?_⟩
  obtain ⟨row, hrow, hrow'⟩ := exists_of_mem_right (Outcome.mapM_ok ht') hmem
  obtain ⟨r', hr', hnumbered⟩ := Row.normalize_ok (h row hrow)
  rw [hr'] at hrow'
  cases hrow'
  exact hnumbered

theorem stops_steps {t : Table Rat} (h : t.Numbered) (state : String) (count : Nat) :
    Draw.StopsWith P (t.steps state count) := by
  have hstep (state : String) : Draw.StopsWith P (t.step state) := by
    unfold step
    split
    · next row hrow =>
        exact Draw.stops_weighted (List.cons_ne_nil _ _) (h _ (mem_of_lookup hrow))
    · exact .pure _
  induction count generalizing state with
  | zero => exact .pure _
  | succ count ih => exact (hstep state).bind fun next => (ih next).bind fun _ => .pure _

/-- **A walk over numbers never stops.** -/
theorem stops_walk {t : Table Rat} (h : t.Numbered) (state : String) (length : Int) :
    Draw.StopsWith P (t.walk state length) := by
  unfold walk
  split
  · exact .pure _
  · exact (stops_steps h state _).bind fun _ => .pure _

end Table

/-! ## §3  Presets -/

namespace Preset

omit [Elementary] in
theorem numbered_tableOf (states : List String) (weight : Place → Place → Rat) :
    (tableOf states weight).Numbered := by
  refine Ordered.forall_ofPairs fun row hrow => ?_
  obtain ⟨p, _, rfl⟩ := List.mem_map.1 hrow
  refine Ordered.forall_ofPairs (P := fun w : Weight Rat => w ≠ .unusable) fun option hoption => ?_
  obtain ⟨q, _, rfl⟩ := List.mem_map.1 hoption
  exact nofun

theorem table_ok (states : List String) (p : Preset) :
    ∃ t : Table Rat, p.table states = .ok t ∧ t.Numbered := by
  cases p with
  | uniform => exact ⟨_, rfl, numbered_tableOf _ _⟩
  | neighborWeighted | walkingBass | melodyStepwise | rootHeavy =>
      exact Table.normalize_ok (numbered_tableOf _ _)

end Preset

end Markov

end Partitura

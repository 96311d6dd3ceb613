import Mathlib.Algebra.BigOperators.Ring.List
import Mathlib.Algebra.Order.BigOperators.Group.List
import Mathlib.Tactic.Positivity
import Partitura.Proofs.Markov.Tables
import Partitura.Proofs.Random.Parts

/-!
# What the presets weigh

The table of a preset has one row for each state and one target for each state in each row, however
often a state is listed. Each pair of states gets a weight above zero, so every row weighs something
and can be scaled to weigh 1 (`Table.Over.normalize`). All presets are scaled in this way but the even
one, which divides 1 by the number of places in the list: where a state is listed twice its rows weigh
less than 1 (`Preset.adds_up_iff`).
-/

namespace Partitura

namespace Markov

variable {states : List String}

/-! ## §1  Rows that weigh something -/

namespace Row

variable {r : Row Rat}

/-- A row with every state as a target, none of them out of reach. -/
structure Over (states : List String) (r : Row Rat) : Prop where
  targets : Ordered.FirstAppearances states (r.map Prod.fst)
  positive : ∀ option ∈ r, 0 < option.2.number

/-- A row whose weights are divided by what they weigh together. -/
def scaled (r : Row Rat) : Row Rat :=
  r.map fun option => (option.1, .real (option.2.number / weightOf r))

theorem keys_scaled (r : Row Rat) : r.scaled.map Prod.fst = r.map Prod.fst := by
  unfold scaled
  rw [List.map_map]
  rfl

theorem weightOf_scaled (h : weightOf r ≠ 0) : weightOf r.scaled = 1 := by
  have hparts : r.scaled.map (fun option => option.2.number) =
      r.map fun option => option.2.number * (weightOf r)⁻¹ := by
    unfold scaled
    rw [List.map_map]
    exact List.map_congr_left fun option _ => div_eq_mul_inv _ _
  calc weightOf r.scaled
      = (r.map fun option => option.2.number * (weightOf r)⁻¹).sum := congrArg List.sum hparts
    _ = weightOf r * (weightOf r)⁻¹ := List.sum_map_mul_right ..
    _ = 1 := mul_inv_cancel₀ h

theorem normalize_eq [Elementary] (hnumbered : Partitura.Numbered r) (h : weightOf r ≠ 0) :
    r.normalize = .ok r.scaled := by
  have htotal : (r.weights.map Weight.number).sum = weightOf r := by
    unfold weights weightOf
    rw [List.map_map]
    rfl
  unfold normalize
  rw [Weight.shares_eq (unusable_not_mem.2 hnumbered) (htotal.trans_ne h), htotal, Outcome.ok_bind]
  unfold weights scaled
  rw [List.map_map, List.map_map, List.zip_map']
  rfl

namespace Over

theorem numbered (h : Over states r) : Partitura.Numbered r := fun option hoption hw => by
  have hpos := h.positive option hoption
  rw [hw] at hpos
  exact lt_irrefl _ hpos

theorem weightOf_pos (hsome : states ≠ []) (h : Over states r) : 0 < weightOf r := by
  obtain ⟨state, hstate⟩ := List.exists_mem_of_ne_nil states hsome
  obtain ⟨option, hoption, _⟩ := List.mem_map.1 ((h.targets.mem_iff state).2 hstate)
  refine List.sum_pos _ (fun x hx => ?_) fun hnone => ?_
  · obtain ⟨option, hoption, rfl⟩ := List.mem_map.1 hx
    exact h.positive option hoption
  · rw [List.map_eq_nil_iff] at hnone
    exact List.ne_nil_of_mem hoption hnone

theorem scaled (hsome : states ≠ []) (h : Over states r) : Over states r.scaled := by
  refine ⟨?_, fun option hoption => ?_⟩
  · rw [keys_scaled]
    exact h.targets
  · obtain ⟨unscaled, hunscaled, rfl⟩ := List.mem_map.1 hoption
    exact div_pos (h.positive unscaled hunscaled) (h.weightOf_pos hsome)

end Over

end Row

/-! ## §2  Tables over a list of states -/

namespace Table

variable {t : Table Rat}

/-- A table with a row for every state, each of them over all states. -/
structure Over (states : List String) (t : Table Rat) : Prop where
  rows : Ordered.FirstAppearances states (t.map Prod.fst)
  each : ∀ row ∈ t, Row.Over states row.2

/-- Scaling makes every row weigh 1 and changes no state and no target. -/
theorem Over.normalize [Elementary] (hsome : states ≠ []) (h : t.Over states) :
    ∃ t', t.normalize = .ok t' ∧ t'.Over states ∧ ∀ row ∈ t', weightOf row.2 = 1 := by
  refine ⟨t.map fun row => (row.1, row.2.scaled), ?_, ⟨?_, fun row hrow => ?_⟩, fun row hrow => ?_⟩
  · refine Outcome.mapM_eq_map ?_
    rintro ⟨state, r⟩ hrow
    have hover : Row.Over states r := h.each _ hrow
    change (r.normalize >>= fun r' => pure (state, r')) = _
    rw [Row.normalize_eq hover.numbered (hover.weightOf_pos hsome).ne']
    rfl
  · rw [List.map_map]
    exact h.rows
  · obtain ⟨unscaled, hunscaled, rfl⟩ := List.mem_map.1 hrow
    exact (h.each unscaled hunscaled).scaled hsome
  · obtain ⟨unscaled, hunscaled, rfl⟩ := List.mem_map.1 hrow
    exact Row.weightOf_scaled ((h.each unscaled hunscaled).weightOf_pos hsome).ne'

end Table

namespace Preset

variable {weight : Place → Place → Rat}

theorem firstAppearances_ofPairs {β : Type} (states : List String) (value : Place → β) :
    Ordered.FirstAppearances states
      ((Ordered.ofPairs (states.zipIdx.map fun p => (p.1, value p))).map Prod.fst) := by
  have hkeys : (states.zipIdx.map fun p => (p.1, value p)).map Prod.fst = states := by
    rw [List.map_map]
    exact List.zipIdx_map_fst 0 states
  rw [Ordered.keys_ofPairs, hkeys]
  exact Ordered.firstAppearances_distinct states

/-- All rows of a preset are made alike: each has every state as a target, with a weight that the
preset gives to a pair of places. -/
theorem forall_tableOf (states : List String) (weight : Place → Place → Rat) :
    ∀ row ∈ tableOf states weight, Ordered.FirstAppearances states (row.2.map Prod.fst) ∧
      ∀ option ∈ row.2, ∃ p q, option.2 = .real (weight p q) := by
  refine Ordered.forall_ofPairs (P := fun r : Row Rat =>
    Ordered.FirstAppearances states (r.map Prod.fst) ∧
      ∀ option ∈ r, ∃ p q, option.2 = .real (weight p q)) fun row hrow => ?_
  obtain ⟨p, _, rfl⟩ := List.mem_map.1 hrow
  refine ⟨firstAppearances_ofPairs states _, ?_⟩
  refine Ordered.forall_ofPairs (P := fun w : Weight Rat => ∃ p q, w = .real (weight p q))
    fun option hoption => ?_
  obtain ⟨q, _, rfl⟩ := List.mem_map.1 hoption
  exact ⟨p, q, rfl⟩

theorem over_tableOf (states : List String) (hweight : ∀ p q, 0 < weight p q) :
    (tableOf states weight).Over states := by
  refine ⟨firstAppearances_ofPairs states _, fun row hrow => ?_⟩
  obtain ⟨htargets, hweights⟩ := forall_tableOf states weight row hrow
  refine ⟨htargets, fun option hoption => ?_⟩
  obtain ⟨p, q, hw⟩ := hweights option hoption
  rw [hw]
  exact hweight p q

theorem weightOf_even {c : Rat} {row : String × Row Rat} (hrow : row ∈ tableOf states fun _ _ => c) :
    weightOf row.2 = (Ordered.distinct states).length * c := by
  obtain ⟨htargets, hweights⟩ := forall_tableOf states (fun _ _ => c) row hrow
  have hall : ∀ x ∈ row.2.map fun option => option.2.number, x = c := fun x hx => by
    obtain ⟨option, hoption, rfl⟩ := List.mem_map.1 hx
    obtain ⟨_, _, hw⟩ := hweights option hoption
    exact congrArg Weight.number hw
  have hlength : row.2.length = (Ordered.distinct states).length := by
    rw [← List.length_map Prod.fst]
    exact (htargets.perm (Ordered.firstAppearances_distinct states)).length_eq
  unfold weightOf
  rw [List.sum_eq_card_nsmul _ c hall, List.length_map, hlength, nsmul_eq_mul]

/-! ## §3  Weights above zero -/

variable [Elementary]

theorem share_pos {x : Rat} (hx : 0 < x) (n : Nat) : 0 < share x n := by
  have hn : (0 : Rat) < Scalar.ofNat (max 1 n) := Nat.cast_pos.2 (by omega)
  exact div_pos hx hn

theorem nearWeight_pos (p q : Place) : (0 : Rat) < nearWeight p q := by
  unfold nearWeight
  rw [Exact.ofNat_eq]
  positivity

theorem bassWeight_pos (states : List String) (p q : Place) : (0 : Rat) < bassWeight states p q := by
  have hbase := share_pos (x := 0.85) (by norm_num) (countOthers states ["1", rest])
  dsimp only [bassWeight]
  split_ifs <;> first | exact share_pos (by norm_num) _ | positivity

theorem stepWeight_pos (p q : Place) : (0 : Rat) < stepWeight p q := by
  unfold stepWeight
  rcases distance p q with _ | _ | _ | d
  · exact (by norm_num : (0 : Rat) < 0.05)
  · exact (by norm_num : (0 : Rat) < 0.35)
  · exact (by norm_num : (0 : Rat) < 0.15)
  · exact div_pos (by norm_num : (0 : Rat) < 0.05) (Nat.cast_pos.2 (Nat.succ_pos (d + 2)))

theorem rootWeight_pos (states : List String) (p q : Place) : (0 : Rat) < rootWeight states p q := by
  dsimp only [rootWeight]
  split_ifs <;> first | exact share_pos (by norm_num) _ | positivity

theorem evenWeight_pos (hsome : states ≠ []) : (0 : Rat) < evenWeight states := by
  have hlength : 0 < states.length := List.length_pos_iff.2 hsome
  unfold evenWeight
  rw [Exact.ofNat_eq]
  positivity

/-! ## §4  What adds up -/

omit [Elementary] in
theorem ofName?_name (p : Preset) : ofName? p.name = some p := by
  cases p <;> rfl

theorem tableOfName_eq (hsome : states ≠ []) (p : Preset) :
    (tableOfName p.name states : Outcome (Table Rat)) = p.table states := by
  unfold tableOfName
  rw [ofName?_name, if_neg (by rwa [List.isEmpty_iff])]

theorem weightOf_evenWeight {row : String × Row Rat}
    (hrow : row ∈ tableOf states fun _ _ => evenWeight states) :
    weightOf row.2 = (Ordered.distinct states).length / states.length := by
  have hone : (1.0 : Rat) = 1 := by norm_num
  rw [weightOf_even hrow]
  change ((Ordered.distinct states).length : Rat) * (1.0 / states.length) = _
  rw [hone, mul_one_div]

/-- The rows of the even preset weigh 1 as long as no state is listed twice. -/
theorem even_adds_up_iff (hsome : states ≠ []) :
    (∀ row ∈ tableOf states fun _ _ => (evenWeight states : Rat), weightOf row.2 = 1) ↔
      states.Nodup := by
  have hplaces : (states.length : Rat) ≠ 0 :=
    Nat.cast_ne_zero.2 (List.length_pos_iff.2 hsome).ne'
  rw [← Ordered.length_distinct_eq_iff]
  constructor
  · intro hall
    obtain ⟨state, hstate⟩ := List.exists_mem_of_ne_nil states hsome
    have hover := over_tableOf states fun _ _ => evenWeight_pos hsome
    obtain ⟨row, hrow, _⟩ := List.mem_map.1 ((hover.rows.mem_iff state).2 hstate)
    have hone := hall row hrow
    rw [weightOf_evenWeight hrow, div_eq_one_iff_eq hplaces] at hone
    exact Nat.cast_injective hone
  · intro hlength row hrow
    rw [weightOf_evenWeight hrow, hlength, div_self hplaces]

/-- All presets but the even one are scaled, from weights above zero. -/
theorem exists_weight (p : Preset) (hp : p ≠ .uniform) (states : List String) :
    ∃ weight : Place → Place → Rat, (∀ q q', 0 < weight q q') ∧
      p.table states = (tableOf states weight).normalize := by
  cases p with
  | uniform => exact absurd rfl hp
  | neighborWeighted => exact ⟨nearWeight, nearWeight_pos, rfl⟩
  | walkingBass => exact ⟨bassWeight states, bassWeight_pos states, rfl⟩
  | melodyStepwise => exact ⟨stepWeight, stepWeight_pos, rfl⟩
  | rootHeavy => exact ⟨rootWeight states, rootWeight_pos states, rfl⟩

/-- **Rows add up to 1, unless they are even ones over states that are listed twice.** For every list
of states that is not empty every preset has a table with one row for each state, and in each row one
target for each state, with a weight above zero. All presets but the even one scale their rows; the
rows of the even one weigh as many parts of 1 as there are states, of as many as there are places in
the list. -/
theorem adds_up_iff (hsome : states ≠ []) (p : Preset) :
    ∃ t : Table Rat, tableOfName p.name states = .ok t ∧ t.Over states ∧
      (p = .uniform → ∀ row ∈ t,
        weightOf row.2 = (Ordered.distinct states).length / states.length) ∧
      ((∀ row ∈ t, weightOf row.2 = 1) ↔ p ≠ .uniform ∨ states.Nodup) := by
  by_cases hp : p = .uniform
  · subst hp
    refine ⟨tableOf states fun _ _ => evenWeight states, tableOfName_eq hsome _,
      over_tableOf states fun _ _ => evenWeight_pos hsome, fun _ row hrow => weightOf_evenWeight hrow, ?_⟩
    rw [even_adds_up_iff hsome]
    exact ⟨.inr, fun h => h.resolve_left fun hne => hne rfl⟩
  · obtain ⟨weight, hweight, htable⟩ := exists_weight p hp states
    obtain ⟨t, ht, hover, hone⟩ := (over_tableOf states hweight).normalize hsome
    refine ⟨t, ?_, hover, fun h => absurd h hp, iff_of_true hone (.inl hp)⟩
    rw [tableOfName_eq hsome, htable, ht]

omit [Elementary] in
/-- The theorem at work: one state of a triad is listed twice, and the rows are scaled to 1 all the
same. -/
theorem triad_adds_up : ∃ _ : Elementary, ["1", "3", "5", "1"] ≠ [] ∧ ∃ t : Table Rat,
    tableOfName "walking_bass" ["1", "3", "5", "1"] = .ok t ∧ t.Over ["1", "3", "5", "1"] ∧
      t.map Prod.fst = ["1", "3", "5"] ∧ ∀ row ∈ t, weightOf row.2 = 1 := by
  let _ : Elementary := .coarse
  have hsome : ["1", "3", "5", "1"] ≠ [] := List.cons_ne_nil _ _
  obtain ⟨t, ht, hover, _, hone⟩ := adds_up_iff hsome .walkingBass
  change tableOfName "walking_bass" _ = _ at ht
  have hrows : (tableOfName "walking_bass" ["1", "3", "5", "1"] : Outcome (Table Rat)).map
      (·.map Prod.fst) = .ok ["1", "3", "5"] := by
    decide +kernel
  rw [ht] at hrows
  exact ⟨.coarse, hsome, t, ht, hover, Except.ok.inj hrows, hone.2 (.inl (by decide))⟩

omit [Elementary] in
/-- One state, listed twice: its row leads back to it with one half only. -/
theorem even_twice_one_half : ∃ _ : Elementary, ∃ t : Table Rat,
    tableOfName "uniform" ["1", "1"] = .ok t ∧ t = [("1", [("1", .real (1 / 2))])] ∧
      ¬ ∀ row ∈ t, weightOf row.2 = 1 := by
  let _ : Elementary := .coarse
  refine ⟨.coarse, [("1", [("1", .real (1 / 2))])], ?_, rfl, fun hall => ?_⟩
  · have hhalf : (evenWeight ["1", "1"] : Rat) = 1 / 2 := by decide +kernel
    change Except.ok (tableOf ["1", "1"] fun _ _ => evenWeight ["1", "1"]) = _
    rw [hhalf]
    rfl
  · have hone := hall _ List.mem_cons_self
    norm_num [weightOf, Weight.number] at hone

end Preset

end Markov

end Partitura

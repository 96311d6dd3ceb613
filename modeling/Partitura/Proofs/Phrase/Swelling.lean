import Mathlib.Tactic.FieldSimp
import Mathlib.Tactic.Linarith
import Mathlib.Tactic.NormNum
import Mathlib.Tactic.Ring
import Partitura.Proofs.Phrase.Finish

/-!
# Crescendo and diminuendo

Both go in even steps between the soft end and the loud end of a shape, so each is the other one
backwards, and all velocities lie between the two ends (§1). Which end is which is another matter: the
soft end is held above a floor and the loud end below a ceiling, and the floor does not know of the loud
end. For a base below a twelfth it lies above it (§2).

So a crescendo never falls, and a diminuendo never rises, exactly if the base is at least a twelfth or
there are no two notes (`crescendo_rises_iff`). Neither loses a note.
-/

namespace Partitura.Envelope

/-! ## §1  Ramps -/

/-- Even steps from one level to another. -/
def ramp (start finish : Rat) (count : Nat) : List Rat :=
  (List.range count).map fun (i : Nat) => start + i / (count - 1 : Rat) * (finish - start)

theorem length_ramp (start finish : Rat) (count : Nat) : (ramp start finish count).length = count := by
  simp [ramp]

theorem ramp_reverse (start finish : Rat) {count : Nat} (h : 2 ≤ count) :
    (ramp start finish count).reverse = ramp finish start count := by
  apply List.ext_getElem
  · simp [ramp]
  · intro i hi hi'
    rw [length_ramp] at hi'
    have hcount : (count - 1 : Rat) ≠ 0 := by
      have h2 : (2 : Rat) ≤ count := by exact_mod_cast h
      linarith
    have hback : ((count - 1 - i : Nat) : Rat) = count - 1 - i := by
      rw [Nat.cast_sub (by omega), Nat.cast_sub (by omega), Nat.cast_one]
    simp only [ramp, List.getElem_reverse, List.getElem_map, List.getElem_range, List.length_map,
      List.length_range, hback]
    field_simp
    ring

/-- A step of a ramp lies between its ends. -/
theorem part_bounds {count i : Nat} (h : i < count) :
    0 ≤ (i / (count - 1 : Rat)) ∧ (i / (count - 1 : Rat)) ≤ 1 := by
  have hi : (i : Rat) + 1 ≤ count := by exact_mod_cast h
  have hcount : (0 : Rat) ≤ count - 1 := by
    have hpos : (0 : Rat) ≤ i := Nat.cast_nonneg i
    linarith
  constructor
  · exact div_nonneg (Nat.cast_nonneg i) hcount
  · exact div_le_one_of_le₀ (by linarith) hcount

theorem mem_ramp {start finish low high v : Rat} {count : Nat} (hstart : low ≤ start ∧ start ≤ high)
    (hfinish : low ≤ finish ∧ finish ≤ high) (h : v ∈ ramp start finish count) : low ≤ v ∧ v ≤ high := by
  obtain ⟨i, hi, rfl⟩ := List.mem_map.1 h
  obtain ⟨h0, h1⟩ := part_bounds (List.mem_range.1 hi)
  constructor <;> nlinarith

/-- Steps lead up exactly if the end lies above the start. -/
theorem ramp_rises_iff (start finish : Rat) {count : Nat} (h : 2 ≤ count) :
    (ramp start finish count).Pairwise (· ≤ ·) ↔ start ≤ finish := by
  have hcount : (0 : Rat) < count - 1 := by
    have h2 : (2 : Rat) ≤ count := by exact_mod_cast h
    linarith
  unfold ramp
  rw [List.pairwise_map]
  constructor
  · intro hrises
    -- The first two steps tell the direction.
    have hpair := List.pairwise_iff_getElem.1 hrises 0 1 (by simp; omega) (by simp; omega) Nat.one_pos
    rw [List.getElem_range, List.getElem_range] at hpair
    have hstep : 0 ≤ (1 : Rat) / (count - 1 : Rat) * (finish - start) := by
      rw [Nat.cast_zero, Nat.cast_one, zero_div, zero_mul, add_zero] at hpair
      linarith
    have hpos : 0 < (1 : Rat) / (count - 1 : Rat) := by positivity
    exact sub_nonneg.1 (nonneg_of_mul_nonneg_right hstep hpos)
  · intro hle
    refine List.pairwise_lt_range.imp fun {i j} hij => ?_
    have hparts : (i : Rat) / (count - 1 : Rat) ≤ j / (count - 1 : Rat) := by
      have hij' : (i : Rat) ≤ j := by exact_mod_cast hij.le
      gcongr
    have hgap : 0 ≤ finish - start := sub_nonneg.2 hle
    nlinarith

/-! ## §2  The two ends -/

section

variable [Elementary] {base : Rat}

theorem low_eq (base : Rat) : low base = max (1 / 10) (base * (3 / 10)) := by
  unfold low
  rw [Exact.max_eq]
  norm_num

theorem high_eq (base : Rat) : high base = min 1 (base * (6 / 5)) := by
  unfold high
  rw [Exact.min_eq]
  norm_num

theorem low_bounds (h1 : base ≤ 1) : 0 ≤ low base ∧ low base ≤ 1 := by
  rw [low_eq]
  constructor
  · exact le_max_of_le_left (by norm_num)
  · exact max_le (by norm_num) (by linarith)

theorem high_bounds (h0 : 0 ≤ base) : 0 ≤ high base ∧ high base ≤ 1 := by
  rw [high_eq]
  constructor
  · exact le_min (by norm_num) (by linarith)
  · exact min_le_left _ _

/-- The floor of the soft end lies above the loud end if the base is less than a twelfth. -/
theorem low_le_high_iff (h1 : base ≤ 1) : low base ≤ high base ↔ 1 / 12 ≤ base := by
  rw [low_eq, high_eq, max_le_iff, le_min_iff, le_min_iff]
  constructor
  · rintro ⟨⟨-, hfloor⟩, -⟩
    linarith
  · intro hbase
    exact ⟨⟨by norm_num, by linarith⟩, by linarith, by linarith⟩

/-! ## §3  The two shapes -/

/-- A single note keeps the base. -/
theorem velocities_of_le_one (s : Shape) (base : Rat) {count : Nat} (h : count ≤ 1) :
    s.velocities count base = .ok (List.replicate count base) := by
  unfold Shape.velocities
  rcases Nat.le_one_iff_eq_zero_or_eq_one.1 h with rfl | rfl <;> rfl

theorem crescendo_velocities (base : Rat) {count : Nat} (h : 2 ≤ count) :
    Shape.crescendo.velocities count base = .ok (ramp (low base) (high base) count) := by
  unfold Shape.velocities
  rw [if_neg (by omega), if_neg (by omega)]
  simp [Shape.over, ramp]

theorem diminuendo_velocities (base : Rat) {count : Nat} (h : 2 ≤ count) :
    Shape.diminuendo.velocities count base = .ok (ramp (low base) (high base) count).reverse := by
  unfold Shape.velocities
  rw [if_neg (by omega), if_neg (by omega), ramp_reverse _ _ h]
  refine congrArg Except.ok (List.map_congr_left fun i _ => ?_)
  simp only [Exact.ofNat_eq, Exact.ofInt_eq]
  push_cast
  ring

/-- The velocities of a crescendo; those of a diminuendo are the same from the last to the first. -/
def crescendo (base : Rat) (count : Nat) : List Rat :=
  if count ≤ 1 then List.replicate count base else ramp (low base) (high base) count

theorem length_crescendo (base : Rat) (count : Nat) : (crescendo base count).length = count := by
  unfold crescendo
  split
  · exact List.length_replicate
  · exact length_ramp _ _ _

theorem velocities_crescendo (base : Rat) (count : Nat) :
    Shape.crescendo.velocities count base = .ok (crescendo base count) ∧
      Shape.diminuendo.velocities count base = .ok (crescendo base count).reverse := by
  unfold crescendo
  split
  · next h =>
      rw [List.reverse_replicate]
      exact ⟨velocities_of_le_one _ base h, velocities_of_le_one _ base h⟩
  · next h =>
      have htwo : 2 ≤ count := Nat.lt_of_not_le h
      exact ⟨crescendo_velocities base htwo, diminuendo_velocities base htwo⟩

theorem mem_crescendo (h0 : 0 ≤ base) (h1 : base ≤ 1) {count : Nat} :
    ∀ v ∈ crescendo base count, 0 ≤ v ∧ v ≤ 1 := by
  unfold crescendo
  split
  · intro v hv
    rw [List.eq_of_mem_replicate hv]
    exact ⟨h0, h1⟩
  · intro v hv
    exact mem_ramp (low_bounds h1) (high_bounds h0) hv

theorem crescendo_pairwise_iff (h1 : base ≤ 1) (count : Nat) :
    (crescendo base count).Pairwise (· ≤ ·) ↔ count ≤ 1 ∨ 1 / 12 ≤ base := by
  unfold crescendo
  split
  · next h =>
      simp [h]
  · next h =>
      rw [ramp_rises_iff _ _ (Nat.lt_of_not_le h), low_le_high_iff h1]
      simp [h]

/-! ## §4  Shaped notes -/

/-- Notes that are given velocities and are changed in nothing else. -/
def Reshaped (notes : List (Note Rat)) (vs : List Rat) (shaped : List (Note Rat)) : Prop :=
  List.Forall₂ (fun n n' => ∃ v, n' = { n with velocity := v }) notes shaped ∧
    shaped.map (·.velocity) = vs

omit [Elementary] in
theorem reshaped_withVelocities {notes : List (Note Rat)} {vs : List Rat}
    (h : vs.length = notes.length) : Reshaped notes vs (withVelocities notes vs) := by
  refine ⟨forall₂_withVelocities h, ?_⟩
  have hzip : (notes.zip vs).map Prod.snd = vs := List.map_snd_zip h.le
  rw [List.zip, List.map_zipWith] at hzip
  rw [withVelocities, List.map_zipWith]
  exact hzip

theorem apply_named {name : String} {s : Shape} (hname : Shape.ofName? name = some s)
    {notes : List (Note Rat)} {vs : List Rat} (h : s.velocities notes.length base = .ok vs)
    (session : Session) :
    (named name).apply notes base session = .ok (withVelocities notes vs, session) := by
  unfold Envelope.apply
  split
  · next hempty =>
      rw [List.isEmpty_iff.1 hempty]
      rfl
  · dsimp only
    rw [hname]
    dsimp only
    rw [h]
    rfl

/-- **A crescendo rises exactly if its base is not too soft.** For a base between 0 and 1 and any number of
notes, it has one velocity for each of them, all between 0 and 1, and a diminuendo has the same from the
last to the first. Applied to as many notes, both keep every note and change nothing but velocities. The
crescendo never falls if there are no two notes or the base is at least a twelfth, and only then; so it
is with the diminuendo, which never rises. -/
theorem crescendo_rises_iff (h0 : 0 ≤ base) (h1 : base ≤ 1) (count : Nat) :
    ∃ rising : List Rat,
      velocitiesOfName "crescendo" count base = .ok rising ∧
      velocitiesOfName "diminuendo" count base = .ok rising.reverse ∧
      rising.length = count ∧ (∀ v ∈ rising, 0 ≤ v ∧ v ≤ 1) ∧
      (rising.Pairwise (· ≤ ·) ↔ count ≤ 1 ∨ 1 / 12 ≤ base) ∧
      (rising.reverse.Pairwise (· ≥ ·) ↔ count ≤ 1 ∨ 1 / 12 ≤ base) ∧
      ∀ (notes : List (Note Rat)) (session : Session), notes.length = count →
        ∃ louder softer,
          (named "crescendo").apply notes base session = .ok (louder, session) ∧
          Reshaped notes rising louder ∧
          (named "diminuendo").apply notes base session = .ok (softer, session) ∧
          Reshaped notes rising.reverse softer := by
  obtain ⟨hup, hdown⟩ := velocities_crescendo base count
  have hlength := length_crescendo base count
  refine ⟨crescendo base count, hup, hdown, hlength, mem_crescendo h0 h1,
    crescendo_pairwise_iff h1 count, ?_, ?_⟩
  · rw [List.pairwise_reverse]
    exact crescendo_pairwise_iff h1 count
  · rintro notes session rfl
    refine ⟨_, _, apply_named rfl hup session, reshaped_withVelocities hlength,
      apply_named rfl hdown session, reshaped_withVelocities ?_⟩
    rw [List.length_reverse, hlength]

end

/-- The theorem at work on a base of one half. -/
theorem moderate_rises : ∃ _ : Elementary, (0 : Rat) ≤ 1 / 2 ∧ (1 / 2 : Rat) ≤ 1 ∧
    velocitiesOfName "crescendo" 3 (1 / 2 : Rat) = .ok [3 / 20, 3 / 8, 3 / 5] ∧
    velocitiesOfName "diminuendo" 3 (1 / 2 : Rat) = .ok [3 / 5, 3 / 8, 3 / 20] ∧
    [3 / 20, 3 / 8, (3 / 5 : Rat)].Pairwise (· ≤ ·) := by
  let _ := Elementary.coarse
  have h0 : (0 : Rat) ≤ 1 / 2 := by norm_num
  have h1 : (1 / 2 : Rat) ≤ 1 := by norm_num
  obtain ⟨rising, hup, hdown, -, -, hrises, -⟩ := crescendo_rises_iff h0 h1 3
  have hvelocities : velocitiesOfName "crescendo" 3 (1 / 2 : Rat) = .ok [3 / 20, 3 / 8, 3 / 5] := by
    decide +kernel
  obtain rfl := Except.ok.inj (hup.symm.trans hvelocities)
  exact ⟨inferInstance, h0, h1, hvelocities, hdown, hrises.2 (.inr (by norm_num))⟩

/-- On a base of a twentieth the loud end is six hundredths, and the soft end stays at a tenth: the
crescendo falls, and the diminuendo rises. -/
theorem faint_falls : ∃ _ : Elementary,
    velocitiesOfName "crescendo" 2 (1 / 20 : Rat) = .ok [1 / 10, 3 / 50] ∧
    ¬ [1 / 10, (3 / 50 : Rat)].Pairwise (· ≤ ·) ∧
    velocitiesOfName "diminuendo" 2 (1 / 20 : Rat) = .ok [3 / 50, 1 / 10] ∧
    ¬ [3 / 50, (1 / 10 : Rat)].Pairwise (· ≥ ·) := by
  let _ := Elementary.coarse
  exact ⟨inferInstance, by decide +kernel, by decide +kernel, by decide +kernel, by decide +kernel⟩

end Partitura.Envelope

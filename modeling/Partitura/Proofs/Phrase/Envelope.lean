import Partitura.Phrase.Envelope
import Partitura.Number.Exact
import Partitura.Proofs.Computation

/-!
# Envelopes can always be applied

A list of levels is looked up at positions between its first and its last level, and such a position is
a level of the list and a part of the way to the next one (`exists_part`). So a lookup never leaves the
list, and reads what the line through the levels says there (`levelAt_eq`). Counted exactly, no envelope
stops the notes it is applied to (`apply_total`).
-/

namespace Partitura.Envelope

variable [Elementary]

/-! ## §1 Levels -/

/-- The notes of a phrase are spread from the first level to the last. -/
theorem levelPosition_mem (size : Nat) {count i : Nat} (hi : i < count) :
    (0 : Rat) ≤ levelPosition size count i ∧
      (levelPosition size count i : Rat) ≤ ((size - 1 : Nat) : Rat) := by
  unfold levelPosition
  split
  · rw [Exact.start_eq]
    exact ⟨le_refl 0, Nat.cast_nonneg _⟩
  · next hcount =>
      simp only [Exact.ofNat_eq]
      have hpart : (i : Rat) / ((count - 1 : Nat) : Rat) ≤ 1 := by
        refine (div_le_one (by exact_mod_cast (by omega : 0 < count - 1))).2 ?_
        exact_mod_cast (by omega : i ≤ count - 1)
      have hsize : (0 : Rat) ≤ ((size - 1 : Nat) : Rat) := Nat.cast_nonneg _
      exact ⟨by positivity, mul_le_of_le_one_left hsize hpart⟩

omit [Elementary] in
theorem floor_place (j : Nat) {part : Rat} (h0 : 0 ≤ part) (h1 : part < 1) :
    ⌊(j + part : Rat)⌋ = j := by
  rw [Int.floor_natCast_add, Int.floor_eq_zero_iff.2 ⟨h0, h1⟩, add_zero]

omit [Elementary] in
/-- A position up to the last level is a level and a part of the way to the next one. -/
theorem exists_part {values : List Rat} (hvalues : values ≠ []) {position : Rat} (h0 : 0 ≤ position)
    (h1 : position ≤ ((values.length - 1 : Nat) : Rat)) :
    ∃ (j : Nat) (part : Rat), j < values.length ∧ 0 ≤ part ∧ part < 1 ∧ position = j + part := by
  have hlength : 0 < values.length := List.length_pos_iff.2 hvalues
  have hlast : ⌊position⌋ ≤ ((values.length - 1 : Nat) : Int) :=
    (Int.floor_mono h1).trans_eq (Int.floor_natCast _)
  obtain ⟨j, hj⟩ := Int.eq_ofNat_of_zero_le (Int.floor_nonneg.2 h0)
  refine ⟨j, Int.fract position, by omega, Int.fract_nonneg _, Int.fract_lt_one _, ?_⟩
  have hparts := Int.floor_add_fract position
  rw [hj, Int.cast_natCast] at hparts
  exact hparts.symm

/-- A level held between 0 and 1. -/
def held (v : Rat) : Rat :=
  min 1 (max 0 v)

theorem held_eq (v : Rat) : Scalar.min 1.0 (Scalar.max 0.0 v) = held v := by
  have hone : (1.0 : Rat) = 1 := by norm_num
  rw [Exact.min_eq, Exact.max_eq, Exact.start_eq, hone]
  rfl

/-- A part of the way from one level to another. -/
def mix (a b part : Rat) : Rat :=
  a * (1 - part) + b * part

/-- What levels say at a position between the first and the last of them, before it is held. Behind the
last level there is none to go on to. -/
def line (values : List Rat) (position : Rat) : Rat :=
  let lower := ⌊position⌋.toNat
  let upper := min (lower + 1) (values.length - 1)
  mix (values.getD lower 0) (values.getD upper 0) (position - lower)

section

variable {values : List Rat} {j : Nat} {part : Rat}

omit [Elementary] in
theorem line_place (hj : j < values.length) (h0 : 0 ≤ part) (h1 : part < 1) :
    line values (j + part) = mix values[j] values[min (j + 1) (values.length - 1)] part := by
  unfold line
  rw [floor_place j h0 h1]
  simp only [Int.toNat_natCast, add_sub_cancel_left]
  rw [List.getD, List.getD, List.getElem?_eq_getElem hj, List.getElem?_eq_getElem (by omega)]
  rfl

/-- Between the first level and the last there is always a level on either side. -/
theorem levelAt_place (hj : j < values.length) (h0 : 0 ≤ part) (h1 : part < 1) :
    levelAt values (j + part) = .ok (held (line values (j + part))) := by
  have hfloor : floorOf (j + part : Rat) = .ok j := congrArg Except.ok (floor_place j h0 h1)
  have hupper : (min ((j : Int) + 1) (values.length - 1)).toNat =
      min (j + 1) (values.length - 1) := by omega
  have hlast : min (j + 1) (values.length - 1) < values.length := by omega
  unfold levelAt
  rw [line_place hj h0 h1, hfloor, Outcome.ok_bind]
  simp only [hupper, Int.toNat_natCast, List.getElem?_eq_getElem hj, List.getElem?_eq_getElem hlast,
    Exact.ofInt_eq, Int.cast_natCast, add_sub_cancel_left, held_eq]
  rfl

theorem levelAt_eq (hvalues : values ≠ []) {position : Rat} (h0 : 0 ≤ position)
    (h1 : position ≤ ((values.length - 1 : Nat) : Rat)) :
    levelAt values position = .ok (held (line values position)) := by
  obtain ⟨j, part, hj, hpart0, hpart1, rfl⟩ := exists_part hvalues h0 h1
  exact levelAt_place hj hpart0 hpart1

end

/-- Stretched levels are read off the line, one for each note. -/
theorem stretch_eq {values : List Rat} (hvalues : values ≠ []) (count : Nat) :
    stretch values count = .ok ((List.range count).map fun i =>
      held (line values (levelPosition values.length count i))) := by
  unfold stretch
  rw [if_neg (by simpa using hvalues)]
  refine Outcome.mapM_eq_map fun i hi => ?_
  obtain ⟨h0, h1⟩ := levelPosition_mem values.length (List.mem_range.1 hi)
  exact levelAt_eq hvalues h0 h1

theorem stretch_ok (values : List Rat) (count : Nat) : ∃ vs, stretch values count = .ok vs := by
  by_cases hvalues : values = []
  · subst hvalues
    exact ⟨[], rfl⟩
  · exact ⟨_, stretch_eq hvalues count⟩

/-! ## §2 Shapes -/

theorem Shape.over_ok (count : Int) (base : Rat) (s : Shape) : ∃ vs, s.over count base = .ok vs := by
  cases s with
  | swell => exact Outcome.exists_mapM fun i _ => ⟨_, rfl⟩
  | crescendo | diminuendo | accentFirst | accentDownbeats => exact ⟨_, rfl⟩

theorem Shape.velocities_ok (count : Int) (base : Rat) (s : Shape) :
    ∃ vs, s.velocities count base = .ok vs := by
  unfold Shape.velocities
  split
  · exact ⟨[], rfl⟩
  · split
    · exact ⟨[base], rfl⟩
    · exact s.over_ok count base

/-- **An envelope never stops the notes that it is applied to.** -/
theorem apply_total (e : Envelope Rat) (notes : List (Note Rat)) (base : Rat) :
    (e.apply notes base).Total := by
  unfold Envelope.apply
  split
  · exact .pure []
  · cases e with
    | named name =>
        dsimp only
        split
        · exact .bind (.warn _) fun _ => .pure notes
        · next s _ =>
            obtain ⟨vs, hvs⟩ := s.velocities_ok notes.length base
            exact .bind (.lift hvs) fun _ => .pure _
    | levels values =>
        dsimp only
        split
        · exact .pure notes
        · obtain ⟨vs, hvs⟩ := stretch_ok values notes.length
          exact .bind (.lift hvs) fun _ => .pure _

end Partitura.Envelope

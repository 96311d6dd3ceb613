import Mathlib.Tactic.Linarith
import Mathlib.Tactic.NormNum
import Partitura.Curve.Density
import Partitura.Number.Exact
import Partitura.Proofs.Computation

/-!
# Chances

A draw decides whether a note sounds: it does if the draw lies below the note's own probability times
the density. Two facts carry all that can be said of this without knowing the draw. Draws lie from 0 up
to 1, and products grow with their factors. `Chances` says so of a type of scalars, with what it takes
of the order, and exact rationals are such a type. Machine numbers that are finite behave in the same
way, since rounding keeps what lies between two of them between them.
-/

namespace Partitura

/-- Scalars in which draws lie from 0 up to 1 and products grow with their factors. -/
class Chances (α : Type) [Scalar α] : Prop where
  lt_of_lt_of_le : ∀ {x y z : α}, x < y → y ≤ z → x < z
  not_le_of_lt : ∀ {x y : α}, x < y → ¬ y ≤ x
  zero_le_one : (0.0 : α) ≤ 1.0
  one_le_one : (1.0 : α) ≤ 1.0
  mul_le_mul_left : ∀ {q x y : α}, 0.0 ≤ q → x ≤ y → q * x ≤ q * y
  mul_zero_le : ∀ {q : α}, 0.0 ≤ q → q * 0.0 ≤ 0.0
  one_le_mul_one : ∀ {q : α}, 1.0 ≤ q → 1.0 ≤ q * 1.0
  zero_le_unitOf : ∀ high low : UInt32, (0.0 : α) ≤ Draw.unitOf high low
  unitOf_lt_one : ∀ high low : UInt32, (Draw.unitOf high low : α) < 1.0

variable {α : Type} [Scalar α]

/-- A stream after one number of the unit interval, which takes two words. -/
def Twister.afterUnit (t : Twister) : Twister :=
  t.next.2.next.2

theorem Draw.outcome_unit (t : Twister) : (Draw.unit : Draw α).outcome t =
    .ok (Draw.unitOf t.next.1 t.next.2.next.1, t.afterUnit) :=
  rfl

/-- A draw of the unit interval is made of two words. -/
theorem Draw.unit_yields {roll : α} (h : (Draw.unit : Draw α).Yields roll) :
    ∃ high low, roll = Draw.unitOf high low := by
  obtain ⟨high, _, h⟩ := h.of_bind
  obtain ⟨low, _, h⟩ := h.of_bind
  exact ⟨high, low, h.of_pure.symm⟩

namespace Chances

variable [Chances α] {probability : Option α} {level level' roll : α}

omit [Chances α] in
/-- The probability of a note is certainty if it has none of its own. -/
theorem le_own {bound : α} (hone : bound ≤ 1.0) (h : ∀ q ∈ probability, bound ≤ q) :
    bound ≤ probability.getD 1.0 := by
  cases probability with
  | none => exact hone
  | some q => exact h q rfl

/-- A note that plays at a density plays at any higher one. -/
theorem shouldPlay_of_le (hchance : ∀ q ∈ probability, 0.0 ≤ q) (hle : level ≤ level')
    (h : shouldPlay probability level roll = true) : shouldPlay probability level' roll = true := by
  unfold shouldPlay effectiveProbability at h ⊢
  rw [decide_eq_true_eq] at h ⊢
  exact lt_of_lt_of_le h (mul_le_mul_left (le_own zero_le_one hchance) hle)

/-- No note plays at a density of 0. -/
theorem shouldPlay_zero (hchance : ∀ q ∈ probability, 0.0 ≤ q) (high low : UInt32) :
    shouldPlay probability 0.0 (Draw.unitOf high low) = false := by
  unfold shouldPlay effectiveProbability
  rw [decide_eq_false_iff_not]
  intro hlt
  exact not_le_of_lt (lt_of_lt_of_le hlt (mul_zero_le (le_own zero_le_one hchance))) (zero_le_unitOf high low)

/-- A note that is certain plays at a density of 1. -/
theorem shouldPlay_one (hcertain : ∀ q ∈ probability, 1.0 ≤ q) (high low : UInt32) :
    shouldPlay probability 1.0 (Draw.unitOf high low) = true := by
  unfold shouldPlay effectiveProbability
  rw [decide_eq_true_eq]
  exact lt_of_lt_of_le (unitOf_lt_one high low) (one_le_mul_one (le_own one_le_one hcertain))

end Chances

/-! ## Exact draws -/

namespace Exact

variable [Elementary]

/-- A draw is a whole number of parts of the unit interval, of which there are 2 to the 53rd. -/
theorem unitOf_eq (high low : UInt32) : (Draw.unitOf high low : Rat) =
    (((high >>> 5).toNat * 67108864 + (low >>> 6).toNat : Nat) : Rat) / 9007199254740992 := by
  unfold Draw.unitOf
  rw [ofNat_eq, ofNat_eq]
  norm_num

omit [Elementary] in
theorem parts_lt (high low : UInt32) :
    (high >>> 5).toNat * 67108864 + (low >>> 6).toNat < 9007199254740992 := by
  have hhigh := high.toNat_lt
  have hlow := low.toNat_lt
  simp only [UInt32.toNat_shiftRight, UInt32.reduceToNat, Nat.shiftRight_eq_div_pow,
    Nat.reduceMod, Nat.reducePow]
  omega

instance instChances : Chances Rat where
  lt_of_lt_of_le := lt_of_lt_of_le
  not_le_of_lt := not_le_of_gt
  zero_le_one := by norm_num
  one_le_one := le_refl _
  mul_le_mul_left hq hle := mul_le_mul_of_nonneg_left hle (by simpa [start_eq] using hq)
  mul_zero_le _ := by norm_num
  one_le_mul_one hq := by norm_num at hq ⊢; exact hq
  zero_le_unitOf high low := by
    rw [unitOf_eq, start_eq]
    positivity
  unitOf_lt_one high low := by
    have hparts : (((high >>> 5).toNat * 67108864 + (low >>> 6).toNat : Nat) : Rat) <
        9007199254740992 := by exact_mod_cast parts_lt high low
    rw [unitOf_eq, div_lt_iff₀ (by norm_num)]
    linarith

end Exact

end Partitura

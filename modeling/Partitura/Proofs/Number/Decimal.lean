import Mathlib.Algebra.Order.Field.Rat
import Mathlib.Data.List.Basic
import Mathlib.Tactic.FieldSimp
import Mathlib.Tactic.Linarith
import Partitura.Number.Decimal
import Partitura.Text.Character

/-!
# Rounding and decimals

Rounding to the nearest whole number moves nothing by more than a half, whichever way halves go
(`Rational.abs_round_sub_le`), and so the order of numbers survives (`Rational.round_mono`).

Whole numbers are shown in digits that read back as the number (`Text.valueOf_toDigits`). A scalar
shown with six significant digits is made of a few characters only (`mem_general`), and what its
digits and its point leave of it is nothing, an exponent, a word, or all of a number with a minus sign
(`exists_general`).
-/

namespace Partitura

/-! ## §1 Rounding -/

/-- Twice the distance to the rounded quotient is no more than the divisor. -/
theorem roundQuotient_close (n : Nat) {d : Nat} (hd : 0 < d) :
    2 * n ≤ 2 * (roundQuotient n d * d) + d ∧ 2 * (roundQuotient n d * d) ≤ 2 * n + d := by
  have hdivision : d * (n / d) + n % d = n := Nat.div_add_mod n d
  have hrest : n % d < d := Nat.mod_lt n hd
  unfold roundQuotient
  dsimp only
  rw [mul_comm] at hdivision
  split
  · omega
  · split
    · rw [Nat.add_mul]
      omega
    · split
      · omega
      · rw [Nat.add_mul]
        omega

namespace Rational

/-- Distances may be compared in units of any denominator. -/
theorem abs_sub_le_half {r x d : Rat} (hd : 0 < d) (habove : 2 * (x * d) ≤ 2 * (r * d) + d)
    (hbelow : 2 * (r * d) ≤ 2 * (x * d) + d) : |r - x| ≤ 1 / 2 := by
  refine abs_le.2 ⟨?_, ?_⟩
  · refine le_of_mul_le_mul_right ?_ hd
    linarith
  · refine le_of_mul_le_mul_right ?_ hd
    linarith

theorem abs_round_sub_le (x : Rat) : |(round x : Rat) - x| ≤ 1 / 2 := by
  have hd : (0 : Rat) < x.den := by
    exact_mod_cast x.den_pos
  have hnum : x * x.den = x.num := Rat.mul_den_eq_num x
  obtain ⟨habove, hbelow⟩ := roundQuotient_close x.num.natAbs x.den_pos
  unfold round
  dsimp only
  generalize roundQuotient x.num.natAbs x.den = q at habove hbelow ⊢
  have habove : 2 * (x.num.natAbs : Rat) ≤ 2 * (q * x.den) + x.den := by
    exact_mod_cast habove
  have hbelow : 2 * ((q : Rat) * x.den) ≤ 2 * (x.num.natAbs : Rat) + x.den := by
    exact_mod_cast hbelow
  generalize hn : x.num.natAbs = n at habove hbelow
  split
  · next hneg =>
      have hsign : x.num = -(n : Int) := by
        omega
      rw [hsign] at hnum
      push_cast at hnum ⊢
      refine abs_sub_le_half hd ?_ ?_ <;> linarith
  · next hnonneg =>
      have hsign : x.num = (n : Int) := by
        omega
      rw [hsign] at hnum
      push_cast at hnum ⊢
      refine abs_sub_le_half hd ?_ ?_ <;> linarith

/-- The order of numbers survives rounding. -/
theorem round_mono {x y : Rat} (h : x ≤ y) : round x ≤ round y := by
  by_contra hless
  have hgap : (round y : Rat) + 1 ≤ round x := by
    exact_mod_cast not_le.1 hless
  have hx := abs_le.1 (abs_round_sub_le x)
  have hy := abs_le.1 (abs_round_sub_le y)
  -- Both lie halfway between the two whole numbers, so they are the same number.
  have heq : x = y := by
    linarith
  rw [heq] at hless
  exact hless le_rfl

end Rational

/-! ## §2 Whole numbers -/

namespace Text

/-- What is said of all characters in a list is checked for those in the list, and not for all
characters that there are. -/
instance (priority := high) instDecidableForallMem {p : Char → Prop} [DecidablePred p]
    (cs : List Char) : Decidable (∀ c ∈ cs, p c) :=
  List.decidableBAll p cs

theorem digit?_of_isDigit {c : Char} (h : c.isDigit = true) :
    digit? c = some (c.toNat - '0'.toNat) := by
  have hbounds : 48 ≤ c.toNat ∧ c.toNat ≤ 57 := by
    simpa [Char.isDigit, UInt32.le_iff_toNat_le] using h
  have hzeros : zeros = 48 :: zeros.tail := rfl
  unfold digit?
  rw [hzeros, List.find?_cons_of_pos (by simp [hbounds.1, Nat.lt_succ_of_le hbounds.2])]
  rfl

theorem isDigit_of_isDigit {c : Char} (h : c.isDigit = true) : isDigit c = true := by
  unfold isDigit
  rw [digit?_of_isDigit h]
  rfl

/-- What is shown in digits reads back. -/
theorem valueOf_toDigits (n : Nat) : valueOf (Nat.toDigits 10 n) = n := by
  have hfold : ∀ (ds : List Char) (m : Nat), (∀ c ∈ ds, c.isDigit = true) →
      ds.foldl (fun n c => 10 * n + (digit? c).getD 0) m = Nat.ofDigitChars 10 ds m := by
    intro ds
    induction ds with
    | nil => exact fun m _ => rfl
    | cons d ds ih =>
        intro m hds
        have hd := digit?_of_isDigit (hds d List.mem_cons_self)
        rw [List.foldl_cons, hd, Option.getD_some]
        exact ih _ fun c hc => hds c (List.mem_cons_of_mem d hc)
  have hdigits : ∀ c ∈ Nat.toDigits 10 n, c.isDigit = true :=
    fun c hc => Nat.isDigit_of_mem_toDigits (by decide) (by decide) hc
  unfold valueOf
  rw [hfold _ 0 hdigits, Nat.ofDigitChars_ten_toDigits]

end Text

/-! ## §3 Six significant digits -/

namespace Decimal

/-- A digit or a point. -/
def IsFigure (c : Char) : Prop :=
  c.isDigit = true ∨ c = '.'

theorem isDigit_of_mem_digits {n : Nat} {c : Char} (h : c ∈ digits n) : c.isDigit = true :=
  Nat.isDigit_of_mem_toDigits (by decide) (by decide) h

theorem isDigit_of_mem_padded {width n : Nat} {c : Char} (h : c ∈ padded width n) :
    c.isDigit = true := by
  rcases List.mem_append.1 h with h | h
  · rw [List.eq_of_mem_replicate h]
    rfl
  · exact isDigit_of_mem_digits h

theorem isFigure_of_mem_withPoint {places units : Nat} {c : Char} (h : c ∈ withPoint places units) :
    IsFigure c := by
  unfold withPoint at h
  split at h
  · exact .inl (isDigit_of_mem_digits h)
  · rcases List.mem_append.1 h with h | h
    · exact .inl (isDigit_of_mem_digits h)
    · rcases List.mem_cons.1 h with h | h
      · exact .inr h
      · exact .inl (isDigit_of_mem_padded h)

theorem mem_of_mem_dropTrailingZeros {ds : List Char} {c : Char} (h : c ∈ dropTrailingZeros ds) :
    c ∈ ds := by
  have hdrop := (List.dropWhile_sublist _).subset (List.mem_reverse.1 h)
  exact List.mem_reverse.1 hdrop

theorem mem_of_mem_trimFraction {text : List Char} {c : Char} (h : c ∈ trimFraction text) :
    c ∈ text := by
  unfold trimFraction at h
  split at h
  · dsimp only at h
    split at h
    · exact mem_of_mem_dropTrailingZeros (List.dropLast_subset _ h)
    · exact mem_of_mem_dropTrailingZeros h
  · exact h

/-- The exponent part of a number, if it has one. -/
def OptionalExponent (cs : List Char) : Prop :=
  cs = [] ∨ ∃ e : Int, cs = exponentPart e

theorem exists_general (precision : Nat) (x : Rat) :
    ∃ front back, general precision x = front ++ back ∧ (∀ c ∈ front, IsFigure c) ∧
      OptionalExponent back := by
  have hshown : ∀ e : Int, ∀ units : Nat, ∃ front back,
      (if e < -4 ∨ (precision : Int) ≤ e then
        trimFraction (withPoint (precision - 1) units) ++ exponentPart e
      else trimFraction (withPoint (precision - 1 - e).toNat units)) = front ++ back ∧
        (∀ c ∈ front, IsFigure c) ∧ OptionalExponent back := by
    intro e units
    split
    · refine ⟨_, _, rfl, fun c hc => ?_, .inr ⟨_, rfl⟩⟩
      exact isFigure_of_mem_withPoint (mem_of_mem_trimFraction hc)
    · refine ⟨_, [], (List.append_nil _).symm, fun c hc => ?_, .inl rfl⟩
      exact isFigure_of_mem_withPoint (mem_of_mem_trimFraction hc)
  unfold general
  dsimp only
  split
  · exact ⟨['0'], [], rfl, by simp [IsFigure], .inl rfl⟩
  · exact hshown _ _

end Decimal

namespace Scalar

open Decimal

variable {α : Type} [Scalar α]

/-- The characters that a shown scalar may hold. -/
def shownMarks : List Char :=
  ['.', '-', '+', 'e', 'i', 'n', 'f', 'a']

/-- What the digits and the point at the head of a shown scalar leave of it. -/
inductive Remainder (front : List Char) : List Char → Prop where
  | nothing : Remainder front []
  | word (c : Char) (cs : List Char) (h : c ∈ ['e', 'i', 'n']) : Remainder front (c :: cs)
  | negative (cs : List Char) (h : front = []) : Remainder front ('-' :: cs)

theorem shown_cases (x : α) :
    (∃ r, (general x).toList = Decimal.general 6 r) ∨
    (∃ r, (general x).toList = '-' :: Decimal.general 6 r) ∨
    (general x).toList ∈ [['i', 'n', 'f'], ['-', 'i', 'n', 'f'], ['n', 'a', 'n']] := by
  unfold general written
  cases magnitude x with
  | finite r =>
      cases signed x with
      | true => exact .inr (.inl ⟨r, by simp⟩)
      | false => exact .inl ⟨r, by simp⟩
  | infinite negative => cases negative <;> simp
  | undefined => simp

theorem exists_shown (x : α) :
    ∃ front back, (general x).toList = front ++ back ∧ (∀ c ∈ front, IsFigure c) ∧
      Remainder front back := by
  rcases shown_cases x with ⟨r, hr⟩ | ⟨r, hr⟩ | hword
  · obtain ⟨front, back, heq, hfront, hback⟩ := exists_general 6 r
    refine ⟨front, back, hr.trans heq, hfront, ?_⟩
    rcases hback with rfl | ⟨e, rfl⟩
    · exact .nothing
    · exact .word 'e' _ (by decide)
  · exact ⟨[], _, hr, nofun, .negative _ rfl⟩
  · simp only [List.mem_cons, List.not_mem_nil, or_false] at hword
    rcases hword with h | h | h
    · exact ⟨[], _, h, nofun, .word 'i' _ (by decide)⟩
    · exact ⟨[], _, h, nofun, .negative _ rfl⟩
    · exact ⟨[], _, h, nofun, .word 'n' _ (by decide)⟩

theorem mem_shown {x : α} {c : Char} (h : c ∈ (general x).toList) :
    c.isDigit = true ∨ c ∈ shownMarks := by
  have hgeneral : ∀ r, c ∈ Decimal.general 6 r → c.isDigit = true ∨ c ∈ shownMarks := by
    intro r hr
    obtain ⟨front, back, heq, hfront, hback⟩ := exists_general 6 r
    rw [heq, List.mem_append] at hr
    rcases hr with hr | hr
    · rcases hfront c hr with hdigit | rfl
      · exact .inl hdigit
      · exact .inr (by decide)
    · rcases hback with rfl | ⟨e, rfl⟩
      · cases hr
      · rcases List.mem_cons.1 hr with rfl | hr
        · exact .inr (by decide)
        · rcases List.mem_cons.1 hr with rfl | hr
          · right
            split <;> decide
          · exact .inl (isDigit_of_mem_padded hr)
  rcases shown_cases x with ⟨r, hr⟩ | ⟨r, hr⟩ | hword
  · exact hgeneral r (hr ▸ h)
  · rw [hr] at h
    rcases List.mem_cons.1 h with rfl | h
    · exact .inr (by decide)
    · exact hgeneral r h
  · have hwords : ∀ cs ∈ [['i', 'n', 'f'], ['-', 'i', 'n', 'f'], ['n', 'a', 'n']],
        ∀ c ∈ cs, c ∈ shownMarks := by decide
    exact .inr (hwords _ hword c h)

end Scalar

end Partitura

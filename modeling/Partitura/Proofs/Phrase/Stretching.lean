import Mathlib.Data.List.Pairwise
import Mathlib.Tactic.Linarith
import Mathlib.Tactic.Ring
import Partitura.Proofs.Phrase.Envelope

/-!
# Levels stretched over notes

Where a position is a level and a part of the way to the next one, the line through the levels mixes the
two. So it passes through every level (`line_natCast`), stays between neighbours (`line_between`), and
rises if the levels do, along the way and from one level to the next (`line_mono`).

Notes are spread over the levels evenly, the first and the last on the first and the last of them. What
they take from the line is held between 0 and 1, which changes no order, and so has all these properties
(`stretch_between`).
-/

namespace Partitura.Envelope

/-! ## §1  Between two levels -/

theorem held_mono : Monotone held :=
  fun _ _ h => min_le_min_left 1 (max_le_max_left 0 h)

theorem held_bounds (v : Rat) : 0 ≤ held v ∧ held v ≤ 1 :=
  ⟨le_min (by decide) (le_max_left 0 v), min_le_left 1 _⟩

variable {a b low high part part' : Rat}

theorem mix_zero (a b : Rat) : mix a b 0 = a := by
  unfold mix
  ring

theorem mix_self (a part : Rat) : mix a a part = a := by
  unfold mix
  ring

theorem mix_bounds (ha : low ≤ a ∧ a ≤ high) (hb : low ≤ b ∧ b ≤ high) (h0 : 0 ≤ part)
    (h1 : part ≤ 1) : low ≤ mix a b part ∧ mix a b part ≤ high := by
  unfold mix
  constructor <;> nlinarith

theorem mix_mono (hab : a ≤ b) (h : part ≤ part') : mix a b part ≤ mix a b part' := by
  unfold mix
  nlinarith

/-! ## §2  The line -/

variable {values : List Rat}

theorem line_natCast {j : Nat} (hj : j < values.length) : line values j = values[j] := by
  have hplace := line_place hj (le_refl (0 : Rat)) one_pos
  rwa [add_zero, mix_zero] at hplace

/-- Levels next to each other. A single level has no other neighbour than itself. -/
def Neighbours (values : List Rat) (a b : Rat) : Prop :=
  (∃ j, values[j]? = some a ∧ values[j + 1]? = some b) ∨ values = [a] ∧ b = a

/-- On the line nothing lies outside two neighbours. -/
theorem line_between {position : Rat} (hvalues : values ≠ []) (h0 : 0 ≤ position)
    (h1 : position ≤ ((values.length - 1 : Nat) : Rat)) : ∃ a b, Neighbours values a b ∧
      min a b ≤ line values position ∧ line values position ≤ max a b := by
  obtain ⟨j, part, hj, hpart0, hpart1, rfl⟩ := exists_part hvalues h0 h1
  rw [line_place hj hpart0 hpart1]
  by_cases hnext : j + 1 < values.length
  · have hupper : min (j + 1) (values.length - 1) = j + 1 := by omega
    simp only [hupper]
    exact ⟨values[j], values[j + 1],
      .inl ⟨j, List.getElem?_eq_getElem hj, List.getElem?_eq_getElem hnext⟩,
      mix_bounds ⟨min_le_left _ _, le_max_left _ _⟩ ⟨min_le_right _ _, le_max_right _ _⟩ hpart0
        hpart1.le⟩
  · -- The last level is itself on the line, and the one before it is its neighbour.
    have hupper : min (j + 1) (values.length - 1) = j := by omega
    simp only [hupper, mix_self]
    cases j with
    | zero =>
        obtain ⟨a, rfl⟩ := List.length_eq_one_iff.1 (by omega : values.length = 1)
        exact ⟨a, a, .inr ⟨rfl, rfl⟩, min_le_left _ _, le_max_left _ _⟩
    | succ i =>
        have hi : i < values.length := by omega
        exact ⟨values[i], values[i + 1],
          .inl ⟨i, List.getElem?_eq_getElem hi, List.getElem?_eq_getElem hj⟩,
          min_le_right _ _, le_max_right _ _⟩

theorem getElem_mono (hrises : values.Pairwise (· ≤ ·)) {i j : Nat} (h : i ≤ j)
    (hj : j < values.length) : values[i] ≤ values[j] :=
  hrises.rel_get_of_le (show (⟨i, by omega⟩ : Fin values.length) ≤ ⟨j, hj⟩ from h)

/-- Through levels that rise goes a line that rises. -/
theorem line_mono {p q : Rat} (hrises : values.Pairwise (· ≤ ·)) (hvalues : values ≠ []) (h0 : 0 ≤ p)
    (hpq : p ≤ q) (h1 : q ≤ ((values.length - 1 : Nat) : Rat)) : line values p ≤ line values q := by
  obtain ⟨i, part, hi, hpart0, hpart1, rfl⟩ := exists_part hvalues h0 (hpq.trans h1)
  obtain ⟨j, part', hj, hpart0', hpart1', rfl⟩ := exists_part hvalues (h0.trans hpq) h1
  rw [line_place hi hpart0 hpart1, line_place hj hpart0' hpart1']
  have hnext := getElem_mono hrises (by omega : i ≤ min (i + 1) (values.length - 1)) (by omega)
  have hnext' := getElem_mono hrises (by omega : j ≤ min (j + 1) (values.length - 1)) (by omega)
  rcases Nat.lt_trichotomy i j with hlt | rfl | hgt
  · -- The level after the first position lies between the two.
    have hlevels := getElem_mono hrises (by omega : min (i + 1) (values.length - 1) ≤ j) hj
    calc mix _ _ part ≤ values[min (i + 1) (values.length - 1)] :=
          (mix_bounds ⟨le_rfl, hnext⟩ ⟨hnext, le_rfl⟩ hpart0 hpart1.le).2
      _ ≤ values[j] := hlevels
      _ ≤ mix _ _ part' :=
          (mix_bounds ⟨le_rfl, hnext'⟩ ⟨hnext', le_rfl⟩ hpart0' hpart1'.le).1
  · exact mix_mono hnext (le_of_add_le_add_left hpq)
  · have hij : (j + 1 : Rat) ≤ i := by exact_mod_cast hgt
    linarith

/-! ## §3  Notes over levels -/

section

variable [Elementary] {size count i j : Nat}

theorem levelPosition_zero (size count : Nat) : (levelPosition size count 0 : Rat) = 0 := by
  unfold levelPosition
  split
  · exact Exact.start_eq
  · rw [Exact.ofNat_eq, Nat.cast_zero, zero_div, zero_mul]

theorem levelPosition_last (size : Nat) (h : 2 ≤ count) :
    (levelPosition size count (count - 1) : Rat) = ((size - 1 : Nat) : Rat) := by
  have hne : ((count - 1 : Nat) : Rat) ≠ 0 := Nat.cast_ne_zero.2 (by omega)
  unfold levelPosition
  rw [if_neg (by omega), Exact.ofNat_eq, Exact.ofNat_eq, div_self hne, one_mul]

theorem levelPosition_mono (size count : Nat) (h : i ≤ j) :
    (levelPosition size count i : Rat) ≤ levelPosition size count j := by
  unfold levelPosition
  split
  · exact le_rfl
  · simp only [Exact.ofNat_eq]
    gcongr

/-- The level at which a note looks is one of the list. -/
theorem exists_floor_levelPosition (hvalues : values ≠ []) (hi : i < count) : ∃ lower : Nat,
    floorOf (levelPosition values.length count i : Rat) = .ok lower ∧ lower < values.length := by
  obtain ⟨h0, h1⟩ := levelPosition_mem values.length hi
  obtain ⟨lower, part, hlower, hpart0, hpart1, hposition⟩ := exists_part hvalues h0 h1
  rw [hposition]
  exact ⟨lower, congrArg Except.ok (floor_place lower hpart0 hpart1), hlower⟩

/-- **Levels that are stretched over notes stay between their neighbours.** A list with levels is stretched
over any number of notes without a look outside of it. There is one velocity for each note, between 0 and 1.
Each lies between two neighbouring levels as they are held there; the first note has the first level, the
last of several has the last one. If the levels never fall, the velocities never do. -/
theorem stretch_between (hvalues : values ≠ []) (count : Nat) :
    (∀ i < count, ∃ lower : Nat,
      floorOf (levelPosition values.length count i : Rat) = .ok lower ∧ lower < values.length) ∧
    ∃ vs, stretch values count = .ok vs ∧ vs.length = count ∧ (∀ v ∈ vs, 0 ≤ v ∧ v ≤ 1) ∧
      (∀ v ∈ vs, ∃ a b, Neighbours values a b ∧
        min (held a) (held b) ≤ v ∧ v ≤ max (held a) (held b)) ∧
      (1 ≤ count → vs.head? = values.head?.map held) ∧
      (2 ≤ count → vs.getLast? = values.getLast?.map held) ∧
      (values.Pairwise (· ≤ ·) → vs.Pairwise (· ≤ ·)) := by
  have hlength : 0 < values.length := List.length_pos_iff.2 hvalues
  refine ⟨fun i hi => exists_floor_levelPosition hvalues hi, _, stretch_eq hvalues count, by simp,
    ?_, ?_, ?_, ?_, ?_⟩
  · intro v hv
    obtain ⟨i, -, rfl⟩ := List.mem_map.1 hv
    exact held_bounds _
  · intro v hv
    obtain ⟨i, hi, rfl⟩ := List.mem_map.1 hv
    obtain ⟨h0, h1⟩ := levelPosition_mem values.length (List.mem_range.1 hi)
    obtain ⟨a, b, hneighbours, hmin, hmax⟩ := line_between hvalues h0 h1
    refine ⟨a, b, hneighbours, ?_, ?_⟩
    · rw [← held_mono.map_min]
      exact held_mono hmin
    · rw [← held_mono.map_max]
      exact held_mono hmax
  · intro hcount
    have hfirst := line_natCast hlength
    rw [Nat.cast_zero] at hfirst
    rw [List.head?_map, List.head?_range, if_neg (by omega), Option.map_some, levelPosition_zero,
      hfirst, List.head?_eq_getElem?, List.getElem?_eq_getElem hlength, Option.map_some]
  · intro hcount
    have hlast : values.length - 1 < values.length := by omega
    rw [List.getLast?_map, List.getLast?_range, if_neg (by omega), Option.map_some,
      levelPosition_last _ hcount, line_natCast hlast, List.getLast?_eq_getElem?,
      List.getElem?_eq_getElem hlast, Option.map_some]
  · intro hrises
    rw [List.pairwise_map]
    refine List.pairwise_lt_range.imp_of_mem fun {i j} _ hj hij => ?_
    obtain ⟨h0, -⟩ := levelPosition_mem values.length (hij.trans (List.mem_range.1 hj))
    obtain ⟨-, h1⟩ := levelPosition_mem values.length (List.mem_range.1 hj)
    exact held_mono (line_mono hrises hvalues h0 (levelPosition_mono _ _ hij.le) h1)

end

/-- The theorem at work: three levels over four notes. The middle level is passed between two of them, and
the last one is held at 1. -/
theorem swell_stretched : ∃ _ : Elementary, [0, 1 / 2, (3 / 2 : Rat)] ≠ [] ∧ 3 < 4 ∧ 1 ≤ 4 ∧ 2 ≤ 4 ∧
    [0, 1 / 2, (3 / 2 : Rat)].Pairwise (· ≤ ·) ∧
    (∃ lower : Nat, floorOf (levelPosition 3 4 3 : Rat) = .ok lower ∧ lower < 3) ∧
    stretch [0, 1 / 2, (3 / 2 : Rat)] 4 = .ok [0, 1 / 3, 5 / 6, 1] ∧
    [0, 1 / 3, 5 / 6, (1 : Rat)].head? = some (held 0) ∧
    [0, 1 / 3, 5 / 6, (1 : Rat)].getLast? = some (held (3 / 2)) ∧
    [0, 1 / 3, 5 / 6, (1 : Rat)].Pairwise (· ≤ ·) := by
  let _ := Elementary.coarse
  have hvalues : [0, 1 / 2, (3 / 2 : Rat)] ≠ [] := by simp
  have hrises : [0, 1 / 2, (3 / 2 : Rat)].Pairwise (· ≤ ·) := by decide +kernel
  have hstretch : stretch [0, 1 / 2, (3 / 2 : Rat)] 4 = .ok [0, 1 / 3, 5 / 6, 1] := by decide +kernel
  obtain ⟨hinside, vs, hvs, -, -, -, hfirst, hlast, hnever⟩ := stretch_between hvalues 4
  obtain rfl := Except.ok.inj (hstretch.symm.trans hvs)
  exact ⟨inferInstance, hvalues, by decide, by decide, by decide, hrises, hinside 3 (by decide),
    hstretch, hfirst (by decide), hlast (by decide), hnever hrises⟩

end Partitura.Envelope

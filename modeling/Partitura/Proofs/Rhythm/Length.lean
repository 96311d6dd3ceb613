import Mathlib.Tactic.Ring
import Partitura.Rhythm.Euclid

/-!
# A slot for every step

However pulses are spread over steps, the rhythm has as many slots as there are steps. While it is built
there are so many copies of either word as the two numbers say that are being divided, so whatever adds
up from word to word, their lengths and their pulses, stays the same from level to level
(`AddsUp.foldl_grow`).
-/

namespace Partitura.Rhythm

/-- A quantity of words that adds up where words stand behind each other. -/
structure AddsUp (f : List Bool → Nat) : Prop where
  nil : f [] = 0
  append : ∀ u v, f (u ++ v) = f u + f v

theorem addsUp_length : AddsUp List.length :=
  ⟨rfl, fun _ _ => List.length_append⟩

/-- One level keeps what all copies hold together: `remainder` copies of the new word and as many
of the old one as are left over. -/
theorem held_level (divisor remainder word before : Nat) :
    remainder * (divisor / remainder * word + before) + divisor % remainder * word =
      divisor * word + remainder * before := by
  calc remainder * (divisor / remainder * word + before) + divisor % remainder * word
      = (remainder * (divisor / remainder) + divisor % remainder) * word + remainder * before := by
        ring
    _ = divisor * word + remainder * before := by rw [Nat.div_add_mod]

namespace AddsUp

variable {f : List Bool → Nat}

theorem repeatWord (h : AddsUp f) (n : Nat) (word : List Bool) :
    f (repeatWord n word) = n * f word := by
  induction n with
  | zero => simp [Rhythm.repeatWord, h.nil]
  | succ n ih =>
      have hstep : Rhythm.repeatWord (n + 1) word = word ++ Rhythm.repeatWord n word := by
        simp [Rhythm.repeatWord, List.replicate_succ]
      rw [hstep, h.append, ih]
      ring

/-- Levels keep what all words hold together. By recursion on the division that they come from. -/
theorem foldl_grow (h : AddsUp f) {divisor remainder : Nat} (hpos : 0 < remainder)
    (words : List Bool × List Bool) :
    f ((levels divisor remainder).foldl grow words).1 =
      divisor * f words.1 + remainder * f words.2 := by
  induction divisor, remainder using levels.induct generalizing words with
  | case1 divisor remainder hmore ih =>
      have ih := ih (by omega) (grow words ⟨divisor / remainder, true⟩)
      rw [levels, dif_pos hmore, List.foldl_cons, ih]
      simp only [grow, if_true, h.append, h.repeatWord]
      exact held_level divisor remainder _ _
  | case2 divisor remainder hlast =>
      -- The last remainder is 0 or 1: the word before stands behind the copies so many times.
      have hrest : f (if divisor % remainder ≠ 0 then words.1 else []) =
          divisor % remainder * f words.1 := by
        have hsmall : divisor % remainder = 0 ∨ divisor % remainder = 1 := by omega
        rcases hsmall with hnone | hone
        · simp [hnone, h.nil]
        · simp [hone]
      rw [levels, dif_neg hlast]
      simp only [List.foldl_cons, List.foldl_nil, grow, if_true, h.append, h.repeatWord,
        decide_eq_true_eq, hrest]
      exact held_level divisor remainder _ _

end AddsUp

theorem length_fromFirstPulse (word : List Bool) : (fromFirstPulse word).length = word.length := by
  have hsplit := congrArg List.length (List.takeWhile_append_dropWhile (p := (!·)) (l := word))
  rw [List.length_append] at hsplit
  rw [fromFirstPulse, List.length_append]
  omega

theorem length_spread (steps pulses : Int) : (spread steps pulses).length = steps.toNat := by
  unfold spread
  split
  · rw [List.length_nil]
    omega
  · split
    · exact List.length_replicate
    · split
      · exact List.length_replicate
      · rw [length_fromFirstPulse, build, addsUp_length.foldl_grow (by omega)]
        simp only [List.length_singleton]
        omega

theorem length_rotate {β : Type} (xs : List β) (rotation : Int) :
    (rotate xs rotation).length = xs.length := by
  unfold rotate
  simp only [List.length_append, List.length_drop, List.length_take]
  omega

/-- **An even rhythm has a slot for every step.** -/
theorem length_euclidean (pulses steps rotation : Int) :
    (euclidean pulses steps rotation).length = steps.toNat := by
  rw [euclidean, length_rotate, length_spread]

theorem mem_pulsesFrom {start i : Nat} {word : List Bool} (h : i ∈ pulsesFrom start word) :
    start ≤ i ∧ i < start + word.length := by
  induction word generalizing start with
  | nil => cases h
  | cons b word ih =>
      rw [List.length_cons]
      unfold pulsesFrom at h
      split at h
      · rcases List.mem_cons.1 h with rfl | h
        · omega
        · have := ih h
          omega
      · have := ih h
        omega

/-- Pulses lie within the rhythm. -/
theorem mem_pulsePositions {i : Nat} {word : List Bool} (h : i ∈ pulsePositions word) :
    i < word.length := by
  have := mem_pulsesFrom h
  omega

end Partitura.Rhythm

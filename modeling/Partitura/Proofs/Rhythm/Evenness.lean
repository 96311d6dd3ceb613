import Mathlib.Data.Rat.Floor
import Partitura.Proofs.Rhythm.Length

/-!
# How even a rhythm is

Spread over steps, pulses lie as evenly as whole steps allow: from any pulse to the next one, round
the end of the rhythm too, it is the quotient of steps and pulses, rounded down or up (`spread_even`).

The division that the rhythm is built on comes to an end and never divides by zero (§1). After its
first level every word is a row of *figures*: so many rests, which is the quotient of rests and pulses,
a pulse, and behind it one rest more or none. Later levels only put such rows behind each other (§2).
Turned to its first pulse a row of figures is a row of pulses, each with its rests behind it (§3), and
there the distances of the pulses can be read off (§4).
-/

namespace Partitura.Rhythm

/-! ## §1  The division -/

/-- The levels that dividing two numbers leads to. There is no rule that divides by zero, and none
that does not come to an end. -/
inductive Divides : Nat → Nat → List Level → Prop
  | last {divisor remainder : Nat} (hpos : 0 < remainder) (hlast : divisor % remainder ≤ 1) :
      Divides divisor remainder
        [⟨divisor / remainder, true⟩, ⟨remainder, divisor % remainder ≠ 0⟩]
  | more {divisor remainder : Nat} {ls : List Level} (hpos : 0 < remainder)
      (hmore : 1 < divisor % remainder) (hrest : Divides remainder (divisor % remainder) ls) :
      Divides divisor remainder (⟨divisor / remainder, true⟩ :: ls)

theorem divides_levels {divisor remainder : Nat} (hpos : 0 < remainder) :
    Divides divisor remainder (levels divisor remainder) := by
  induction divisor, remainder using levels.induct with
  | case1 divisor remainder hmore ih =>
      rw [levels, dif_pos hmore]
      exact .more hpos hmore.2 (ih (by omega))
  | case2 divisor remainder hlast =>
      rw [levels, dif_neg hlast]
      exact .last hpos (by omega)

namespace Divides

variable {divisor remainder : Nat} {ls : List Level}

/-- No level of a division of the larger by the smaller leaves the last word out. -/
theorem count_pos (h : Divides divisor remainder ls) (hle : remainder ≤ divisor) :
    ∀ l ∈ ls, 0 < l.count := by
  induction h with
  | last hpos hlast =>
      intro l hl
      simp only [List.mem_cons, List.not_mem_nil, or_false] at hl
      rcases hl with rfl | rfl
      · exact Nat.div_pos hle hpos
      · exact hpos
  | more hpos hmore hrest ih =>
      intro l hl
      rcases List.mem_cons.1 hl with rfl | hl
      · exact Nat.div_pos hle hpos
      · exact ih (Nat.mod_lt _ hpos).le l hl

/-- The first two levels. There are more only if the first division leaves something over. -/
theorem exists_two (h : Divides divisor remainder ls) :
    ∃ l rest, ls = ⟨divisor / remainder, true⟩ :: l :: rest ∧ 0 < l.count ∧
      (l.follows = true ↔ divisor % remainder ≠ 0) ∧ (∀ l ∈ rest, 0 < l.count) ∧
      (divisor % remainder = 0 → rest = []) := by
  cases h with
  | last hpos hlast => exact ⟨_, [], rfl, hpos, decide_eq_true_iff, nofun, fun _ => rfl⟩
  | more hpos hmore hrest =>
      have hcount := hrest.count_pos (Nat.mod_lt _ hpos).le
      have hleft : divisor % remainder ≠ 0 := by omega
      cases hrest with
      | last hpos' hlast' =>
          refine ⟨_, _, rfl, hcount _ List.mem_cons_self, ?_, ?_, fun hnone => absurd hnone hleft⟩
          · exact iff_of_true rfl hleft
          · exact fun l hl => hcount l (List.mem_cons_of_mem _ hl)
      | more hpos' hmore' hrest' =>
          refine ⟨_, _, rfl, hcount _ List.mem_cons_self, ?_, ?_, fun hnone => absurd hnone hleft⟩
          · exact iff_of_true rfl hleft
          · exact fun l hl => hcount l (List.mem_cons_of_mem _ hl)

end Divides

/-! ## §2  Figures -/

/-- Pulses, each with `lead` rests before it and so many behind it as `tails` says. -/
def figures (lead : Nat) (tails : List Nat) : List Bool :=
  tails.flatMap fun tail => List.replicate lead false ++ true :: List.replicate tail false

theorem figures_cons (lead tail : Nat) (tails : List Nat) :
    figures lead (tail :: tails) =
      List.replicate lead false ++ true :: (List.replicate tail false ++ figures lead tails) := by
  simp [figures]

theorem figures_append (lead : Nat) (tails more : List Nat) :
    figures lead (tails ++ more) = figures lead tails ++ figures lead more := by
  simp [figures]

theorem figures_replicate (lead n : Nat) :
    figures lead (List.replicate n 0) = repeatWord n (List.replicate lead false ++ [true]) := by
  simp [figures, repeatWord, List.flatMap_replicate]

/-- A word of figures that have at most `extra` rests behind their pulses. -/
def MadeOf (lead extra : Nat) (word : List Bool) : Prop :=
  ∃ tails, tails ≠ [] ∧ (∀ tail ∈ tails, tail ≤ extra) ∧ word = figures lead tails

namespace MadeOf

variable {lead extra : Nat} {u v : List Bool}

theorem append (hu : MadeOf lead extra u) (hv : MadeOf lead extra v) :
    MadeOf lead extra (u ++ v) := by
  obtain ⟨tails, hne, hle, rfl⟩ := hu
  obtain ⟨more, _, hle', rfl⟩ := hv
  refine ⟨tails ++ more, List.append_ne_nil_of_left_ne_nil hne more, ?_, (figures_append _ _ _).symm⟩
  intro tail htail
  rcases List.mem_append.1 htail with h | h
  · exact hle tail h
  · exact hle' tail h

theorem repeatWord (hu : MadeOf lead extra u) {n : Nat} (hn : 0 < n) :
    MadeOf lead extra (repeatWord n u) := by
  induction n with
  | zero => exact absurd hn (lt_irrefl 0)
  | succ n ih =>
      have hstep : Rhythm.repeatWord (n + 1) u = u ++ Rhythm.repeatWord n u := by
        simp [Rhythm.repeatWord, List.replicate_succ]
      rw [hstep]
      rcases Nat.eq_zero_or_pos n with rfl | hpos
      · simpa [Rhythm.repeatWord] using hu
      · exact hu.append (ih hpos)

/-- One level puts figures behind each other. -/
theorem grow (hu : MadeOf lead extra u) (hv : MadeOf lead extra v) {l : Level} (hl : 0 < l.count) :
    MadeOf lead extra (grow (u, v) l).1 := by
  unfold Rhythm.grow
  by_cases hfollows : l.follows = true
  · simpa [hfollows] using (hu.repeatWord hl).append hv
  · simpa [hfollows] using hu.repeatWord hl

theorem foldl_grow (hu : MadeOf lead extra u) (hv : MadeOf lead extra v) {ls : List Level}
    (hls : ∀ l ∈ ls, 0 < l.count) : MadeOf lead extra (ls.foldl Rhythm.grow (u, v)).1 := by
  induction ls generalizing u v with
  | nil => exact hu
  | cons l ls ih =>
      have hcount : 0 < l.count := hls l List.mem_cons_self
      exact ih (hu.grow hv hcount) hu fun l hl => hls l (List.mem_cons_of_mem _ hl)

end MadeOf

/-- After two levels the word is made of figures. -/
theorem madeOf_second {lead extra n : Nat} (hn : 0 < n) :
    MadeOf lead extra (repeatWord n (List.replicate lead false ++ [true]) ++
      List.replicate extra false) := by
  obtain ⟨m, rfl⟩ := Nat.exists_eq_succ_of_ne_zero hn.ne'
  refine ⟨List.replicate m 0 ++ [extra], by simp, ?_, ?_⟩
  · intro tail htail
    rcases List.mem_append.1 htail with h | h
    · rw [List.eq_of_mem_replicate h]
      exact Nat.zero_le extra
    · exact (List.mem_singleton.1 h).le
  · -- The rest at the end belongs to the last figure.
    rw [figures_append, figures_replicate]
    simp [figures, repeatWord, List.replicate_succ']

/-- What is left over by a division: at most one rest more behind a pulse, and none if it comes out
even. -/
def leftOver (divisor remainder : Nat) : Nat :=
  if divisor % remainder = 0 then 0 else 1

/-- The word of a division is made of figures. -/
theorem madeOf_build {divisor remainder : Nat} (hpos : 0 < remainder) :
    MadeOf (divisor / remainder) (leftOver divisor remainder)
      (build (levels divisor remainder)) := by
  have hdivides : Divides divisor remainder (levels divisor remainder) := divides_levels hpos
  obtain ⟨l, rest, hlevels, hcount, hfollows, hrest, hnone⟩ := hdivides.exists_two
  have hfirst : grow ([false], [true]) ⟨divisor / remainder, true⟩ =
      (List.replicate (divisor / remainder) false ++ [true], [false]) := by
    simp [grow, repeatWord]
  have hsecond : (grow (List.replicate (divisor / remainder) false ++ [true], [false]) l).1 =
      repeatWord l.count (List.replicate (divisor / remainder) false ++ [true]) ++
        List.replicate (leftOver divisor remainder) false := by
    unfold grow leftOver
    by_cases hleft : divisor % remainder = 0
    · have hl : l.follows = false := by
        rw [← Bool.not_eq_true, hfollows]
        exact not_not.2 hleft
      simp [hleft, hl]
    · simp [hleft, hfollows.2 hleft]
  have hmade : MadeOf (divisor / remainder) (leftOver divisor remainder)
      (grow (List.replicate (divisor / remainder) false ++ [true], [false]) l).1 := by
    rw [hsecond]
    exact madeOf_second hcount
  rw [build, hlevels, List.foldl_cons, hfirst, List.foldl_cons]
  refine MadeOf.foldl_grow hmade ?_ hrest
  exact ⟨[0], by simp, by simp, by simp [figures]⟩

/-! ## §3  From the first pulse on -/

/-- The rests before a pulse count to the pulse before it. -/
theorem figures_turned (lead tail : Nat) (tails : List Nat) :
    true :: (List.replicate tail false ++ figures lead tails) ++ List.replicate lead false =
      figures 0 ((tail :: tails).map (· + lead)) := by
  induction tails generalizing tail with
  | nil => simp [figures]
  | cons next tails ih =>
      rw [List.map_cons, figures_cons 0, ← ih next, figures_cons, List.replicate_add]
      simp only [List.replicate_zero, List.nil_append, List.cons_append, List.append_assoc]

theorem fromFirstPulse_figures (lead tail : Nat) (tails : List Nat) :
    fromFirstPulse (figures lead (tail :: tails)) = figures 0 ((tail :: tails).map (· + lead)) := by
  have hrests : ∀ b ∈ List.replicate lead false, (!b) = true := by
    intro b hb
    rw [List.eq_of_mem_replicate hb]
    rfl
  rw [← figures_turned, fromFirstPulse, figures_cons, List.dropWhile_append_of_pos hrests,
    List.takeWhile_append_of_pos hrests]
  simp

/-- A rhythm is a row of pulses with rests behind them, whose number is the quotient of rests and
pulses or, where something is left over, perhaps one more. -/
theorem exists_figures {steps pulses : Int} (hpulses : 1 ≤ pulses) (hle : pulses ≤ steps) :
    ∃ rests, rests ≠ [] ∧ spread steps pulses = figures 0 rests ∧
      ∀ n ∈ rests, (steps - pulses).toNat / pulses.toNat ≤ n ∧
        n ≤ (steps - pulses).toNat / pulses.toNat +
          leftOver (steps - pulses).toNat pulses.toNat := by
  unfold spread
  rw [if_neg (by omega), if_neg (by omega)]
  by_cases hfull : steps ≤ pulses
  · -- A pulse for every step: nothing is divided.
    have hnone : (steps - pulses).toNat = 0 := by omega
    refine ⟨List.replicate steps.toNat 0, ?_, ?_, ?_⟩
    · rw [ne_eq, List.replicate_eq_nil_iff]
      omega
    · rw [if_pos hfull, figures_replicate]
      simp [repeatWord]
    · intro n hn
      rw [List.eq_of_mem_replicate hn, hnone]
      simp
  · rw [if_neg hfull]
    have hpositive : 0 < pulses.toNat := by omega
    obtain ⟨tails, hne, hextra, hword⟩ : MadeOf ((steps - pulses).toNat / pulses.toNat)
        (leftOver (steps - pulses).toNat pulses.toNat)
        (build (levels (steps - pulses).toNat pulses.toNat)) := madeOf_build hpositive
    obtain ⟨tail, tails, rfl⟩ := List.exists_cons_of_ne_nil hne
    refine ⟨(tail :: tails).map (· + (steps - pulses).toNat / pulses.toNat), by simp, ?_, ?_⟩
    · rw [hword, fromFirstPulse_figures]
    · intro n hn
      obtain ⟨extra, hmem, rfl⟩ := List.mem_map.1 hn
      have := hextra extra hmem
      omega

theorem addsUp_count : AddsUp (List.count true) :=
  ⟨rfl, fun _ _ => List.count_append⟩

theorem count_fromFirstPulse (word : List Bool) : (fromFirstPulse word).count true = word.count true := by
  have hsplit := congrArg (List.count true) (List.takeWhile_append_dropWhile (p := (!·)) (l := word))
  rw [List.count_append] at hsplit
  rw [fromFirstPulse, List.count_append]
  omega

/-- There are so many pulses as asked for. -/
theorem count_spread {steps pulses : Int} (hpulses : 1 ≤ pulses) (hle : pulses ≤ steps) :
    (spread steps pulses).count true = pulses.toNat := by
  unfold spread
  rw [if_neg (by omega), if_neg (by omega)]
  by_cases hfull : steps ≤ pulses
  · rw [if_pos hfull, List.count_replicate_self]
    omega
  · rw [if_neg hfull, count_fromFirstPulse, build, addsUp_count.foldl_grow (by omega)]
    simp

/-! ## §4  Distances -/

/-- The next pulse after the one at `i` comes `distance` steps later, the rhythm going round. -/
structure NextPulse (word : List Bool) (i distance : Nat) : Prop where
  here : word[i]? = some true
  later : 0 < distance
  there : word[(i + distance) % word.length]? = some true
  between : ∀ d, 0 < d → d < distance → word[(i + d) % word.length]? = some false

theorem NextPulse.unique {word : List Bool} {i d e : Nat} (hd : NextPulse word i d)
    (he : NextPulse word i e) : d = e := by
  -- A pulse that is nearer than the next one would be a rest.
  have hclash {d e : Nat} (hd : NextPulse word i d) (he : NextPulse word i e) : ¬ d < e := by
    intro hlt
    have hrest := he.between d hd.later hlt
    rw [hd.there] at hrest
    cases hrest
  exact le_antisymm (not_lt.1 (hclash he hd)) (not_lt.1 (hclash hd he))

/-- A pulse in a row of pulses stands where its own rests begin. -/
theorem exists_of_getElem?_figures {rests : List Nat} {i : Nat}
    (h : (figures 0 rests)[i]? = some true) :
    ∃ before n after, rests = before ++ n :: after ∧ i = (figures 0 before).length := by
  induction rests generalizing i with
  | nil => simp [figures] at h
  | cons n rests ih =>
      rcases Nat.eq_zero_or_pos i with rfl | hpos
      · exact ⟨[], n, rests, rfl, rfl⟩
      · obtain ⟨j, rfl⟩ := Nat.exists_eq_succ_of_ne_zero hpos.ne'
        rw [figures_cons, List.replicate_zero, List.nil_append, List.getElem?_cons_succ] at h
        by_cases hj : j < n
        · rw [List.getElem?_append_left (by simpa using hj)] at h
          simp [hj] at h
        · rw [List.getElem?_append_right (by simpa using hj), List.length_replicate] at h
          obtain ⟨before, m, after, hrests, hplace⟩ := ih h
          refine ⟨n :: before, m, after, by rw [hrests, List.cons_append], ?_⟩
          rw [figures_cons]
          simp
          omega

theorem getElem?_zero_figures {rests : List Nat} (h : rests ≠ []) :
    (figures 0 rests)[0]? = some true := by
  obtain ⟨n, rests, rfl⟩ := List.exists_cons_of_ne_nil h
  rw [figures_cons]
  rfl

/-- The next pulse comes after the rests behind a pulse. -/
theorem nextPulse_figures (before : List Nat) (n : Nat) (after : List Nat) :
    NextPulse (figures 0 (before ++ n :: after)) (figures 0 before).length (n + 1) := by
  have hword : figures 0 (before ++ n :: after) =
      figures 0 before ++ true :: (List.replicate n false ++ figures 0 after) := by
    rw [figures_append, figures_cons]
    rfl
  have hlength : (figures 0 (before ++ n :: after)).length =
      (figures 0 before).length + (n + 1) + (figures 0 after).length := by
    simp only [hword, List.length_append, List.length_cons, List.length_replicate]
    omega
  refine ⟨?_, Nat.succ_pos n, ?_, ?_⟩
  · rw [hword, List.getElem?_append_right le_rfl, Nat.sub_self]
    rfl
  · by_cases hafter : after = []
    · -- Behind the last pulse the rhythm begins again.
      have hend : (figures 0 before).length + (n + 1) =
          (figures 0 (before ++ n :: after)).length := by
        rw [hlength, hafter]
        rfl
      rw [hend, Nat.mod_self]
      exact getElem?_zero_figures (by simp)
    · have hinside : 0 < (figures 0 after).length := by
        refine List.length_pos_of_ne_nil fun hnil => ?_
        have hhead := getElem?_zero_figures hafter
        rw [hnil] at hhead
        cases hhead
      rw [Nat.mod_eq_of_lt (by omega), hword, List.getElem?_append_right (by omega),
        Nat.add_sub_cancel_left, List.getElem?_cons_succ,
        List.getElem?_append_right (by simp), List.length_replicate, Nat.sub_self]
      exact getElem?_zero_figures hafter
  · intro d hpos hd
    obtain ⟨e, rfl⟩ := Nat.exists_eq_succ_of_ne_zero hpos.ne'
    have he : e < n := by omega
    rw [Nat.mod_eq_of_lt (by omega), hword, List.getElem?_append_right (by omega),
      Nat.add_sub_cancel_left, List.getElem?_cons_succ, List.getElem?_append_left (by simpa using he)]
    simp [he]

/-- Every pulse in a row of pulses has a next one, and the steps between are its own rests and
itself. -/
theorem exists_nextPulse {rests : List Nat} {i : Nat} (h : (figures 0 rests)[i]? = some true) :
    ∃ n ∈ rests, NextPulse (figures 0 rests) i (n + 1) := by
  obtain ⟨before, n, after, rfl, rfl⟩ := exists_of_getElem?_figures h
  exact ⟨n, by simp, nextPulse_figures before n after⟩

/-! ## §5  Turning -/

/-- A slot of a turned sequence is the one so many places before, round the beginning. -/
theorem getElem?_rotate {β : Type} {xs : List β} (rotation : Int) {i : Nat} (hi : i < xs.length) :
    (rotate xs rotation)[i]? = xs[(((i : Int) - rotation) % xs.length).toNat]? := by
  have hpos : (0 : Int) < xs.length := by omega
  have hlow : 0 ≤ rotation % xs.length := Int.emod_nonneg _ hpos.ne'
  have hhigh : rotation % xs.length < xs.length := Int.emod_lt_of_pos _ hpos
  have hshift : ((i : Int) - rotation) % xs.length = (i - rotation % xs.length) % xs.length := by
    rw [Int.sub_emod, Int.sub_emod i (rotation % xs.length), Int.emod_emod]
  unfold rotate
  dsimp only
  rw [hshift]
  generalize rotation % (xs.length : Int) = shift at hlow hhigh
  by_cases hwrapped : i < shift.toNat
  · -- What has been pushed over the end comes first.
    have hplace : ((i : Int) - shift) % xs.length = i - shift + xs.length := by
      rw [← Int.add_emod_right, Int.emod_eq_of_lt (by omega) (by omega)]
    rw [List.getElem?_append_left (by rw [List.length_drop]; omega), List.getElem?_drop, hplace]
    congr 1
    omega
  · have hplace : ((i : Int) - shift) % xs.length = i - shift :=
      Int.emod_eq_of_lt (by omega) (by omega)
    rw [List.getElem?_append_right (by rw [List.length_drop]; omega), List.length_drop,
      List.getElem?_take_of_lt (by omega), hplace]
    congr 1
    omega

/-! ## §6  Even rhythms -/

/-- So many pulses in so many steps, the first one at once, and from each to the next one, round the
end too, as many steps as the quotient of the two numbers, rounded down or up. -/
structure EvenlySpread (steps pulses : Int) (word : List Bool) : Prop where
  slots : (word.length : Int) = steps
  count : (word.count true : Int) = pulses
  first : word.head? = some true
  next : ∀ i, word[i]? = some true → ∃ distance, NextPulse word i distance
  distances : ∀ i distance, NextPulse word i distance →
    (distance : Int) = ⌊(steps / pulses : ℚ)⌋ ∨ (distance : Int) = ⌈(steps / pulses : ℚ)⌉

/-- A quotient rounded up is the quotient rounded down, and one more if something is left over. -/
theorem ceil_quotient (r : ℕ) {p : ℕ} (hp : 0 < p) :
    ⌈(r / p : ℚ)⌉ = (r / p + leftOver r p : ℕ) := by
  have hceil := Rat.ceil_intCast_div_natCast r p
  rw [Int.cast_natCast, Int.neg_ediv, Int.sign_eq_one_of_pos (by omega)] at hceil
  rw [hceil]
  unfold leftOver
  by_cases hdvd : p ∣ r
  · rw [if_pos (Int.natCast_dvd_natCast.2 hdvd), if_pos (Nat.mod_eq_zero_of_dvd hdvd)]
    push_cast
    ring
  · rw [if_neg fun h => hdvd (Int.natCast_dvd_natCast.1 h),
      if_neg fun h => hdvd (Nat.dvd_of_mod_eq_zero h)]
    push_cast
    ring

/-- The quotient of steps and pulses, rounded down and up, from the division of rests and pulses. -/
theorem floor_ceil_quotient {steps pulses : Int} (hpulses : 1 ≤ pulses) (hle : pulses ≤ steps) :
    ⌊(steps / pulses : ℚ)⌋ = ((steps - pulses).toNat / pulses.toNat + 1 : ℕ) ∧
      ⌈(steps / pulses : ℚ)⌉ = ((steps - pulses).toNat / pulses.toNat +
        leftOver (steps - pulses).toNat pulses.toNat + 1 : ℕ) := by
  lift pulses to ℕ using by omega with p
  obtain ⟨r, hr⟩ := Int.eq_ofNat_of_zero_le (sub_nonneg.2 hle)
  obtain rfl : steps = r + p := by omega
  have hp : 0 < p := by omega
  have hp' : (p : ℚ) ≠ 0 := by exact_mod_cast hp.ne'
  have hquotient : (((r + p : ℤ) : ℚ) / (p : ℤ)) = r / p + 1 := by
    push_cast
    rw [add_div, div_self hp']
  rw [hquotient, Int.floor_add_one, Int.ceil_add_one, Rat.floor_natCast_div_natCast,
    ceil_quotient r hp, hr, Int.toNat_natCast, Int.toNat_natCast]
  exact ⟨by push_cast; rfl, by push_cast; rfl⟩

theorem evenlySpread_spread {steps pulses : Int} (hpulses : 1 ≤ pulses) (hle : pulses ≤ steps) :
    EvenlySpread steps pulses (spread steps pulses) := by
  obtain ⟨rests, hne, hword, hrests⟩ := exists_figures hpulses hle
  refine ⟨?_, ?_, ?_, ?_, ?_⟩
  · rw [length_spread]
    omega
  · rw [count_spread hpulses hle]
    omega
  · rw [hword, List.head?_eq_getElem?]
    exact getElem?_zero_figures hne
  · intro i hi
    rw [hword] at hi ⊢
    obtain ⟨n, _, hnext⟩ := exists_nextPulse hi
    exact ⟨n + 1, hnext⟩
  · intro i distance hnext
    rw [hword] at hnext
    obtain ⟨n, hn, hnext'⟩ := exists_nextPulse hnext.here
    obtain ⟨hlow, hhigh⟩ := hrests n hn
    obtain ⟨hfloor, hceil⟩ := floor_ceil_quotient hpulses hle
    rw [hnext.unique hnext', hfloor, hceil]
    have hleft : leftOver (steps - pulses).toNat pulses.toNat ≤ 1 := by
      unfold leftOver
      split <;> omega
    omega

/-- **Even rhythms are even.** The division that they are built on ends without dividing by zero;
there are so many slots and pulses as asked for, the first slot is a pulse, and pulses are as far
apart as the quotient says, rounded down or up. Turning moves every slot to the right, round the
end. -/
theorem spread_even {pulses steps : Int} (hpulses : 1 ≤ pulses) (hle : pulses ≤ steps) :
    (pulses < steps → Divides (steps - pulses).toNat pulses.toNat
      (levels (steps - pulses).toNat pulses.toNat)) ∧
    EvenlySpread steps pulses (spread steps pulses) ∧
    ∀ rotation : Int,
      (euclidean pulses steps rotation).length = (spread steps pulses).length ∧
      ∀ i < (spread steps pulses).length, (euclidean pulses steps rotation)[i]? =
        (spread steps pulses)[(((i : Int) - rotation) % steps).toNat]? := by
  have heven := evenlySpread_spread hpulses hle
  refine ⟨fun _ => divides_levels (by omega), heven, fun rotation => ⟨length_rotate _ _, ?_⟩⟩
  intro i hi
  rw [euclidean, getElem?_rotate rotation hi, heven.slots]

example : spread 8 3 = [true, false, false, true, false, false, true, false] := by cbv

/-- Three pulses in eight steps. -/
theorem tresillo_even : (1 : Int) ≤ 3 ∧ (3 : Int) ≤ 8 ∧ Divides 5 3 (levels 5 3) ∧
    EvenlySpread 8 3 (spread 8 3) := by
  have hpulses : (1 : Int) ≤ 3 := by decide
  have hle : (3 : Int) ≤ 8 := by decide
  obtain ⟨hdivides, heven, _⟩ := spread_even hpulses hle
  exact ⟨hpulses, hle, hdivides (by decide), heven⟩

end Partitura.Rhythm

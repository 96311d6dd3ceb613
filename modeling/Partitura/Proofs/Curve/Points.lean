import Mathlib.Tactic.Linarith
import Mathlib.Tactic.NormNum.Basic
import Partitura.Curve.Automation
import Partitura.Proofs.Sorting

/-!
# Straight lines through points

An automation may be given by points in any order, several of them at one time. Read in the order of
their times, they bracket every position between the first and the last of them: the first stretch that
holds the position begins before it (`exists_stretch`). So the stretch that is found always takes time,
the division by its length is safe, and the value that stands in for a stretch that is not found is never
used (`Reaches`, `throughPoints_reaches`).

All that is known of the values follows from there (`straight_lines_through`): they stay between the least
and the greatest of the points, they do not depend on the order in which points of different times are
written, they meet every such point, and they rise if the points do.
-/

namespace Partitura

/-- Members of a list that stand in order, or one member twice. -/
theorem rel_of_getElem? {β : Type} {R : β → β → Prop} {xs : List β}
    (h : xs.Pairwise R) (hrefl : ∀ x, R x x) {i j : ℕ} {x y : β} (hij : i ≤ j)
    (hx : xs[i]? = some x) (hy : xs[j]? = some y) : R x y := by
  obtain ⟨hi, rfl⟩ := List.getElem?_eq_some_iff.1 hx
  obtain ⟨hj, rfl⟩ := List.getElem?_eq_some_iff.1 hy
  rcases hij.eq_or_lt with rfl | hlt
  · exact hrefl _
  · exact List.pairwise_iff_getElem.1 h i j hi hj hlt

namespace Automation

variable [Elementary] {points ordered : List (CurvePoint Rat)} {lower upper p : CurvePoint Rat} {t : Rat}

/-! ## §1  One stretch -/

/-- Two points with a position behind the first one and not behind the second. -/
structure Brackets (lower upper : CurvePoint Rat) (t : Rat) : Prop where
  begins : lower.time < t
  ends : t ≤ upper.time

/-- How far on its way from the first point to the second a position is. -/
def share (lower upper : CurvePoint Rat) (t : Rat) : Rat :=
  (t - lower.time) / (upper.time - lower.time)

namespace Brackets

omit [Elementary] in
theorem length_pos (h : Brackets lower upper t) : 0 < upper.time - lower.time :=
  sub_pos.2 (h.begins.trans_le h.ends)

omit [Elementary] in
theorem share_pos (h : Brackets lower upper t) : 0 < share lower upper t :=
  div_pos (sub_pos.2 h.begins) h.length_pos

omit [Elementary] in
theorem share_le_one (h : Brackets lower upper t) : share lower upper t ≤ 1 :=
  (div_le_one h.length_pos).2 (sub_le_sub_right h.ends lower.time)

/-- A stretch that brackets a position takes time, so that its length divides. -/
theorem between_eq (h : Brackets lower upper t) :
    between lower upper t = lower.value + share lower upper t * (upper.value - lower.value) := by
  have hne : ¬ (upper.time == lower.time) = true := by
    rw [beq_iff_eq]
    exact (h.begins.trans_le h.ends).ne'
  unfold between share
  rw [if_neg hne]

theorem between_end (h : Brackets lower upper upper.time) :
    between lower upper upper.time = upper.value := by
  rw [h.between_eq, share, div_self h.length_pos.ne', one_mul, add_sub_cancel]

/-- Between two points the value lies between theirs. -/
theorem min_le_between (h : Brackets lower upper t) :
    min lower.value upper.value ≤ between lower upper t := by
  have hlower : min lower.value upper.value ≤ lower.value := min_le_left _ _
  have hupper : min lower.value upper.value ≤ upper.value := min_le_right _ _
  have hshare := h.share_pos
  have hshare' := h.share_le_one
  rw [h.between_eq]
  nlinarith

theorem between_le_max (h : Brackets lower upper t) :
    between lower upper t ≤ max lower.value upper.value := by
  have hlower : lower.value ≤ max lower.value upper.value := le_max_left _ _
  have hupper : upper.value ≤ max lower.value upper.value := le_max_right _ _
  have hshare := h.share_pos
  have hshare' := h.share_le_one
  rw [h.between_eq]
  nlinarith

/-- On a line that does not fall, a later position has no lesser value. -/
theorem between_mono {t' : Rat} (h : Brackets lower upper t) (h' : Brackets lower upper t')
    (hle : t ≤ t') (hvalues : lower.value ≤ upper.value) :
    between lower upper t ≤ between lower upper t' := by
  have hshare : share lower upper t ≤ share lower upper t' :=
    div_le_div_of_nonneg_right (sub_le_sub_right hle lower.time) h.length_pos.le
  rw [h.between_eq, h'.between_eq]
  exact add_le_add_right (mul_le_mul_of_nonneg_right hshare (sub_nonneg.2 hvalues)) lower.value

end Brackets

/-! ## §2  Finding the stretch -/

/-- Behind a point and not behind all that follow, the search finds two neighbours that bracket the
position. Points need not be in order for that. -/
theorem exists_stretch {rest : List (CurvePoint Rat)} (hp : p.time < t)
    (hlast : ∃ q ∈ rest, t ≤ q.time) :
    ∃ i lower upper, (p :: rest)[i]? = some lower ∧ (p :: rest)[i + 1]? = some upper ∧
      Brackets lower upper t ∧ inStretch? t (p :: rest) = some (between lower upper t) := by
  induction rest generalizing p with
  | nil =>
      obtain ⟨q, hq, _⟩ := hlast
      cases hq
  | cons q rest ih =>
      by_cases hend : t ≤ q.time
      · exact ⟨0, p, q, rfl, rfl, ⟨hp, hend⟩, by simp [inStretch?, hp.le, hend]⟩
      · -- The stretch ends before the position, and the search goes on behind it.
        have hlater : ∃ q' ∈ rest, t ≤ q'.time := by
          obtain ⟨q', hq', hle⟩ := hlast
          rcases List.mem_cons.1 hq' with rfl | hq'
          · exact absurd hle hend
          · exact ⟨q', hq', hle⟩
        obtain ⟨i, lower, upper, hlower, hupper, hbrackets, hfound⟩ := ih (not_le.1 hend) hlater
        refine ⟨i + 1, lower, upper, hlower, hupper, hbrackets, ?_⟩
        rw [inStretch?, if_neg (by simp [hend]), hfound]

/-- How the value at a position comes about: it is held up to the first point, held from the last one
on, or found between two neighbours that bracket the position. There is no rule for a stretch that takes
no time, and none for a position that no stretch holds. -/
inductive Reaches (ordered : List (CurvePoint Rat)) (t : Rat) : Rat → Prop
  | before {first : CurvePoint Rat} (hfirst : ordered[0]? = some first) (h : t ≤ first.time) :
      Reaches ordered t first.value
  | after {last : CurvePoint Rat} (hlast : ordered[ordered.length - 1]? = some last)
      (h : last.time ≤ t) : Reaches ordered t last.value
  | inside {i : ℕ} {lower upper : CurvePoint Rat} (hlower : ordered[i]? = some lower)
      (hupper : ordered[i + 1]? = some upper) (h : Brackets lower upper t)
      (hfound : inStretch? t ordered = some (between lower upper t)) :
      Reaches ordered t (lower.value + share lower upper t * (upper.value - lower.value))

/-- Every position has a value, and it comes about in one of these ways. -/
theorem throughPoints_reaches (h : points ≠ []) (t : Rat) :
    ∃ v, throughPoints points t = .ok v ∧ Reaches (inOrder points) t v := by
  have hperm : (inOrder points).Perm points := List.mergeSort_perm _ _
  unfold throughPoints
  cases hordered : inOrder points with
  | nil =>
      rw [hordered] at hperm
      exact absurd hperm.nil_eq.symm h
  | cons first rest =>
      obtain ⟨last, hlast⟩ : ∃ last, (first :: rest).getLast? = some last :=
        ⟨_, List.getLast?_cons⟩
      have hlast' : (first :: rest)[(first :: rest).length - 1]? = some last := by
        rw [← List.getLast?_eq_getElem?, hlast]
      dsimp only
      rw [hlast]
      dsimp only
      split
      · next hbefore => exact ⟨_, rfl, .before rfl hbefore⟩
      · next hbehind =>
          split
          · next hafter => exact ⟨_, rfl, .after hlast' hafter⟩
          · next hinside =>
              rw [not_le] at hbehind hinside
              -- The last point is not the first one, for it lies behind the position.
              have hrest : ∃ q ∈ rest, t ≤ q.time := by
                rcases List.mem_cons.1 (List.mem_of_getLast? hlast) with rfl | hmem
                · exact absurd hbehind (not_lt.2 hinside.le)
                · exact ⟨last, hmem, hinside.le⟩
              obtain ⟨i, lower, upper, hlower, hupper, hbrackets, hfound⟩ := exists_stretch hbehind hrest
              refine ⟨_, rfl, ?_⟩
              rw [hfound, Option.getD_some, hbrackets.between_eq]
              exact .inside hlower hupper hbrackets hfound

/-! ## §3  What the values are -/

namespace Reaches

variable {v v' t' : Rat}

/-- No value is less than that of every point. -/
theorem exists_le (h : Reaches ordered t v) : ∃ p ∈ ordered, p.value ≤ v := by
  cases h with
  | before hfirst _ => exact ⟨_, List.mem_of_getElem? hfirst, le_rfl⟩
  | after hlast _ => exact ⟨_, List.mem_of_getElem? hlast, le_rfl⟩
  | inside hlower hupper h _ =>
      rw [← h.between_eq]
      rcases min_le_iff.1 h.min_le_between with hle | hle
      · exact ⟨_, List.mem_of_getElem? hlower, hle⟩
      · exact ⟨_, List.mem_of_getElem? hupper, hle⟩

/-- No value is greater than that of every point. -/
theorem exists_ge (h : Reaches ordered t v) : ∃ p ∈ ordered, v ≤ p.value := by
  cases h with
  | before hfirst _ => exact ⟨_, List.mem_of_getElem? hfirst, le_rfl⟩
  | after hlast _ => exact ⟨_, List.mem_of_getElem? hlast, le_rfl⟩
  | inside hlower hupper h _ =>
      rw [← h.between_eq]
      rcases le_max_iff.1 h.between_le_max with hle | hle
      · exact ⟨_, List.mem_of_getElem? hlower, hle⟩
      · exact ⟨_, List.mem_of_getElem? hupper, hle⟩

/-- At the time of a point that shares it with no other the value is that of the point. -/
theorem eq_value (hascending : ordered.Pairwise fun p q => p.time ≤ q.time)
    (halone : ∀ q ∈ ordered, q.time = p.time → q = p) (hp : p ∈ ordered)
    (h : Reaches ordered p.time v) : v = p.value := by
  obtain ⟨j, hj⟩ := List.mem_iff_getElem?.1 hp
  have hbefore {i : ℕ} {q : CurvePoint Rat} (hle : i ≤ j) (hq : ordered[i]? = some q) :
      q.time ≤ p.time := rel_of_getElem? hascending (fun _ => le_rfl) hle hq hj
  have hafter {i : ℕ} {q : CurvePoint Rat} (hle : j ≤ i) (hq : ordered[i]? = some q) :
      p.time ≤ q.time := rel_of_getElem? hascending (fun _ => le_rfl) hle hj hq
  cases h with
  | before hfirst hle =>
      rw [halone _ (List.mem_of_getElem? hfirst) (le_antisymm (hbefore (Nat.zero_le j) hfirst) hle)]
  | after hlast hle =>
      have hj' : j ≤ ordered.length - 1 :=
        Nat.le_pred_of_lt (List.getElem?_eq_some_iff.1 hj).1
      rw [halone _ (List.mem_of_getElem? hlast) (le_antisymm hle (hafter hj' hlast))]
  | @inside i lower upper hlower hupper h _ =>
      -- The point does not stand before the end of the stretch, so it is that end.
      have hi : i + 1 ≤ j := by
        by_contra hlt
        exact absurd h.begins (not_lt.2 (hafter (by omega) hlower))
      obtain rfl := halone upper (List.mem_of_getElem? hupper)
        (le_antisymm (hbefore hi hupper) h.ends)
      rw [← h.between_eq, h.between_end]

/-- If the points rise in the order of their times, so do the values. -/
theorem mono (hascending : ordered.Pairwise fun p q => p.time ≤ q.time)
    (hrising : ordered.Pairwise fun p q => p.value ≤ q.value) (hlt : t < t')
    (h : Reaches ordered t v) (h' : Reaches ordered t' v') : v ≤ v' := by
  have htime {i j : ℕ} {p q : CurvePoint Rat} (hij : i ≤ j) (hp : ordered[i]? = some p)
      (hq : ordered[j]? = some q) : p.time ≤ q.time :=
    rel_of_getElem? hascending (fun _ => le_rfl) hij hp hq
  have hvalue {i j : ℕ} {p q : CurvePoint Rat} (hij : i ≤ j) (hp : ordered[i]? = some p)
      (hq : ordered[j]? = some q) : p.value ≤ q.value :=
    rel_of_getElem? hrising (fun _ => le_rfl) hij hp hq
  have hend {i : ℕ} {p : CurvePoint Rat} (hp : ordered[i]? = some p) : i ≤ ordered.length - 1 :=
    Nat.le_pred_of_lt (List.getElem?_eq_some_iff.1 hp).1
  cases h with
  | before hfirst hle =>
      -- The first point is the least.
      obtain ⟨p, hp, hle'⟩ := h'.exists_le
      obtain ⟨i, hi⟩ := List.mem_iff_getElem?.1 hp
      exact (hvalue (Nat.zero_le i) hfirst hi).trans hle'
  | after hlast hle =>
      cases h' with
      | before hfirst hle' =>
          exact absurd hlt (not_lt.2 (hle'.trans ((htime (Nat.zero_le _) hfirst hlast).trans hle)))
      | after hlast' _ => exact hvalue le_rfl hlast hlast'
      | inside hlower hupper h _ =>
          exact absurd hlt (not_lt.2 (h.ends.trans ((htime (hend hupper) hupper hlast).trans hle)))
  | @inside i lower upper hlower hupper h hfound =>
      cases h' with
      | before hfirst hle =>
          exact absurd h.begins
            (not_lt.2 (hlt.le.trans (hle.trans (htime (Nat.zero_le i) hfirst hlower))))
      | after hlast _ =>
          -- The last point is the greatest.
          rw [← h.between_eq]
          exact h.between_le_max.trans
            (max_le (hvalue (hend hlower) hlower hlast) (hvalue (hend hupper) hupper hlast))
      | @inside j lower' upper' hlower' hupper' h' hfound' =>
          rw [← h.between_eq, ← h'.between_eq]
          rcases lt_trichotomy i j with hij | rfl | hji
          · -- A whole point lies between the two.
            have hle : max lower.value upper.value ≤ min lower'.value upper'.value :=
              max_le
                (le_min (hvalue hij.le hlower hlower') (hvalue (by omega) hlower hupper'))
                (le_min (hvalue hij hupper hlower') (hvalue (by omega) hupper hupper'))
            exact h.between_le_max.trans (hle.trans h'.min_le_between)
          · obtain rfl := Option.some.inj (hlower.symm.trans hlower')
            obtain rfl := Option.some.inj (hupper.symm.trans hupper')
            exact h.between_mono h' hlt.le (hvalue (Nat.le_succ i) hlower hupper)
          · exact absurd hlt (not_lt.2 (h'.ends.trans ((htime hji hupper' hlower).trans h.begins.le)))

end Reaches

/-! ## §4  All positions -/

theorem stablySorted_inOrder (points : List (CurvePoint Rat)) :
    StablySorted (·.time) points (inOrder points) := by
  refine stablySorted_mergeSort (fun p q => ?_) points
  rw [Bool.not_eq_true', decide_eq_false_iff_not]
  exact not_lt

/-- Points in the order of their times stay as they are. -/
theorem inOrder_of_ascending {points : List (CurvePoint Rat)}
    (h : points.Pairwise fun p q => p.time ≤ q.time) : inOrder points = points := by
  refine List.mergeSort_of_pairwise (h.imp fun hpq => ?_)
  rw [Bool.not_eq_true', decide_eq_false_iff_not]
  exact not_lt.2 hpq

omit [Elementary] in
/-- Points of different times are told apart by them. -/
theorem eq_of_time_eq (hdistinct : (points.map (·.time)).Nodup) {p q : CurvePoint Rat}
    (hp : p ∈ points) (hq : q ∈ points) (h : p.time = q.time) : p = q :=
  List.inj_on_of_nodup_map hdistinct hp hq h

/-- Points of different times have one order. -/
theorem inOrder_eq_of_perm (hdistinct : (points.map (·.time)).Nodup)
    {written : List (CurvePoint Rat)} (hperm : written.Perm points) :
    inOrder written = inOrder points := by
  have hsorted := stablySorted_inOrder points
  have hsorted' := stablySorted_inOrder written
  refine (hsorted'.perm.trans (hperm.trans hsorted.perm.symm)).eq_of_pairwise ?_
    hsorted'.ascending hsorted.ascending
  intro p q hp hq hpq hqp
  exact eq_of_time_eq hdistinct (hperm.mem_iff.1 (hsorted'.mem_iff.1 hp)) (hsorted.mem_iff.1 hq)
    (le_antisymm hpq hqp)

/-- **Straight lines through points.** At every position there is a value. It is held before the first
point and after the last, and comes else from a stretch that takes time and holds the position, so that
nothing is divided by zero and nothing need stand in for a stretch. It lies between the values of two of
the points. If the points have different times, the order in which they are written does not matter, and
the lines meet every point. If the points do not fall in the order of their times, those of one time in
the order in which they are written, neither do the values from one position to a later one. -/
theorem straight_lines_through {points : List (CurvePoint Rat)} (h : points ≠ []) :
    StablySorted (·.time) points (inOrder points) ∧
    (∀ t, ∃ v, throughPoints points t = .ok v ∧ Reaches (inOrder points) t v ∧
      (∃ p ∈ points, p.value ≤ v) ∧ ∃ p ∈ points, v ≤ p.value) ∧
    ((points.map (·.time)).Nodup →
      (∀ written, written.Perm points → ∀ t, throughPoints written t = throughPoints points t) ∧
      ∀ p ∈ points, throughPoints points p.time = .ok p.value) ∧
    ((inOrder points).Pairwise (fun p q => p.value ≤ q.value) →
      ∀ t t' v v', t ≤ t' → throughPoints points t = .ok v → throughPoints points t' = .ok v' →
        v ≤ v') := by
  have hsorted := stablySorted_inOrder points
  refine ⟨hsorted, fun t => ?_, fun hdistinct => ⟨fun written hperm t => ?_, fun p hp => ?_⟩, ?_⟩
  · obtain ⟨v, hv, hreaches⟩ := throughPoints_reaches h t
    obtain ⟨p, hp, hle⟩ := hreaches.exists_le
    obtain ⟨q, hq, hge⟩ := hreaches.exists_ge
    exact ⟨v, hv, hreaches, ⟨p, hsorted.mem_iff.1 hp, hle⟩, q, hsorted.mem_iff.1 hq, hge⟩
  · unfold throughPoints
    rw [inOrder_eq_of_perm hdistinct hperm]
  · obtain ⟨v, hv, hreaches⟩ := throughPoints_reaches h p.time
    have halone : ∀ q ∈ inOrder points, q.time = p.time → q = p := fun q hq htime =>
      eq_of_time_eq hdistinct (hsorted.mem_iff.1 hq) hp htime
    rw [hv, hreaches.eq_value hsorted.ascending halone (hsorted.mem_iff.2 hp)]
  · intro hrising t t' v v' hle hv hv'
    rcases hle.eq_or_lt with rfl | hlt
    · exact (Except.ok.inj (hv.symm.trans hv')).le
    · obtain ⟨w, hw, hreaches⟩ := throughPoints_reaches h t
      obtain ⟨w', hw', hreaches'⟩ := throughPoints_reaches h t'
      obtain rfl := Except.ok.inj (hv.symm.trans hw)
      obtain rfl := Except.ok.inj (hv'.symm.trans hw')
      exact hreaches.mono hsorted.ascending hrising hlt hreaches'

/-- A rise that is written from its end to its start. -/
def rise : List (CurvePoint Rat) :=
  [⟨1, 120⟩, ⟨1 / 2, 80⟩, ⟨0, 60⟩]

omit [Elementary] in
/-- The theorem at work: the rise goes through its middle, can be written the other way round, and does
not fall between two positions. -/
theorem rise_through_middle : ∃ _ : Elementary, rise ≠ [] ∧ (rise.map (·.time)).Nodup ∧
    (inOrder rise).Pairwise (fun p q => p.value ≤ q.value) ∧
    throughPoints rise (1 / 2) = .ok 80 ∧
    throughPoints rise.reverse (3 / 4) = throughPoints rise (3 / 4) ∧
    ∃ v v', throughPoints rise (1 / 4) = .ok v ∧ throughPoints rise (3 / 4) = .ok v' ∧ v ≤ v' := by
  let _ := Elementary.coarse
  have hne : rise ≠ [] := List.cons_ne_nil _ _
  have hdistinct : (rise.map (·.time)).Nodup := by
    decide +kernel
  have hrising : (inOrder rise).Pairwise fun p q => p.value ≤ q.value := by
    have hback : rise.reverse.Pairwise fun p q => p.time ≤ q.time ∧ p.value ≤ q.value := by
      simp only [rise, List.reverse_cons, List.reverse_nil, List.nil_append, List.cons_append,
        List.pairwise_cons]
      norm_num
    rw [← inOrder_eq_of_perm hdistinct (List.reverse_perm rise),
      inOrder_of_ascending (hback.imp And.left)]
    exact hback.imp And.right
  obtain ⟨_, hvalues, hpoints, hmono⟩ := straight_lines_through hne
  obtain ⟨hwritten, hmeets⟩ := hpoints hdistinct
  obtain ⟨v, hv, _⟩ := hvalues (1 / 4)
  obtain ⟨v', hv', _⟩ := hvalues (3 / 4)
  have hmem : (⟨1 / 2, 80⟩ : CurvePoint Rat) ∈ rise := List.mem_cons_of_mem _ List.mem_cons_self
  exact ⟨_, hne, hdistinct, hrising, hmeets _ hmem, hwritten _ (List.reverse_perm rise) _, v, v', hv, hv',
    hmono hrising _ _ v v' (by norm_num) hv hv'⟩

end Automation

end Partitura

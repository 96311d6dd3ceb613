import Partitura.Number.Exact
import Partitura.Proofs.Faults

/-!
# Choices that can always be made

A member can be drawn from any list that has one, and an option by its weight from any list of options
whose weights are numbers (`stops_choice`, `stops_weighted`). Weights that can be added up are numbers,
all of them (`Weight.number_of_sum`).

Weights are counted exactly.
-/

namespace Partitura

variable {β : Type} {P : Fault → Prop}

/-! ## §1  Members of a list -/

/-- What is drawn below a number is below it, even when the draw is given up. -/
theorem Twister.below_lt (t : Twister) {n : Nat} (h : 0 < n) : (t.below n).1 < n := by
  have hfrom (bits fuel : Nat) (t : Twister) : (belowFrom n bits fuel t).1 < n := by
    induction fuel generalizing t with
    | zero => exact h
    | succ fuel ih =>
        unfold belowFrom
        dsimp only
        split
        · next hbelow => exact hbelow
        · exact ih _
  exact hfrom _ _ t

theorem Draw.stops_choice {xs : List β} (hnone : xs = [] → P .emptyChoice) :
    Draw.StopsWith P (Draw.choice xs) := by
  unfold Draw.choice
  split
  · next hempty => exact .throw_bind (hnone (List.isEmpty_iff.1 hempty)) _
  · next hsome =>
      have hlength : 0 < xs.length := List.length_pos_iff.2 fun hnil => hsome (List.isEmpty_iff.2 hnil)
      refine (Draw.StopsWith.ofStream _).bind_of_yields fun i hi => ?_
      obtain ⟨t, rfl⟩ := hi.of_stream
      rw [List.getElem?_eq_getElem (t.below_lt hlength)]
      exact .pure _

/-- What is drawn from a list is one of its members. -/
theorem Draw.Yields.mem_of_choice {xs : List β} {x : β} (h : (Draw.choice xs).Yields x) : x ∈ xs := by
  unfold Draw.choice at h
  split at h
  · obtain ⟨t, t', h⟩ := h
    cases h
  · obtain ⟨i, -, h⟩ := Draw.Yields.of_bind h
    split at h
    · next hx =>
        rw [← h.of_pure]
        exact List.mem_of_getElem? hx
    · obtain ⟨t, t', h⟩ := h
      cases h

/-! ## §2  Weights -/

variable [Elementary]

namespace Weight

theorem toScalar_ok {w : Weight Rat} (h : w ≠ .unusable) : ∃ x, w.toScalar = .ok x := by
  cases w with
  | whole n => exact ⟨_, rfl⟩
  | real x => exact ⟨x, rfl⟩
  | unusable => exact absurd rfl h

theorem add_ok {a b : Weight Rat} (ha : a ≠ .unusable) (hb : b ≠ .unusable) :
    ∃ c, c ≠ .unusable ∧ a.add b = .ok c := by
  cases a with
  | whole m =>
      cases b with
      | whole n => exact ⟨.whole (m + n), nofun, rfl⟩
      | real y => exact ⟨.real (m + y), nofun, rfl⟩
      | unusable => exact absurd rfl hb
  | real x =>
      cases b with
      | whole n => exact ⟨.real (x + n), nofun, rfl⟩
      | real y => exact ⟨.real (x + y), nofun, rfl⟩
      | unusable => exact absurd rfl hb
  | unusable => exact absurd rfl ha

theorem add_unusable (a : Weight Rat) : a.add .unusable = .error .wrongKind := by
  cases a <;> rfl

/-- Adding up stops at a weight that is no number, and only there. -/
theorem stops_sumFrom {ws : List (Weight Rat)} {total : Weight Rat} (htotal : total ≠ .unusable)
    (hkind : .unusable ∈ ws → P .wrongKind) : Outcome.StopsWith P (ws.foldlM add total) := by
  induction ws generalizing total with
  | nil => exact .ok _
  | cons w ws ih =>
      rw [List.foldlM_cons]
      by_cases hw : w = .unusable
      · subst hw
        rw [add_unusable]
        exact .error (hkind List.mem_cons_self)
      · obtain ⟨next, hnext, hadd⟩ := add_ok htotal hw
        rw [hadd]
        exact ih hnext fun hmem => hkind (List.mem_cons_of_mem w hmem)

theorem number_of_sumFrom {ws : List (Weight Rat)} {total sum : Weight Rat}
    (htotal : total ≠ .unusable) (h : ws.foldlM add total = .ok sum) :
    sum ≠ .unusable ∧ .unusable ∉ ws := by
  induction ws generalizing total with
  | nil =>
      cases h
      exact ⟨htotal, List.not_mem_nil⟩
  | cons w ws ih =>
      rw [List.foldlM_cons] at h
      by_cases hw : w = .unusable
      · subst hw
        rw [add_unusable] at h
        cases h
      · obtain ⟨next, hnext, hadd⟩ := add_ok htotal hw
        rw [hadd] at h
        obtain ⟨hsum, hrest⟩ := ih hnext h
        exact ⟨hsum, fun hmem => (List.mem_cons.1 hmem).elim (fun heq => hw heq.symm) hrest⟩

omit [Elementary] in
theorem zero_usable : (whole 0 : Weight Rat) ≠ .unusable := nofun

theorem stops_sum {ws : List (Weight Rat)} (hkind : .unusable ∈ ws → P .wrongKind) :
    Outcome.StopsWith P (sum ws) :=
  stops_sumFrom zero_usable hkind

/-- What can be added up are numbers, and comes to a number. -/
theorem number_of_sum {ws : List (Weight Rat)} {total : Weight Rat} (h : sum ws = .ok total) :
    total ≠ .unusable ∧ .unusable ∉ ws :=
  number_of_sumFrom zero_usable h

theorem share_ok {total w : Weight Rat} (htotal : total ≠ .unusable) (hzero : total.isZero = false)
    (hw : w ≠ .unusable) : ∃ x, share total w = .ok x := by
  have hreal {x y : Rat} (hy : (y == 0) = false) : ∃ z, divide x y = .ok z :=
    ⟨_, Exact.divide_eq (beq_eq_false_iff_ne.1 hy)⟩
  cases total with
  | unusable => exact absurd rfl htotal
  | whole t =>
      have ht : t ≠ 0 := beq_eq_false_iff_ne.1 hzero
      have ht' : ((t : Rat) == 0) = false := beq_eq_false_iff_ne.2 (Int.cast_ne_zero.2 ht)
      cases w with
      | whole n => exact ⟨_, Exact.quotientOf_eq n ht⟩
      | real x => exact hreal ht'
      | unusable => exact absurd rfl hw
  | real t =>
      cases w with
      | whole n | real x => exact hreal hzero
      | unusable => exact absurd rfl hw

theorem shares_ok {ws : List (Weight Rat)} (hws : .unusable ∉ ws) : ∃ xs, shares ws = .ok xs := by
  have hsum : Outcome.StopsWith (fun _ => False) (sum ws) := stops_sum hws
  unfold shares
  cases h : sum ws with
  | error why => exact (hsum why h).elim
  | ok total =>
      rw [Outcome.ok_bind]
      split
      · exact ⟨_, rfl⟩
      · next hzero =>
          exact Outcome.exists_mapM fun w hw => share_ok (number_of_sum h).1 (by simpa using hzero)
            fun heq => hws (heq ▸ hw)

end Weight

/-! ## §3  Options -/

/-- Only numbers stand beside the options. -/
def Numbered (options : List (β × Weight Rat)) : Prop :=
  ∀ option ∈ options, option.2 ≠ .unusable

theorem Draw.optionAt?_ok (roll : Rat) {total : Rat} {options : List (β × Weight Rat)}
    (h : Numbered options) : ∃ x, Draw.optionAt? roll total options = .ok x := by
  induction options generalizing total with
  | nil => exact ⟨none, rfl⟩
  | cons option options ih =>
      obtain ⟨x, hx⟩ := Weight.toScalar_ok (h option List.mem_cons_self)
      unfold Draw.optionAt?
      rw [hx, Outcome.ok_bind]
      dsimp only
      split
      · exact ⟨_, rfl⟩
      · exact ih fun other hother => h other (List.mem_cons_of_mem _ hother)

theorem Draw.stops_weighted {options : List (β × Weight Rat)} (hsome : options ≠ [])
    (h : Numbered options) : Draw.StopsWith P (Draw.weighted options) := by
  cases options with
  | nil => exact absurd rfl hsome
  | cons option options =>
      exact Draw.StopsWith.unit.bind fun roll =>
        (Draw.StopsWith.lift (.of_ok (Draw.optionAt?_ok roll h))).bind fun _ => .pure _

end Partitura

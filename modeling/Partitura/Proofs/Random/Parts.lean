import Mathlib.Algebra.Order.BigOperators.Group.List
import Mathlib.Tactic.Linarith
import Partitura.Proofs.Random.Chances
import Partitura.Proofs.Random.Choices

/-!
# Parts of the unit interval

Options that are drawn by their weights have parts of a line, one after the other from 0 on and each
as long as its weight, with its lower end and without its upper one. A number falls into one of the
parts, or lies beyond them all (`FallsOn`). Drawing by weight draws one number, whatever the options
are (`Draw.weighted_outcome`), and comes to the option that it falls on, or to the first one for a
number beyond all parts (`Draw.chosen_of_optionAt?`).

Parts do not overlap as long as no weight is negative. Weights are counted exactly.
-/

namespace Partitura

variable {β : Type}

/-! ## §1  What weights weigh -/

namespace Weight

/-- The number that a weight is. What is no number weighs nothing. -/
def number : Weight Rat → Rat
  | whole n => n
  | real x => x
  | unusable => 0

variable [Elementary] {ws : List (Weight Rat)}

theorem toScalar_eq {w : Weight Rat} (h : w ≠ .unusable) : w.toScalar = .ok w.number := by
  cases w with
  | whole n | real x => rfl
  | unusable => exact absurd rfl h

theorem number_of_add {a b sum : Weight Rat} (h : a.add b = .ok sum) :
    sum.number = a.number + b.number := by
  cases a <;> cases b <;> cases h
  case whole.whole m n => exact Int.cast_add m n
  all_goals rfl

theorem total_of_sumFrom {total sum : Weight Rat} (h : ws.foldlM add total = .ok sum) :
    sum.number = total.number + (ws.map number).sum := by
  induction ws generalizing total with
  | nil =>
      cases h
      exact (add_zero _).symm
  | cons w ws ih =>
      rw [List.foldlM_cons] at h
      obtain ⟨next, hnext, h⟩ := Outcome.bind_ok h
      rw [ih h, number_of_add hnext, List.map_cons, List.sum_cons, add_assoc]

theorem exists_sum (hws : .unusable ∉ ws) :
    ∃ total, sum ws = .ok total ∧ total ≠ .unusable ∧ total.number = (ws.map number).sum := by
  have hsum : Outcome.StopsWith (fun _ => False) (sum ws) := stops_sum hws
  cases h : sum ws with
  | error why => exact (hsum why h).elim
  | ok total =>
      refine ⟨total, rfl, (number_of_sum h).1, ?_⟩
      rw [total_of_sumFrom h]
      exact zero_add _

theorem share_eq {total w : Weight Rat} (htotal : total ≠ .unusable) (hzero : total.number ≠ 0)
    (hw : w ≠ .unusable) : share total w = .ok (w.number / total.number) := by
  cases total with
  | unusable => exact absurd rfl htotal
  | whole t =>
      cases w with
      | whole n => exact Exact.quotientOf_eq n fun ht => hzero (by rw [ht]; rfl)
      | real x => exact Exact.divide_eq hzero
      | unusable => exact absurd rfl hw
  | real t =>
      cases w with
      | whole n | real x => exact Exact.divide_eq hzero
      | unusable => exact absurd rfl hw

theorem isZero_eq_false {w : Weight Rat} (h : w.number ≠ 0) : w.isZero = false := by
  cases w with
  | whole n => exact beq_eq_false_iff_ne.2 fun hn => h (by rw [hn]; rfl)
  | real x => exact beq_eq_false_iff_ne.2 h
  | unusable => rfl

/-- Weights that weigh something are divided by what they weigh together. -/
theorem shares_eq (hws : .unusable ∉ ws) (hsome : (ws.map number).sum ≠ 0) :
    shares ws = .ok (ws.map fun w => w.number / (ws.map number).sum) := by
  obtain ⟨total, htotal, husable, hnumber⟩ := exists_sum hws
  rw [← hnumber] at hsome ⊢
  unfold shares
  rw [htotal, Outcome.ok_bind, isZero_eq_false hsome]
  refine Outcome.mapM_eq_map fun w hw => ?_
  exact share_eq husable hsome fun h => hws (h ▸ hw)

end Weight

/-! ## §2  Parts -/

/-- What options weigh together. -/
def weightOf (options : List (β × Weight Rat)) : Rat :=
  (options.map fun option => option.2.number).sum

/-- No option has a negative weight. -/
def Nonnegative (options : List (β × Weight Rat)) : Prop :=
  ∀ option ∈ options, 0 ≤ option.2.number

/-- `roll` falls into the part of `x`. The parts of the options lie one after the other from `start`
on; each begins where the one before it ends, and ends before the next one begins. -/
def FallsOn (start roll : Rat) (options : List (β × Weight Rat)) (x : β) : Prop :=
  ∃ before w after, options = before ++ (x, w) :: after ∧
    start + weightOf before ≤ roll ∧ roll < start + weightOf before + w.number

variable {start roll : Rat} {x y : β} {w : Weight Rat} {options : List (β × Weight Rat)}

theorem weightOf_nil : weightOf ([] : List (β × Weight Rat)) = 0 :=
  rfl

theorem weightOf_cons : weightOf ((y, w) :: options) = w.number + weightOf options :=
  List.sum_cons

namespace Nonnegative

theorem weightOf (h : Nonnegative options) : 0 ≤ weightOf options :=
  List.sum_nonneg fun _ hx => by
    obtain ⟨option, hoption, rfl⟩ := List.mem_map.1 hx
    exact h option hoption

theorem tail (h : Nonnegative ((y, w) :: options)) : Nonnegative options :=
  fun option hoption => h option (List.mem_cons_of_mem _ hoption)

end Nonnegative

theorem not_fallsOn_nil : ¬ FallsOn start roll ([] : List (β × Weight Rat)) x := by
  rintro ⟨before, w, after, h, _⟩
  cases before <;> cases h

/-- A number falls into the first part or into one of the others. -/
theorem fallsOn_cons : FallsOn start roll ((y, w) :: options) x ↔
    (x = y ∧ start ≤ roll ∧ roll < start + w.number) ∨
      FallsOn (start + w.number) roll options x := by
  constructor
  · rintro ⟨before, w', after, h, hlow, hhigh⟩
    cases before with
    | nil =>
        cases h
        refine .inl ⟨rfl, ?_⟩
        simpa [Partitura.weightOf] using And.intro hlow hhigh
    | cons option before =>
        cases h
        rw [weightOf_cons, ← add_assoc] at hlow hhigh
        exact .inr ⟨before, w', after, rfl, hlow, hhigh⟩
  · rintro (⟨rfl, hlow, hhigh⟩ | ⟨before, w', after, rfl, hlow, hhigh⟩)
    · exact ⟨[], w, options, rfl, by simpa [Partitura.weightOf] using hlow,
        by simpa [Partitura.weightOf] using hhigh⟩
    · refine ⟨(y, w) :: before, w', after, rfl, ?_⟩
      rw [weightOf_cons, ← add_assoc]
      exact ⟨hlow, hhigh⟩

namespace FallsOn

theorem mem (h : FallsOn start roll options x) : ∃ w, (x, w) ∈ options ∧ 0 < w.number := by
  obtain ⟨before, w, after, rfl, hlow, hhigh⟩ := h
  exact ⟨w, List.mem_append_right _ List.mem_cons_self, by linarith⟩

theorem start_le (hnonneg : Nonnegative options) (h : FallsOn start roll options x) :
    start ≤ roll := by
  obtain ⟨before, w, after, rfl, hlow, _⟩ := h
  have hbefore : Nonnegative before := fun option hoption =>
    hnonneg option (List.mem_append_left _ hoption)
  linarith [hbefore.weightOf]

theorem lt_end (hnonneg : Nonnegative options) (h : FallsOn start roll options x) :
    roll < start + weightOf options := by
  obtain ⟨before, w, after, rfl, _, hhigh⟩ := h
  have hafter : Nonnegative after := fun option hoption =>
    hnonneg option (List.mem_append_right _ (List.mem_cons_of_mem _ hoption))
  have hsum : weightOf (before ++ (x, w) :: after) =
      weightOf before + (w.number + weightOf after) := by
    simp [weightOf]
  linarith [hafter.weightOf]

end FallsOn

/-! ## §3  Drawing by weight -/

variable [Elementary]

theorem Draw.optionAt?_cons (hw : w ≠ .unusable) : optionAt? roll start ((y, w) :: options) =
    if roll < start + w.number then .ok (some y) else optionAt? roll (start + w.number) options := by
  rw [optionAt?, Weight.toScalar_eq hw]
  rfl

/-- Looking for the option that a number falls on, whatever the weights. -/
theorem Draw.mem_of_optionAt? (h : Numbered options) (hx : optionAt? roll start options = .ok (some x)) :
    x ∈ options.map Prod.fst := by
  induction options generalizing start with
  | nil => cases hx
  | cons option options ih =>
      obtain ⟨hw, hrest⟩ := List.forall_mem_cons.1 h
      rw [optionAt?_cons hw] at hx
      split at hx
      · cases hx
        exact List.mem_cons_self
      · exact List.mem_cons_of_mem _ (ih hrest hx)

/-- Without negative weights the option that is found is the one whose part the number falls into. -/
theorem Draw.optionAt?_eq_some_iff (h : Numbered options) (hnonneg : Nonnegative options)
    (hstart : start ≤ roll) :
    optionAt? roll start options = .ok (some x) ↔ FallsOn start roll options x := by
  induction options generalizing start with
  | nil => exact iff_of_false nofun not_fallsOn_nil
  | cons option options ih =>
      obtain ⟨y, w⟩ := option
      obtain ⟨hw, hrest⟩ := List.forall_mem_cons.1 h
      rw [optionAt?_cons hw, fallsOn_cons]
      split
      · next hhigh =>
          have hother : ¬ FallsOn (start + w.number) roll options x := fun hx =>
            absurd (hx.start_le hnonneg.tail) (not_le.2 hhigh)
          constructor
          · intro hx
            cases hx
            exact .inl ⟨rfl, hstart, hhigh⟩
          · rintro (⟨rfl, _⟩ | hx)
            · rfl
            · exact absurd hx hother
      · next hlow =>
          rw [ih hrest hnonneg.tail (not_lt.1 hlow)]
          exact ⟨.inr, fun hx => hx.resolve_left fun hy => hlow hy.2.2⟩

/-- Where no option is found, the number lies beyond all parts. -/
theorem Draw.end_le_of_optionAt? (h : Numbered options) (hstart : start ≤ roll)
    (hnone : optionAt? roll start options = .ok none) : start + weightOf options ≤ roll := by
  induction options generalizing start with
  | nil =>
      rw [weightOf_nil, add_zero]
      exact hstart
  | cons option options ih =>
      obtain ⟨hw, hrest⟩ := List.forall_mem_cons.1 h
      rw [optionAt?_cons hw] at hnone
      split at hnone
      · cases hnone
      · next hlow =>
          rw [weightOf_cons, ← add_assoc]
          exact ih hrest (not_lt.1 hlow) hnone

/-- The option that a number of the unit interval chooses: the one whose part it falls into, or the
first where it lies beyond all parts. -/
structure Chosen (options : List (β × Weight Rat)) (roll : Rat) (x : β) : Prop where
  part : ∀ y, FallsOn 0 roll options y ↔ roll < weightOf options ∧ y = x
  beyond : weightOf options ≤ roll → ∃ w rest, options = (x, w) :: rest

theorem Draw.chosen_of_optionAt? (h : Numbered ((y, w) :: options))
    (hnonneg : Nonnegative ((y, w) :: options)) (hroll : 0 ≤ roll) {found : Option β}
    (hfound : optionAt? roll 0 ((y, w) :: options) = .ok found) :
    Chosen ((y, w) :: options) roll (found.getD y) := by
  have hiff (x : β) : found = some x ↔ FallsOn 0 roll ((y, w) :: options) x := by
    rw [← optionAt?_eq_some_iff h hnonneg hroll, hfound, Except.ok.injEq]
  cases found with
  | none =>
      have hbeyond := end_le_of_optionAt? h hroll hfound
      rw [zero_add] at hbeyond
      refine ⟨fun x => ?_, fun _ => ⟨w, options, rfl⟩⟩
      exact iff_of_false (fun hx => nomatch (hiff x).2 hx) fun hx => not_lt.2 hbeyond hx.1
  | some z =>
      have hz := (hiff z).1 rfl
      have hinside := hz.lt_end hnonneg
      rw [zero_add] at hinside
      refine ⟨fun x => ?_, fun hbeyond => absurd hinside (not_lt.2 hbeyond)⟩
      rw [← hiff, Option.some.injEq]
      exact ⟨fun hx => ⟨hinside, hx.symm⟩, fun hx => hx.2.symm⟩

/-- The next number of the unit interval that a stream gives. -/
def Twister.unit (t : Twister) : Rat :=
  Draw.unitOf t.next.1 t.next.2.next.1

theorem Twister.unit_mem (t : Twister) : 0 ≤ t.unit ∧ t.unit < 1 := by
  have hlow := Chances.zero_le_unitOf (α := Rat) t.next.1 t.next.2.next.1
  have hhigh := Chances.unitOf_lt_one (α := Rat) t.next.1 t.next.2.next.1
  norm_num at hlow hhigh
  exact ⟨hlow, hhigh⟩

/-- **Drawing by weight draws one number**, and comes to one of the options: without negative weights to
the one that the number chooses. -/
theorem Draw.weighted_outcome (hsome : options ≠ []) (h : Numbered options) (t : Twister) :
    ∃ x, (Draw.weighted options).outcome t = .ok (x, t.afterUnit) ∧ x ∈ options.map Prod.fst ∧
      (Nonnegative options → Chosen options t.unit x) := by
  cases options with
  | nil => exact absurd rfl hsome
  | cons option options =>
      obtain ⟨y, w⟩ := option
      obtain ⟨found, hfound⟩ : ∃ found, optionAt? t.unit 0 ((y, w) :: options) = .ok found :=
        optionAt?_ok t.unit h
      refine ⟨found.getD y, ?_, ?_, fun hnonneg =>
        chosen_of_optionAt? h hnonneg t.unit_mem.1 hfound⟩
      · change (Draw.unit >>= fun roll : Rat => (liftM (optionAt? roll 0.0 ((y, w) :: options)) : Draw _)
          >>= fun found => pure (found.getD y)).outcome t = _
        rw [outcome_bind, outcome_unit, Outcome.ok_bind, outcome_bind, outcome_lift, Exact.start_eq]
        change (((optionAt? t.unit 0 ((y, w) :: options)).map _) >>= _) = _
        rw [hfound]
        rfl
      · cases found with
        | none => exact List.mem_cons_self
        | some x => exact mem_of_optionAt? h hfound

end Partitura

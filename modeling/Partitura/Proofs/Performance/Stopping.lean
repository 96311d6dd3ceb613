import Mathlib.Tactic.NormNum
import Partitura.Number.Exact
import Partitura.Performance.Playing
import Partitura.Proofs.Faults

/-!
# What stops a performance

Every easing has a value at every position, so a section has a density at every beat
(`DensityCurve.atBeat_ok`), and every groove that a name stands for has slots (`Groove.Slotted`). All
that can stop a performance is the name of its groove: one that is a list or a mapping cannot even be
looked up (`Performance.stops_play`).

Beats are counted exactly.
-/

namespace Partitura

open Outcome (StopsWith)

variable [Elementary] {P : Fault → Prop}

/-! ## §1  Curves -/

theorem Easing.ease_ok (e : Easing) (t : Rat) : ∃ v, e.ease t = .ok v := by
  cases e with
  | linear | sine | step => exact ⟨_, rfl⟩
  | exponential | logarithmic =>
      simp only [ease, Exact.powerOf_eq]
      split
      · exact ⟨_, rfl⟩
      · exact ⟨_, rfl⟩

namespace DensityCurve

theorem atPosition_ok (d : DensityCurve Rat) (position : Rat) :
    ∃ v, d.atPosition position = .ok v := by
  obtain ⟨v, hv⟩ := d.shape.ease_ok (Scalar.clamp 0.0 1.0 position)
  unfold atPosition Easing.interpolate
  rw [hv]
  exact ⟨_, rfl⟩

theorem atBeat_ok (d : DensityCurve Rat) (beat total : Rat) : ∃ v, d.atBeat beat total = .ok v := by
  unfold atBeat
  split
  · exact ⟨_, rfl⟩
  · exact d.atPosition_ok _

end DensityCurve

/-! ## §2  Grooves -/

/-- A groove that has slots, which take time. -/
structure Groove.Slotted (g : Groove Rat) : Prop where
  grid : g.grid ≠ 0
  offsets : g.offsets ≠ []

theorem Groove.slotted_template {offsets velocities : List Rat} {description : String}
    (h : offsets ≠ []) : (template offsets velocities description).Slotted where
  grid := by
    unfold template standardGrid
    norm_num
  offsets := h

theorem Groove.slotted_of_mem {entry : String × Groove Rat} (h : entry ∈ templates Rat) :
    entry.2.Slotted := by
  have hall : ∀ entry ∈ templates Rat, entry.2.Slotted := by
    unfold templates
    simp only [List.forall_mem_cons, List.not_mem_nil, false_implies, implies_true, and_true]
    refine ⟨?_, ?_, ?_, ?_, ?_, ?_, ?_, ?_, ?_, ?_, ?_, ?_, ?_, ?_⟩
    all_goals exact slotted_template (List.cons_ne_nil _ _)
  exact hall entry h

theorem Groove.slotted_of_ofValue {v : Value Rat} {g : Groove Rat} (h : ofValue v = .ok g) :
    g.Slotted := by
  unfold ofValue lookUpName at h
  split at h
  · unfold ofName at h
    split at h
    · next hfound =>
        cases h
        exact slotted_of_mem (mem_of_lookup hfound)
    · cases h
  all_goals cases h

theorem Groove.shift_ok {g : Groove Rat} (hg : g.Slotted) (beat velocity : Rat) :
    ∃ p, g.shift beat velocity = .ok p := by
  have hcyclic {xs : List Rat} (hxs : xs ≠ []) (i : Int) : ∃ x, cyclic xs i = .ok x := by
    unfold cyclic
    rw [if_neg (by simpa using hxs)]
    exact ⟨_, rfl⟩
  have hslot : ∃ i, g.slot beat = .ok i := by
    unfold slot withinBeat
    simp only [Exact.divide_eq hg.grid]
    exact ⟨_, rfl⟩
  have hfactor (i : Int) : ∃ f, g.factor? i = .ok f := by
    unfold factor?
    split
    · obtain ⟨x, hx⟩ := hcyclic (List.cons_ne_nil _ _) i
      rw [hx]
      exact ⟨_, rfl⟩
    · exact ⟨_, rfl⟩
  obtain ⟨i, hi⟩ := hslot
  obtain ⟨offset, hoffset⟩ := hcyclic hg.offsets i
  obtain ⟨f, hf⟩ := hfactor i
  unfold shift
  rw [hi, Outcome.ok_bind, hoffset, Outcome.ok_bind, hf, Outcome.ok_bind]
  split
  · exact ⟨_, rfl⟩
  · exact ⟨_, rfl⟩

theorem applySwing_ok (beat amount : Rat) {division : Rat} (h : division ≠ 0) :
    ∃ swung, applySwing beat amount division = .ok swung := by
  unfold applySwing Groove.withinBeat
  split
  · exact ⟨_, rfl⟩
  · simp only [Exact.divide_eq h]
    exact ⟨_, rfl⟩

/-! ## §3  Names -/

namespace Run

variable {β : Type}

omit [Elementary] in
/-- What is rejected leaves a warning, and other faults stop the run. -/
theorem stops_orWarn {r : Outcome β} (h : r.StopsWith fun why => (∃ reason, why = .rejected reason) ∨ P why) :
    StopsWith P (orWarn r) := by
  cases r with
  | ok x => exact .pure _
  | error why =>
      rcases h why rfl with ⟨reason, rfl⟩ | hwhy
      · exact (StopsWith.warn _).bind fun _ => .pure _
      · cases why with
        | rejected reason => exact (StopsWith.warn _).bind fun _ => .pure _
        | _ => exact .throw hwhy

omit [Elementary] in
theorem yields_named? {find : Value Rat → Outcome β} {v : Value Rat} {x : β}
    (h : (named? find v).Yields (some x)) : find v = .ok x := by
  unfold named? at h
  split at h
  · cases h.of_pure
  · cases hfind : find v with
    | ok y =>
        rw [hfind] at h
        cases h.of_pure
        rfl
    | error why =>
        rw [hfind] at h
        cases why with
        | rejected reason =>
            obtain ⟨_, _, h⟩ := h.of_bind
            cases h.of_pure
        | _ =>
            obtain ⟨s, s', h⟩ := h
            cases h

end Run

theorem stops_lookUpName {β : Type} {find : String → Outcome β} {catalogue : Catalogue}
    {available : List String} {v : Value Rat} (hkind : v.isKey = false → P .wrongKind)
    (hfind : ∀ name, (find name).StopsWith fun why => ∃ reason, why = .rejected reason) :
    (lookUpName find catalogue available v).StopsWith
      fun why => (∃ reason, why = .rejected reason) ∨ P why := by
  cases v with
  | text name => exact (hfind name).imp fun _ => .inl
  | list vs | mapping fields => exact .error (.inr (hkind rfl))
  | null | bool b | int n | real x => exact .error (.inl ⟨_, rfl⟩)

theorem Groove.stops_ofValue {v : Value Rat} (hkind : v.isKey = false → P .wrongKind) :
    (Groove.ofValue v).StopsWith fun why => (∃ reason, why = .rejected reason) ∨ P why := by
  refine stops_lookUpName hkind fun name => ?_
  unfold ofName
  split
  · exact .ok _
  · exact .error ⟨_, rfl⟩

theorem Expression.stops_ofValue {v : Value Rat} (hkind : v.isKey = false → P .wrongKind) :
    (Expression.ofValue v).StopsWith fun why => (∃ reason, why = .rejected reason) ∨ P why := by
  refine stops_lookUpName hkind fun name => ?_
  unfold ofName
  split
  · exact .ok _
  · exact .error ⟨_, rfl⟩

omit [Elementary] in
theorem Run.stops_named? {β : Type} {find : Value Rat → Outcome β} {name : Value Rat}
    (h : (find name).StopsWith fun why => (∃ reason, why = .rejected reason) ∨ P why) :
    Run.StopsWith P (Run.named? find name) := by
  unfold named?
  split
  · exact .pure _
  · exact stops_orWarn h

/-! ## §4  Playing -/

/-- Whether the names of a track's groove and style can be looked up. -/
def Track.usable {α : Type} (t : Track α) : Bool :=
  t.groove.isKey && t.expression.isKey

theorem Track.stops_performance (t : Track Rat) (hkind : t.usable = false → P .wrongKind) :
    Run.StopsWith P t.performance := by
  refine (Run.stops_named? (Expression.stops_ofValue fun hkey => hkind ?_)).bind fun _ => .pure _
  simp [usable, hkey]

/-- The groove of a performance is that of the track, or the text of a style's. -/
theorem Track.isKey_groove {t : Track Rat} {p : Performance Rat} (h : t.performance.Yields p)
    (ht : t.groove.isKey = true) : p.groove.isKey = true := by
  obtain ⟨style, _, h⟩ := h.of_bind
  cases h.of_pure
  unfold performanceIn
  dsimp only
  split
  · split
    · rfl
    · rfl
  · exact ht

namespace Performance

omit [Elementary] in
/-- A draw that is made only if it counts. -/
theorem stops_unless {β : Type} {idle : Prop} [Decidable idle] {x : β} {d : Draw β}
    (h : ¬ idle → Draw.StopsWith P d) : Draw.StopsWith P (if idle then pure x else d) := by
  split
  · exact .pure x
  · next hidle => exact h hidle

theorem stops_playNote? (p : Performance Rat) {groove : Option (Groove Rat)}
    (hgroove : ∀ g ∈ groove, g.Slotted) (instrument : String) (sectionBeats swing : Rat)
    (density : Option (DensityCurve Rat)) (n : Note Rat) :
    Draw.StopsWith P (p.playNote? groove instrument sectionBeats swing density n) := by
  have hsounds : Draw.StopsWith P (sounds density sectionBeats n) := by
    unfold sounds
    cases density with
    | none =>
        cases n.probability with
        | none => exact .pure _
        | some chance => exact Draw.StopsWith.unit.bind fun _ => .pure _
    | some d =>
        exact (Draw.StopsWith.lift (.of_ok (d.atBeat_ok _ _))).bind fun _ =>
          Draw.StopsWith.unit.bind fun _ => .pure _
  have hinGroove (beat velocity : Rat) : ∃ shifted, inGroove groove beat velocity = .ok shifted := by
    cases groove with
    | none => exact ⟨_, rfl⟩
    | some g => exact Groove.shift_ok (hgroove g rfl) _ _
  have hdeviation (spread amount : Rat) : Draw.StopsWith P (Humanize.deviation spread amount) :=
    (Draw.StopsWith.uniform _ _).bind fun _ => .pure _
  have hhumanized (beat velocity duration : Rat) :
      Draw.StopsWith P (humanized p.humanize beat velocity duration) := by
    unfold humanized
    split
    · exact .pure _
    · refine (stops_unless fun _ => (hdeviation _ _).bind fun _ => .pure _).bind fun beat => ?_
      refine (stops_unless fun _ => (hdeviation _ _).bind fun _ => .pure _).bind fun velocity => ?_
      exact (stops_unless fun _ => (hdeviation _ _).bind fun _ => .pure _).bind fun _ => .pure _
  have hvaried (velocity : Rat) : Draw.StopsWith P (varied p.velocityVariance velocity) := by
    unfold varied
    split
    · exact .pure _
    · exact (Draw.StopsWith.uniform _ _).bind fun _ => .pure _
  have hdivision : (swungDivision : Rat) ≠ 0 := by
    unfold swungDivision
    norm_num
  refine hsounds.bind fun heard => ?_
  split
  · refine .map _ ?_
    refine (Draw.StopsWith.lift (.of_ok (applySwing_ok _ _ hdivision))).bind fun swung => ?_
    refine (Draw.StopsWith.lift (.of_ok (hinGroove _ _))).bind fun shifted => ?_
    exact (hhumanized _ _ _).bind fun _ => (hvaried _).bind fun _ => .pure _
  · exact .pure _

theorem stops_play (p : Performance Rat) (hkind : p.groove.isKey = false → P .wrongKind)
    (instrument : String) (sectionBeats swing : Rat) (density : Option (DensityCurve Rat))
    (notes : List (Note Rat)) :
    Run.StopsWith P (p.play instrument sectionBeats swing density notes) := by
  refine (Run.stops_named? (Groove.stops_ofValue hkind)).bind_of_yields fun groove hgroove => ?_
  refine (Run.StopsWith.ofDraw (.mapM fun n _ => stops_playNote? p ?_ _ _ _ _ n)).bind
    fun _ => .pure _
  rintro g rfl
  exact Groove.slotted_of_ofValue (Run.yields_named? hgroove)

/-- Nothing stops a performance if the name of its groove can be looked up. -/
theorem exists_play (p : Performance Rat) (hkey : p.groove.isKey = true) (instrument : String)
    (sectionBeats swing : Rat) (density : Option (DensityCurve Rat)) (notes : List (Note Rat))
    (s : Session) : ∃ r, p.play instrument sectionBeats swing density notes s = .ok r := by
  have hstops : Run.StopsWith (fun _ => False) (p.play instrument sectionBeats swing density notes) :=
    p.stops_play (fun hkind => Bool.false_ne_true (hkind.symm.trans hkey)) _ _ _ _ _
  cases h : p.play instrument sectionBeats swing density notes s with
  | error why => exact (hstops s why h).elim
  | ok r => exact ⟨r, rfl⟩

end Performance

end Partitura

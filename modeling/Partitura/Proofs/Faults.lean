import Partitura.Number.Exact
import Partitura.Pattern.Resolution
import Partitura.Proofs.Pattern.Origin
import Partitura.Proofs.Pattern.Usable

/-!
# What stops a computation

A computation that stops does so with a fault, and which faults these may be can be told from its
parts (`Outcome.StopsWith`, `Draw.StopsWith`, `Run.StopsWith`). Reading notes stops at misspelled ones
and at nothing else; what is done to the notes of a pattern afterwards adds faults of its parameters,
and those of arithmetic if there are any (`Fault.Covers`). None of them is the fault of a chain of
references that does not end: that one arises where references are followed, and nowhere below.
-/

namespace Partitura

variable {α : Type} [Scalar α] {β γ : Type} {P : Fault → Prop}

/-! ## §1  Putting computations together -/

/-- Whatever stops the outcome is a fault of a kind. -/
def Outcome.StopsWith (P : Fault → Prop) (r : Outcome β) : Prop :=
  ∀ why, r = .error why → P why

namespace Outcome.StopsWith

theorem ok (x : β) : StopsWith P (.ok x : Outcome β) := nofun

theorem of_ok {r : Outcome β} (h : ∃ x, r = .ok x) : StopsWith P r := by
  obtain ⟨x, rfl⟩ := h
  exact ok x

theorem error {why : Fault} (h : P why) : StopsWith P (.error why : Outcome β) := by
  intro other heq
  cases heq
  exact h

/-- What comes after a step has to be looked at for what the step comes to. -/
theorem bind_of_ok {r : Outcome β} {f : β → Outcome γ} (hr : StopsWith P r)
    (hf : ∀ x, r = .ok x → StopsWith P (f x)) : StopsWith P (r >>= f) := by
  intro why h
  rcases bind_error h with h | ⟨x, hx, h⟩
  · exact hr why h
  · exact hf x hx why h

theorem bind {r : Outcome β} {f : β → Outcome γ} (hr : StopsWith P r)
    (hf : ∀ x, StopsWith P (f x)) : StopsWith P (r >>= f) :=
  hr.bind_of_ok fun x _ => hf x

theorem map {r : Outcome β} (f : β → γ) (hr : StopsWith P r) : StopsWith P (f <$> r) := by
  rw [map_eq_pure_bind]
  exact hr.bind fun x => ok (f x)

theorem mapM_of_mem {f : β → Outcome γ} {xs : List β} (hf : ∀ x ∈ xs, StopsWith P (f x)) :
    StopsWith P (xs.mapM f) :=
  mapM_closed (StopsWith P) ok bind hf

theorem mapM {f : β → Outcome γ} (hf : ∀ x, StopsWith P (f x)) (xs : List β) :
    StopsWith P (xs.mapM f) :=
  mapM_of_mem fun x _ => hf x

theorem mapM_option {f : β → Outcome γ} (hf : ∀ x, StopsWith P (f x)) (o : Option β) :
    StopsWith P (o.mapM f) := by
  intro why h
  obtain ⟨x, _, h⟩ := mapM_option_error h
  exact hf x why h

theorem foldlM {f : γ → β → Outcome γ} (hf : ∀ y x, StopsWith P (f y x)) (y : γ) (xs : List β) :
    StopsWith P (xs.foldlM f y) := by
  induction xs generalizing y with
  | nil => exact ok y
  | cons x xs ih =>
      rw [List.foldlM_cons]
      exact (hf y x).bind ih

theorem imp {Q : Fault → Prop} {r : Outcome β} (h : StopsWith P r) (himp : ∀ why, P why → Q why) :
    StopsWith Q r :=
  fun why heq => himp why (h why heq)

end Outcome.StopsWith

/-- Whatever stops the draw, from any stream, is a fault of a kind. -/
def Draw.StopsWith (P : Fault → Prop) (d : Draw β) : Prop :=
  ∀ t, (d.outcome t).StopsWith P

namespace Draw.StopsWith

theorem pure (x : β) : StopsWith P (pure x : Draw β) := fun _ => .ok _

theorem throw {why : Fault} (h : P why) : StopsWith P (throw why : Draw β) := fun _ => .error h

theorem throw_bind {why : Fault} (h : P why) (f : β → Draw γ) :
    StopsWith P ((MonadExcept.throw why : Draw β) >>= f) := fun _ => .error h

theorem ofStream (f : Twister → β × Twister) : StopsWith P (ofStream f) := fun _ => .ok _

theorem lift {r : Outcome β} (h : r.StopsWith P) : StopsWith P (liftM r : Draw β) := by
  intro t
  rw [outcome_lift]
  cases r with
  | error why => exact .error (h why rfl)
  | ok x => exact .ok (x, t)

/-- What comes after a draw has to be looked at for what may be drawn. -/
theorem bind_of_yields {d : Draw β} {f : β → Draw γ} (hd : StopsWith P d)
    (hf : ∀ x, d.Yields x → StopsWith P (f x)) : StopsWith P (d >>= f) := by
  intro t
  rw [outcome_bind]
  exact (hd t).bind_of_ok fun p hp => hf p.1 ⟨t, p.2, hp⟩ p.2

theorem bind {d : Draw β} {f : β → Draw γ} (hd : StopsWith P d) (hf : ∀ x, StopsWith P (f x)) :
    StopsWith P (d >>= f) :=
  hd.bind_of_yields fun x _ => hf x

theorem map {d : Draw β} (f : β → γ) (hd : StopsWith P d) : StopsWith P (f <$> d) := by
  rw [map_eq_pure_bind]
  exact hd.bind fun x => pure (f x)

theorem mapM {f : β → Draw γ} {xs : List β} (hf : ∀ x ∈ xs, StopsWith P (f x)) :
    StopsWith P (xs.mapM f) :=
  mapM_closed (StopsWith P) pure bind hf

theorem unit : StopsWith P (unit : Draw α) :=
  (ofStream Twister.next).bind fun _ => (ofStream Twister.next).bind fun _ => pure _

theorem uniform (low high : α) : StopsWith P (uniform low high) :=
  unit.bind fun _ => pure _

end Draw.StopsWith

/-- Whatever stops the run, from any session, is a fault of a kind. -/
def Run.StopsWith (P : Fault → Prop) (r : Run β) : Prop :=
  ∀ s, (r s).StopsWith P

namespace Run.StopsWith

theorem pure (x : β) : StopsWith P (pure x : Run β) := fun _ => .ok _

theorem throw {why : Fault} (h : P why) : StopsWith P (throw why : Run β) := fun _ => .error h

theorem throw_bind {why : Fault} (h : P why) (f : β → Run γ) :
    StopsWith P ((MonadExcept.throw why : Run β) >>= f) := fun _ => .error h

theorem warn (message : String) : StopsWith P (warn message) := fun _ => .ok _

theorem warnAll (messages : List String) : StopsWith P (warnAll messages) := fun _ => .ok _

theorem of_total {r : Run β} (h : r.Total) : StopsWith P r := fun s => .of_ok (h s)

theorem lift {r : Outcome β} (h : r.StopsWith P) : StopsWith P (liftM r : Run β) := by
  intro s
  rw [lift_apply]
  cases r with
  | error why => exact .error (h why rfl)
  | ok x => exact .ok (x, s)

theorem ofDraw {d : Draw β} (h : d.StopsWith P) : StopsWith P (ofDraw d) := by
  intro s why heq
  rw [ofDraw_apply] at heq
  cases hd : d.outcome s.stream with
  | error other =>
      rw [hd] at heq
      cases heq
      exact h s.stream _ hd
  | ok p =>
      rw [hd] at heq
      cases heq

/-- What comes after a run has to be looked at for what the run may come to. -/
theorem bind_of_yields {r : Run β} {f : β → Run γ} (hr : StopsWith P r)
    (hf : ∀ x, r.Yields x → StopsWith P (f x)) : StopsWith P (r >>= f) := by
  intro s
  rw [bind_apply]
  exact (hr s).bind_of_ok fun p hp => hf p.1 ⟨s, p.2, hp⟩ p.2

theorem bind {r : Run β} {f : β → Run γ} (hr : StopsWith P r) (hf : ∀ x, StopsWith P (f x)) :
    StopsWith P (r >>= f) :=
  hr.bind_of_yields fun x _ => hf x

theorem map {r : Run β} (f : β → γ) (hr : StopsWith P r) : StopsWith P (f <$> r) := by
  rw [map_eq_pure_bind]
  exact hr.bind fun x => pure (f x)

theorem mapM {f : β → Run γ} {xs : List β} (hf : ∀ x ∈ xs, StopsWith P (f x)) :
    StopsWith P (xs.mapM f) :=
  mapM_closed (StopsWith P) pure bind hf

theorem imp {Q : Fault → Prop} {r : Run β} (h : StopsWith P r) (himp : ∀ why, P why → Q why) :
    StopsWith Q r :=
  fun s => (h s).imp himp

end Run.StopsWith

/-! ## §2  Reading notes -/

/-- A text that is no notation. -/
def Fault.Misspelt (why : Fault) : Prop :=
  ∃ reason, why = .misspelled reason

open Outcome (StopsWith)

theorem Length.stops_parse (code : String) (dotted : Bool) :
    StopsWith Fault.Misspelt (Length.parse code dotted) := by
  unfold Length.parse
  split
  · exact .ok _
  · exact .error ⟨_, rfl⟩

theorem Length.stops_ofText (s : String) : StopsWith Fault.Misspelt (Length.ofText s) := by
  unfold Length.ofText
  dsimp only
  split
  · exact stops_parse _ _
  · exact stops_parse _ _

theorem stops_unitInterval (field : UnitField) (text : String) (x : α) :
    StopsWith Fault.Misspelt (unitInterval field text x) := by
  unfold unitInterval
  split
  · exact .error ⟨_, rfl⟩
  · exact .ok _

theorem stops_checkTuplet (text : String) (n : Nat) :
    StopsWith Fault.Misspelt (checkTuplet text n) := by
  unfold checkTuplet
  split
  · exact .error ⟨_, rfl⟩
  · exact .ok _

theorem NoteToken.stops_ofWritten (text : String) (w : Notation.Written) :
    StopsWith Fault.Misspelt (ofWritten (α := α) text w) := by
  have velocity (l : Notation.Level) :
      StopsWith Fault.Misspelt (Notation.Level.velocity (α := α) text l) := by
    cases l with
    | number d => exact stops_unitInterval _ _ _
    | dynamic d => exact .ok _
  exact (Length.stops_parse _ _).bind fun _ => (StopsWith.mapM_option (stops_checkTuplet text) _).bind
    fun _ => (StopsWith.mapM_option velocity _).bind fun _ =>
      (StopsWith.mapM_option (fun _ => stops_unitInterval _ _ _) _).bind fun _ => .ok _

theorem Token.stops_parseRest (text : String) :
    StopsWith Fault.Misspelt (Token.parseRest text) := by
  unfold Token.parseRest
  split
  · exact Length.stops_parse _ _
  · exact .error ⟨_, rfl⟩

theorem Token.stops_parse (text : String) : StopsWith Fault.Misspelt (Token.parse (α := α) text) := by
  unfold Token.parse
  split
  · exact (Token.stops_parseRest text).bind fun _ => .ok _
  · refine StopsWith.bind ?_ fun _ => .ok _
    unfold NoteToken.parse
    split
    · exact NoteToken.stops_ofWritten _ _
    · exact .error ⟨_, rfl⟩

namespace Pitch

theorem stops_parse (text : String) : StopsWith Fault.Misspelt (Pitch.parse text) := by
  unfold Pitch.parse
  split
  · exact .ok _
  · exact .error ⟨_, rfl⟩

theorem stops_midiOf (text : String) : StopsWith Fault.Misspelt (midiOf text) :=
  (stops_parse text).bind fun _ => .ok _

theorem stops_transposeText (text : String) (semitones : Int) :
    StopsWith Fault.Misspelt (transposeText text semitones) := by
  unfold transposeText
  split
  · exact .ok _
  · exact (stops_midiOf text).bind fun _ => .ok _

theorem stops_shiftOctaveText (text : String) (octaves : Int) :
    StopsWith Fault.Misspelt (shiftOctaveText text octaves) := by
  unfold shiftOctaveText
  split
  · exact .ok _
  · exact (stops_parse text).bind fun _ => .ok _

end Pitch

omit [Scalar α] in
theorem Context.stops_place (c : Context α) (pitch : String) :
    StopsWith Fault.Misspelt (c.place pitch) := by
  unfold place placePitch
  split
  · exact .ok _
  · exact (Pitch.stops_shiftOctaveText _ _).bind fun _ => Pitch.stops_transposeText _ _

namespace Melody

theorem stops_tokens (notes : List String) : StopsWith Fault.Misspelt (tokens α notes) :=
  .mapM Token.stops_parse _

theorem stops_transpose (notes : List String) (semitones : Int) :
    StopsWith Fault.Misspelt (transpose α notes semitones) :=
  (stops_tokens notes).bind fun _ => .ok _

theorem stops_invert (notes : List String) (axis : Option String) :
    StopsWith Fault.Misspelt (invert α notes axis) := by
  refine (stops_tokens notes).bind fun ts => ?_
  cases axis with
  | some text => exact (Pitch.stops_midiOf text).bind fun _ => .ok _
  | none =>
      dsimp only
      split
      · exact .ok _
      · exact .ok _

end Melody

/-! ## §3  Changing the notes of a pattern -/

theorem Fault.Misspelt.isInput {why : Fault} (h : why.Misspelt) : why.isInput = true := by
  obtain ⟨reason, rfl⟩ := h
  rfl

/-- Faults among which are those of the input and those of counting. -/
structure Fault.Covers (α : Type) [Scalar α] (P : Fault → Prop) : Prop where
  input : ∀ {why : Fault}, why.isInput = true → P why
  toWhole : ∀ (pick : Rat → Int) (x : α), StopsWith P (toWhole pick x)
  scalarOf : ∀ n : Int, StopsWith P (scalarOf n : Outcome α)

/-- Any fault but that of a chain of references that does not end. -/
def Fault.Shallow (why : Fault) : Prop :=
  why ≠ .tooDeep

theorem Fault.covers_shallow : Covers α Shallow where
  input := by
    rintro _ h rfl
    cases h
  toWhole pick x := by
    unfold Partitura.toWhole
    split
    · exact .ok _
    · exact .error nofun
    · exact .error nofun
  scalarOf n := by
    unfold Partitura.scalarOf
    split
    · exact .ok _
    · exact .error nofun

/-- Counted exactly, no number is out of reach. -/
theorem Fault.covers_exact [Elementary] (h : ∀ {why : Fault}, why.isInput = true → P why) :
    Covers Rat P where
  input := h
  toWhole _ _ := .ok _
  scalarOf _ := .ok _

variable (hP : Fault.Covers α P)

include hP

theorem Fault.Covers.of_misspelt {r : Outcome β} (h : StopsWith Misspelt r) : StopsWith P r :=
  h.imp fun _ hwhy => hP.input hwhy.isInput

namespace Melody

theorem stops_wholeOf {v : Value α} (hkind : v.isCount = false → P .wrongKind) :
    StopsWith P (wholeOf v) := by
  cases v with
  | int n => exact .ok n
  | bool b => exact .ok _
  | real x => exact hP.toWhole _ x
  | text s =>
      unfold wholeOf
      dsimp only
      split
      · exact .ok _
      · exact .error (hP.input rfl)
  | null | list vs | mapping fields => exact .error (hkind rfl)

theorem stops_factorOf {v : Value α} (hkind : v.isNumber = false → P .wrongKind) :
    StopsWith P (factorOf v) := by
  cases v with
  | int n => exact hP.scalarOf n
  | bool b | real x => exact .ok _
  | null | text s | list vs | mapping fields => exact .error (hkind rfl)

omit hP [Scalar α] in
theorem stops_axisOf {v : Value α} (hkind : (v.isNull || v.isText) = false → P .wrongKind) :
    StopsWith P (axisOf v) := by
  cases v with
  | null | text s => exact .ok _
  | bool b | int n | real x | list vs | mapping fields => exact .error (hkind rfl)

theorem stops_augmentBy (notes : List String) {factor : Value α}
    (hkind : factor.isNumber = false → P .wrongKind) : StopsWith P (augmentBy notes factor) := by
  refine (hP.of_misspelt (stops_tokens notes)).bind fun ts => ?_
  split
  · exact .ok _
  · exact (stops_factorOf hP hkind).bind fun _ => .ok _

theorem stops_invertBy (notes : List String) {axis : Value α}
    (hkind : (axis.isNull || axis.isText) = false → P .wrongKind) :
    StopsWith P (invertBy notes axis) :=
  (hP.of_misspelt (stops_tokens notes)).bind fun _ => (stops_axisOf hkind).bind fun _ =>
    hP.of_misspelt (stops_invert notes _)

theorem stops_transform (notes : List String) (operation : String) (params : Fields α)
    (hkind : takes operation params = false → P .wrongKind) :
    StopsWith P (transform notes operation params) := by
  unfold transform
  dsimp only
  split
  · exact stops_invertBy hP notes hkind
  · exact .ok _
  · exact stops_augmentBy hP notes hkind
  · exact stops_augmentBy hP notes hkind
  · exact (stops_wholeOf hP hkind).bind fun _ => hP.of_misspelt (stops_transpose _ _)
  · exact (stops_wholeOf hP hkind).bind fun _ => hP.of_misspelt (stops_transpose _ _)
  · exact .error (hP.input rfl)

end Melody

theorem Transformation.stops_apply (t : Transformation α)
    (hkind : Melody.takes t.operation t.params = false → P .wrongKind) (source : BasePattern α) :
    Run.StopsWith P (t.apply source) := by
  unfold Transformation.apply
  split
  · exact (Run.StopsWith.warn _).bind fun _ => .pure _
  · refine Run.StopsWith.bind ?_ fun _ => .pure _
    unfold Transformation.notes
    split
    · exact .lift (Melody.stops_transform hP _ _ _ hkind)
    · exact (Run.StopsWith.warn _).bind fun _ => .pure _

theorem stops_shiftNotes (semitones octaves : Int) (notes : List String) :
    StopsWith P (shiftNotes α semitones octaves notes) := by
  have moves (by_ : Int) (notes : List String) : StopsWith P (Melody.transpose α notes by_) :=
    hP.of_misspelt (Melody.stops_transpose notes by_)
  have octavesLater (moved : List String) : StopsWith P
      (if octaves = 0 then pure moved else Melody.transpose α moved (octaves * octaveSize)) := by
    split
    · exact .ok _
    · exact moves _ _
  unfold shiftNotes
  dsimp only
  split
  · exact (StopsWith.ok notes).bind octavesLater
  · exact (moves _ _).bind octavesLater

theorem Inheritance.stops_merge (i : Inheritance α) (parent : BasePattern α) :
    Run.StopsWith P (i.merge parent) := by
  unfold Inheritance.merge
  dsimp only
  split
  · exact (Run.StopsWith.lift (stops_shiftNotes hP _ _ _)).bind fun _ => .pure _
  · split
    · exact (Run.StopsWith.warn _).bind fun _ => .pure _
    · exact .pure _

/-! ## §4  Resolving a pattern -/

theorem stops_conditionHolds (c : Context α) (p : Conditional α) :
    Run.StopsWith P (conditionHolds c p) := by
  have value : Run.StopsWith P (conditionValue c p.condition) := by
    unfold conditionValue
    split
    · exact .pure _
    · exact .ofDraw .unit
    · exact .lift (hP.scalarOf _)
    · exact (Run.StopsWith.warn _).bind fun _ => .pure _
  refine value.bind fun left => ?_
  split
  · exact .pure _
  · exact (Run.StopsWith.warn _).bind fun _ => .pure _

theorem stops_selectName (c : Context α) (p : Conditional α) :
    Run.StopsWith P (selectName c p) := by
  refine (stops_conditionHolds hP c p).bind fun holds => ?_
  split
  · exact .pure _
  · exact .pure _

omit hP [Scalar α] in
theorem stops_patternOf? (c : Context α) {v : Value α} (hkind : v.isKey = false → P .wrongKind) :
    StopsWith P (patternOf? c v) := by
  cases v with
  | list vs | mapping fields => exact .error (hkind rfl)
  | null | bool b | int n | real x | text s => exact .ok _

omit hP in
/-- The name that a condition selects can be looked up if the condition is usable. -/
theorem isKey_of_selectName {c : Context α} {p : Conditional α} {v : Value α}
    (h : (selectName c p).Yields v) (hp : p.usable = true) : v.isKey = true := by
  obtain ⟨holds, _, h⟩ := h.of_bind
  split at h
  · cases h.of_pure
    rfl
  · cases h.of_pure
    split
    · next htruthy => simpa [Conditional.usable, htruthy] using hp
    · rfl

omit hP in
theorem PatternTable.unusable_of_has {t : PatternTable α} {p : Pattern α} (h : t.Has p)
    (hp : p.usable = false) : t.usable = false := by
  obtain ⟨name, hname⟩ := h
  exact List.all_eq_false.2 ⟨_, mem_of_lookup hname, by simp [hp]⟩

/-- Resolving a pattern stops where a chain of references does not end, and where one of the patterns
on the way is not usable. By induction on the depth that is left. -/
theorem Pattern.stops_resolveWithin (hdeep : P .tooDeep) {c : Context α}
    (hkind : c.patterns.usable = false → P .wrongKind) {depth : Nat} {p : Pattern α}
    (hp : p.usable = false → P .wrongKind) : Run.StopsWith P (p.resolveWithin c depth) := by
  induction depth generalizing p with
  | zero => exact .throw hdeep
  | succ depth ih =>
      have onward {name : String} {q : Pattern α} (hq : c.pattern? name = some q) :
          Run.StopsWith P (q.resolveWithin c depth) :=
        ih fun hunusable => hkind (PatternTable.unusable_of_has ⟨name, hq⟩ hunusable)
      have nothing (message : String) : Run.StopsWith P
          (Run.warn message >>= fun _ => return (none : Option (BasePattern α))) :=
        (Run.StopsWith.warn message).bind fun _ => .pure _
      cases p with
      | base b => exact .pure _
      | conditional p =>
          refine (stops_selectName hP c p).bind_of_yields fun v hv => ?_
          have hkey (h : v.isKey = false) : P .wrongKind :=
            hp (Bool.eq_false_iff.2 fun husable =>
              Bool.eq_false_iff.1 h (isKey_of_selectName hv husable))
          refine (Run.StopsWith.lift (stops_patternOf? c hkey)).bind_of_yields fun target? ht => ?_
          cases target? with
          | none => exact nothing _
          | some target =>
              obtain ⟨name, _, hname⟩ := patternOf?_eq_some ht.of_lift
              exact onward hname
      | inheritance i =>
          unfold resolveWithin
          split
          · exact nothing _
          · next parent hparent =>
              refine (onward hparent).bind fun resolved? => ?_
              cases resolved? with
              | none => exact .pure _
              | some resolved => exact (i.stops_merge hP resolved).bind fun _ => .pure _
      | transformation t =>
          unfold resolveWithin
          split
          · exact nothing _
          · next source hsource =>
              refine (onward hsource).bind fun resolved? => ?_
              cases resolved? with
              | none => exact .pure _
              | some resolved => exact t.stops_apply hP hp resolved

end Partitura

import Partitura.Number.Exact
import Partitura.Proofs.Pattern.Fitting
import Partitura.Score.Reader

/-!
# Scores that are read or told of

A score is read, or it is told what is wrong with it, unless one of the values that its readers use as
they are does not fit its use (`Score.Fits`). Then the fault of that use gets out, if no other fault is
found before (`Score.read_answered_iff`). Tracks, sections and settings hold such values only in the
points of an automation; what else may get out of them is a number too large for a scalar.
-/

namespace Partitura

variable {α : Type} [Scalar α]

open Fields Value Outcome Expect

/-! ## §1  Tracks -/

def Track.FieldsFit (data : Fields α) : Prop :=
  (orNull (data.find? "velocity")).Scalable ∧ (orNull (data.find? "humanize")).Scalable

theorem Track.tells_readPatterns (path : String) (data : Fields α) :
    Tells True (readPatterns path data) := by
  unfold readPatterns
  split
  · exact .ok trivial _
  · exact (tells_string _ _).before fun _ => .ok trivial _
  · exact tells_strings _ _

theorem Track.tells_read (path : String) (v : Value α) :
    Tells (v.WhenMapping FieldsFit) (Track.read path v) :=
  tells_whenMapping _ fun _ _ => (tells_readPatterns _ _).after fun _ _ =>
    (tells_optionalNumber _ _).bind fun _ _ => (tells_whole _ _).after fun _ _ =>
      (tells_optionalNumber _ _).before fun _ => (tells_whole _ _).after fun _ _ =>
        (tells_whole _ _).after fun _ _ => .ok trivial _

/-! ## §2  Sections -/

def CurvePoint.FieldsFit (point : Fields α) : Prop :=
  (orNull (point.get? "time")).Scalable ∧ (orNull (point.get? "value")).Scalable

theorem CurvePoint.tells_read (path : String) (i : Nat) (v : Value α) :
    Tells (v.WhenMapping FieldsFit) (CurvePoint.read path i v) :=
  tells_whenMapping _ fun _ _ => (tells_number _ _).bind fun _ _ =>
    (tells_number _ _).before fun _ => .ok trivial _

/-- The start and the end of a curve; a curve ends where it starts unless it says otherwise. -/
def EndsFit (data : Fields α) (standard : α) : Prop :=
  ((data.get? "start").getD (.real standard)).Scalable ∧
    ((data.get? "end").getD ((data.get? "start").getD (.real standard))).Scalable

def Automation.FieldsFit (data : Fields α) : Prop :=
  (orElse (data.get? "points") (.list [])).EachItem (WhenMapping CurvePoint.FieldsFit) ∧
    EndsFit data 0.0

theorem Automation.tells_read (path : String) (v : Value α) :
    Tells (v.WhenMapping FieldsFit) (Automation.read path v) := by
  refine tells_whenMapping _ fun data _ => ?_
  rw [← bind_assoc]
  exact (tells_eachItem fun _ => tells_each (CurvePoint.tells_read path)).bind fun _ _ =>
    (tells_number _ _).bind fun _ _ => (tells_number _ _).before fun _ => .ok trivial _

theorem DensityCurve.tells_read (path : String) (v : Value α) :
    Tells (v.WhenMapping fun data => EndsFit data 1.0) (DensityCurve.read path v) :=
  tells_whenMapping _ fun _ _ => (tells_number _ _).bind fun _ _ =>
    (tells_number _ _).before fun _ => .ok trivial _

/-- Each entry of a mapping is as `S` says. -/
def EntriesFit (S : Value α → Prop) (v : Option (Value α)) : Prop :=
  (orElse v (.mapping [])).WhenMapping fun entries => ∀ entry ∈ entries, S entry.2

theorem tells_readEntries {β : Type} {S : Value α → Prop} (path : String) (v : Option (Value α))
    {read : String → Value α → Outcome β} (hread : ∀ name v, Tells (S v) (read name v)) :
    Tells (EntriesFit S v) (readEntries path v read) :=
  tells_whenMapping _ fun _ _ => Tells.mapM fun entry _ =>
    (hread entry.1 entry.2).before fun _ => .ok trivial _

def Section.FieldsFit (data : Fields α) : Prop :=
  (orNull (data.get? "bars")).Scalable ∧
    EntriesFit (WhenMapping Track.FieldsFit) (data.get? "tracks") ∧
    (orNull (data.find? "tempo")).Scalable ∧
    (orNull (data.find? "density")).WhenMapping (fun density => EndsFit density 1.0) ∧
    EntriesFit (WhenMapping Automation.FieldsFit) (data.get? "automation")

theorem Section.tells_read (name : String) (v : Value α) :
    Tells (v.WhenMapping FieldsFit) (Section.read name v) := by
  refine tells_whenMapping _ fun data _ => ?_
  unfold FieldsFit
  cases data.get? "bars" with
  | none => exact .malformed _
  | some bars =>
      dsimp only
      refine (tells_number _ bars).bind fun _ _ =>
        (tells_readEntries _ _ fun track v => Track.tells_read _ v).bind fun _ _ =>
          (tells_optionalNumber _ _).bind fun _ _ => ?_
      generalize orNull (data.find? "density") = density
      cases density with
      | null =>
          exact (Tells.ok nofun none).bind fun _ _ =>
            (tells_readEntries _ _ fun target v => Automation.tells_read _ v).before fun _ =>
              .ok trivial _
      | bool b | int n | real x | text s | list vs | mapping fields =>
          exact ((DensityCurve.tells_read _ _).map some).bind fun _ _ =>
            (tells_readEntries _ _ fun target v => Automation.tells_read _ v).before fun _ =>
              .ok trivial _

/-! ## §3  Scores -/

def Settings.FieldsFit (data : Fields α) : Prop :=
  ((data.get? "tempo").getD (.real defaultTempo)).Scalable ∧
    ((data.get? "swing").getD (.real defaultSwing)).Scalable

theorem Settings.tells_read (settings meta_ : Value α) :
    Tells (settings.WhenMapping FieldsFit) (Settings.read settings meta_) :=
  tells_whenMapping _ fun _ _ => (tells_number _ _).bind fun _ _ =>
    (tells_number _ _).before fun _ => .ok trivial _

def Score.FieldsFit (data : Fields α) : Prop :=
  (orElse (data.get? "settings") (.mapping [])).WhenMapping Settings.FieldsFit ∧
    EntriesFit Pattern.Fits (data.get? "patterns") ∧
    EntriesFit (WhenMapping Section.FieldsFit) (data.get? "sections")

def Score.Fits (v : Value α) : Prop :=
  v.WhenMapping FieldsFit

theorem Score.tells_read (v : Value α) : Tells (Score.Fits v) (Score.read v) := by
  refine tells_whenMapping _ fun data _ => (tells_mapping _ _).after fun _ _ => ?_
  cases orNull (data.get? "arrangement") with
  | null => exact .malformed _
  | bool b | int n | real x | text s | list vs | mapping fields =>
      exact (Settings.tells_read _ _).bind fun _ _ =>
        (tells_readEntries _ _ Pattern.tells_read).bind fun _ _ =>
          (tells_readEntries _ _ Section.tells_read).before fun _ =>
            (tells_strings _ _).after fun _ _ => (tells_mapping _ _).after fun _ _ =>
              .ok trivial _

/-- **A score is read or told of, if all that is used as it is fits its use.** For every value: there is a
score, or it is told why there is none, exactly if the value fits or is rejected for something else before.
Only what does not fit lets other faults out, and these are faults of kinds, of numbers too large for
scalars and of lists that are not made of pairs. -/
theorem Score.read_answered_iff (v : Value α) :
    ((Score.read v).Answered ↔ Score.Fits v ∨ (Score.read v).Rejected) ∧
      ∀ why, Score.read v = .error why →
        (∃ m, why = .malformed m) ∨ ¬ Score.Fits v ∧ why.Escapes :=
  ⟨(Score.tells_read v).answered_iff, (Score.tells_read v).told⟩

/-- A score with one pattern of drums. -/
def drummer (lines : Value Rat) : Value Rat :=
  .mapping
    [("patterns", .mapping [("p", .mapping [("drums", .mapping [("lines", lines)])])]),
     ("arrangement", .list [])]

/-- Lines that are no mapping are not told of: a text, whose characters are no pairs, and a number, which
has no items at all. -/
theorem drummer_unanswered : ∃ _ : Elementary,
    Score.read (drummer (.text "x...x...")) = .error (.rejected (.badUpdate 0 1)) ∧
    Score.read (drummer (.int 5)) = .error .wrongKind ∧
    ¬ (Score.read (drummer (.text "x...x..."))).Answered ∧
    ¬ (Score.read (drummer (.int 5))).Answered := by
  let _ := Elementary.coarse
  have htext : Score.read (drummer (.text "x...x...")) = .error (.rejected (.badUpdate 0 1)) :=
    Outcome.eq_error_of_fault? (by decide +kernel)
  have hnumber : Score.read (drummer (.int 5)) = .error .wrongKind :=
    Outcome.eq_error_of_fault? (by decide +kernel)
  refine ⟨inferInstance, htext, hnumber, ?_, ?_⟩
  · rw [htext]
    rintro (⟨s, hs⟩ | ⟨why, hwhy⟩)
    · cases hs
    · cases hwhy
  · rw [hnumber]
    rintro (⟨s, hs⟩ | ⟨why, hwhy⟩)
    · cases hs
    · cases hwhy

end Partitura

import Partitura.Pattern.Reader
import Partitura.Proofs.Document.Fitting
import Partitura.Proofs.Pattern.Kinds

/-!
# Patterns that are read or told of

For each reader of a pattern, the values that it uses as they are. These are the lines and the hits of
drums, the order of an arpeggio, the states of a walk, the ranges of led voices and the parameters of a
transform; everywhere else the shape is looked at first, and only a number can be too large
(`Pattern.tells_read`).
-/

namespace Partitura

variable {α : Type} [Scalar α]

open Fields Value Outcome Expect

namespace Pattern.Reader

/-! ## §1  Common fields -/

/-- What stands for the levels of an envelope. -/
def levelsOf : Value α → Value α
  | .mapping fields => orNull (Fields.get? fields "velocity")
  | v => v

def EnvelopeFits (v : Value α) : Prop :=
  (levelsOf v).WhenList Scalable

def FinishFits (data : Fields α) : Prop :=
  (orNull (data.find? "velocity")).Scalable ∧ EnvelopeFits (orNull (data.find? "envelope"))

theorem tells_levels (path : String) (vs : List (Value α)) : Tells (∀ w ∈ vs, w.Scalable) (do
    return some (Envelope.levels (← each (fun i x => number (item path i) x) vs))) :=
  (tells_each fun _ _ => tells_number _ _).before fun _ => .ok trivial _

theorem tells_envelope (path : String) (v : Value α) : Tells (EnvelopeFits v) (envelope path v) := by
  unfold EnvelopeFits
  cases v with
  | list vs => exact (tells_levels path vs).iff whenList_list.symm
  | mapping fields =>
      unfold envelope levelsOf
      dsimp only
      generalize orNull (Fields.get? fields "velocity") = inner
      cases inner with
      | list vs => exact (tells_levels path vs).iff whenList_list.symm
      | text s => exact .ok nofun _
      | null | bool b | int n | real x | mapping fields => exact .malformed _
  | null | text s => exact .ok nofun _
  | bool b | int n | real x => exact .malformed _

theorem tells_finish (path : String) (data : Fields α) :
    Tells (FinishFits data) (finish path data) :=
  (tells_optionalNumber _ _).bind fun _ _ => (tells_envelope _ _).before fun _ => .ok trivial _

/-! ## §2  Contents -/

omit [Scalar α] in
theorem tells_pairOf (i : Nat) (v : Value α) : Tells v.IsPair (pairOf i v) := by
  refine Tells.bind_found escapes_items fun vs _ => ?_
  split
  · refine .escapes .wrongKind ?_
    rintro ⟨k, x, ⟨⟩, hkey⟩
    cases hkey
  · refine .escapes .wrongKind ?_
    rintro ⟨k, x, ⟨⟩, hkey⟩
    cases hkey
  · next k x hlist hmapping _ =>
      refine .ok ⟨k, x, rfl, ?_⟩ _
      cases k with
      | list vs => exact absurd rfl (hlist vs)
      | mapping fields => exact absurd rfl (hmapping fields)
      | null | bool b | int n | real x | text s => rfl
  · next hpair =>
      refine .escapes (.badUpdate i _) ?_
      rintro ⟨k, x, rfl, _⟩
      exact hpair k x rfl

theorem tells_fieldsOf (v : Value α) : Tells v.MakesMapping (fieldsOf v) := by
  have hlist (hno : ∀ fields, v ≠ .mapping fields) : Tells v.MakesMapping (do
      return fieldsOfPairs (← each pairOf (← v.items))) := by
    have h : Tells (v.EachItem IsPair) (do
        return fieldsOfPairs (← each pairOf (← v.items))) :=
      tells_eachItem fun _ => (tells_each tells_pairOf).before fun _ => .ok trivial _
    refine h.iff ⟨.inr, fun h => h.resolve_left ?_⟩
    rintro ⟨fields, hv⟩
    exact hno fields hv
  cases v with
  | mapping fields => exact .ok (.inl ⟨fields, rfl⟩) fields
  | null | bool b | int n | real x | text s | list vs => exact hlist nofun

/-- The lines of drums, what is hit, and for how long. -/
def DrumsFit (data : Fields α) : Prop :=
  (orElse (data.find? "lines") (.mapping [])).MakesMapping ∧
    (orElse (data.find? "hits") (.list [])).EachItem
      (WhenMapping fun hit => (orNull (hit.get? "velocity")).Scalable) ∧
    (orNull (data.find? "bars")).Scalable

def ArpeggioFits (config : Fields α) : Prop :=
  ((config.find? "gate").getD (.real 0.8)).Scalable ∧
    ((orNull (config.find? "pattern")).isNull = true ∨
      (orNull (config.find? "pattern")).HasItems)

def MarkovFits (config : Fields α) : Prop :=
  (orElse (config.find? "states") (.list [])).HasItems

def VoiceLeadFits (config : Fields α) : Prop :=
  (orNull (config.find? "voice_ranges")).WhenMapping fun given =>
    ∀ entry ∈ given, entry.2.HasItems

theorem tells_drumLines (data : Fields α) :
    Tells (orElse (data.find? "lines") (.mapping [])).MakesMapping (drumLines data) := by
  refine (tells_fieldsOf _).before fun lines => ?_
  dsimp only
  split
  · exact .ok trivial _
  · exact .ok trivial _

theorem tells_drumHit (path : String) (i : Nat) (v : Value α) :
    Tells (v.WhenMapping fun hit => (orNull (hit.get? "velocity")).Scalable) (drumHit path i v) :=
  tells_whenMapping _ fun _ _ => (tells_string _ _).after fun _ _ =>
    (tells_optionalNumber _ _).before fun _ => .ok trivial _

theorem tells_drums (path : String) (data : Fields α) :
    Tells (DrumsFit data) (drums path data) := by
  refine (tells_drumLines data).bind fun lines _ => ?_
  refine Tells.after ?lines fun _ _ => ?rest
  case lines => exact .mapM_true (fun ⟨_, _⟩ => (tells_string _ _).before fun _ => .ok trivial _) _
  case rest =>
    rw [← bind_assoc]
    refine (tells_eachItem fun _ => tells_each (tells_drumHit path)).bind fun _ _ => ?_
    exact (tells_optionalNumber _ _).before fun _ => .ok trivial _

theorem tells_arpeggio (path : String) (config : Fields α) :
    Tells (ArpeggioFits config) (arpeggio path config) := by
  unfold ArpeggioFits arpeggio
  dsimp only
  generalize orNull (config.find? "pattern") = order
  refine (tells_string _ _).after fun _ _ => (tells_whole _ _).after fun _ _ =>
    (tells_atLeast _ _ _).after fun _ _ => (tells_number _ _).bind fun _ _ =>
      (tells_optionalWhole _ _).after fun _ _ => ?_
  cases order with
  | null => exact .ok (.inl rfl) _
  | bool b | int n | real x | text s | list vs | mapping fields =>
      refine Tells.iff (S := HasItems _) ?_ ⟨.inr, fun h => h.resolve_left nofun⟩
      exact (tells_items _).before fun _ =>
        ((Tells.mapM_true (tells_whole _) _).map some).before fun _ => .ok trivial _

theorem tells_euclidean (path : String) (config : Fields α) :
    Tells True (euclidean path config) :=
  (tells_whole _ _).after fun _ _ => (tells_whole _ _).after fun _ _ =>
    (tells_whole _ _).after fun _ _ => .ok trivial _

theorem tells_durations (path : String) (v : Value α) : Tells True (durations path v) := by
  unfold durations
  cases v with
  | text s =>
      dsimp only
      rw [pure_bind]
      split
      · exact .malformed _
      · exact .malformed _
      · exact .ok trivial _
  | null | bool b | int n | real x | list vs | mapping fields =>
      refine ((tells_strings path _).map _).after fun cycle _ => ?_
      dsimp only
      split
      · exact .malformed _
      · exact .malformed _
      · exact .ok trivial _

theorem tells_markov (path : String) (config : Fields α) :
    Tells (MarkovFits config) (markov path config) := by
  refine (tells_durations _ _).after fun _ _ => (tells_items _).before fun _ => ?_
  exact (tells_whole _ _).after fun _ _ => (tells_whole _ _).after fun _ _ =>
    (tells_optionalWhole _ _).after fun _ _ => .ok trivial _

theorem tells_continuation (path : String) (config : Fields α) :
    Tells True (continuation path config) :=
  (tells_string _ _).after fun _ _ => (tells_string _ _).after fun _ _ =>
    (tells_whole _ _).after fun _ _ => (tells_whole _ _).after fun _ _ => .ok trivial _

theorem tells_voiceLead (path : String) (config : Fields α) :
    Tells (VoiceLeadFits config) (voiceLead path config) := by
  unfold VoiceLeadFits voiceLead
  dsimp only
  generalize orNull (config.find? "voice_ranges") = ranges
  refine (tells_strings _ _).after fun _ _ => (tells_whole _ _).after fun _ _ =>
    (tells_strings _ _).after fun _ _ => ?_
  cases ranges with
  | null => exact .ok nofun _
  | bool b | int n | real x | text s | list vs | mapping fields =>
      refine tells_whenMapping _ fun given _ => Tells.before (Tells.map some ?_) fun _ => .ok trivial _
      exact Tells.mapM fun entry _ => (tells_items entry.2).before fun _ => .ok trivial _

theorem tells_tuplet (path : String) (config : Fields α) : Tells True (tuplet path config) := by
  unfold tuplet
  split
  · exact (tells_strings _ _).before fun _ => .ok trivial _
  · exact .malformed _

theorem tells_degrees (path where_ : String) (data : Fields α) (v : Value α) :
    Tells True (degrees path where_ data v) := by
  cases v with
  | list vs =>
      unfold degrees
      dsimp only
      split
      · split
        · exact (tells_strings _ _).before fun _ => .ok trivial _
        · exact .ok trivial _
      · exact .ok trivial _
  | null | bool b | int n | real x | text s | mapping fields => exact .malformed _

/-- What the content of a kind has to be like. -/
def ContentFits (v : Value α) : ContentKind → Prop
  | .drums => v.WhenMapping DrumsFit
  | .arpeggio => v.WhenMapping ArpeggioFits
  | .markov => v.WhenMapping MarkovFits
  | .voiceLead => v.WhenMapping VoiceLeadFits
  | .notes | .chords | .degrees | .euclidean | .continuation | .tuplet | .rest => True

theorem tells_content (path : String) (data : Fields α) (v : Value α) (k : ContentKind) :
    Tells (ContentFits v k) (content path data v k) := by
  cases k with
  | notes | chords => exact (tells_strings _ _).map _
  | degrees => exact tells_degrees _ _ _ _
  | rest => exact (tells_string _ _).map _
  | drums => exact tells_whenMapping _ fun _ _ => (tells_drums _ _).before fun _ => .ok trivial _
  | arpeggio => exact tells_whenMapping _ fun _ _ => (tells_arpeggio _ _).before fun _ => .ok trivial _
  | markov => exact tells_whenMapping _ fun _ _ => (tells_markov _ _).before fun _ => .ok trivial _
  | voiceLead =>
      exact tells_whenMapping _ fun _ _ => (tells_voiceLead _ _).before fun _ => .ok trivial _
  | euclidean =>
      exact (tells_mapping _ _).after fun _ _ => (tells_euclidean _ _).before fun _ => .ok trivial _
  | continuation =>
      exact (tells_mapping _ _).after fun _ _ =>
        (tells_continuation _ _).before fun _ => .ok trivial _
  | tuplet =>
      exact (tells_mapping _ _).after fun _ _ =>
        (tells_tuplet _ _).before fun ⟨_, _⟩ => .ok trivial _

/-! ## §3  References -/

def ConditionalFits (v : Value α) : Prop :=
  v.WhenMapping fun config => (orNull (config.get? "value")).Scalable

theorem tells_conditional (path : String) (v : Value α) :
    Tells (ConditionalFits v) (conditional path v) :=
  tells_whenMapping _ fun _ _ => (tells_string _ _).after fun _ _ => (tells_string _ _).after fun _ _ =>
    (tells_number _ _).before fun _ => (tells_string _ _).before fun _ => .ok trivial _

def InheritanceFits (data : Fields α) : Prop :=
  (orElse (data.find? "overrides") (.mapping [])).WhenMapping fun (overrides : Fields α) =>
    ((overrides.get? "velocity").getD (orNull (data.find? "velocity"))).Scalable ∧
      EnvelopeFits (orNull (data.find? "envelope"))

theorem tells_inheritance (path : String) (data : Fields α) (v : Value α) :
    Tells (InheritanceFits data) (inheritance path data v) := by
  refine tells_whenMapping _ fun overrides _ => (tells_string _ _).after fun _ _ => ?_
  dsimp only
  generalize orNull (Fields.get? overrides "notes") = notes
  cases notes with
  | null =>
      exact (tells_whole _ _).after fun _ _ => (tells_whole _ _).after fun _ _ =>
        (tells_optionalNumber _ _).bind fun _ _ => (tells_envelope _ _).before fun _ => .ok trivial _
  | bool b | int n | real x | text s | list vs | mapping fields =>
      exact ((tells_strings _ _).map _).after fun _ _ =>
        (tells_whole _ _).after fun _ _ => (tells_whole _ _).after fun _ _ =>
        (tells_optionalNumber _ _).bind fun _ _ => (tells_envelope _ _).before fun _ => .ok trivial _

def TransformationFits (data : Fields α) (v : Value α) : Prop :=
  v.WhenMapping fun config =>
    (orElse (config.get? "params") (.mapping [])).MakesMapping ∧ FinishFits data

theorem tells_transformation (path : String) (data : Fields α) (v : Value α) :
    Tells (TransformationFits data v) (transformation path data v) :=
  tells_whenMapping _ fun _ _ => (tells_string _ _).after fun _ _ => (tells_string _ _).after fun _ _ =>
    (tells_fieldsOf _).bind fun _ _ => (tells_finish _ _).before fun _ => .ok trivial _

/-! ## §4  Patterns -/

/-- What a pattern of a kind has to be like. -/
def KindFits (data : Fields α) (v : Value α) : PatternKind → Prop
  | .reference .conditional => ConditionalFits v
  | .reference .extension => InheritanceFits data
  | .reference .transform => TransformationFits data v
  | .content k => FinishFits data ∧ ContentFits v k

theorem tells_ofKind (path : String) (data : Fields α) (v : Value α) (k : PatternKind) :
    Tells (KindFits data v k) (ofKind path data v k) := by
  cases k with
  | reference k =>
      cases k with
      | conditional => exact (tells_conditional path v).map _
      | extension => exact (tells_inheritance path data v).map _
      | transform => exact (tells_transformation path data v).map _
  | content k =>
      exact (tells_finish path data).bind fun _ _ =>
        (tells_content path data v k).before fun _ => .ok trivial _

end Pattern.Reader

open Pattern.Reader

/-- What is used as it is fits its use: in drums in the short form, or in a pattern of one kind. -/
def Pattern.FieldsFit (data : Fields α) : Prop :=
  (isShortDrums data = true → FinishFits data ∧ DrumsFit data) ∧
    ∀ k, isShortDrums data = false → PatternKind.present data = [k] →
      KindFits data (orNull (data.find? k.field)) k

def Pattern.Fits (v : Value α) : Prop :=
  v.WhenMapping FieldsFit

theorem Pattern.tells_read (name : String) (v : Value α) :
    Tells (Pattern.Fits v) (Pattern.read name v) := by
  cases v with
  | null | bool b | int n | real x | text s | list vs => exact .malformed _
  | mapping data =>
      refine Tells.iff ?_ whenMapping_mapping.symm
      by_cases hshort : isShortDrums data = true
      · rw [read_short hshort]
        refine Tells.iff (S := FinishFits data ∧ DrumsFit data) ?_
          ⟨fun h => ⟨fun _ => h, fun _ hlong => absurd hshort (Bool.eq_false_iff.1 hlong)⟩,
            fun h => h.1 hshort⟩
        exact (tells_finish _ _).bind fun _ _ => (tells_drums _ _).before fun _ => .ok trivial _
      · have hlong : isShortDrums data = false := Bool.eq_false_iff.2 hshort
        rcases hkinds : PatternKind.present data with _ | ⟨k, _ | ⟨k', ks⟩⟩
        · rw [read_none hlong hkinds]
          exact .malformed _
        · rw [read_one hlong hkinds]
          refine (tells_ofKind _ _ _ k).iff ⟨fun h => ⟨fun hs => absurd hs hshort, ?_⟩, ?_⟩
          · intro k' _ hk'
            obtain rfl : k = k' := List.singleton_inj.1 (hkinds.symm.trans hk')
            exact h
          · exact fun h => h.2 k hlong hkinds
        · rw [read_mixed hlong hkinds]
          exact .malformed _

end Partitura

import Partitura.Phrase.Expansion
import Partitura.Proofs.Harmony.Chords
import Partitura.Proofs.Markov.Tables
import Partitura.Proofs.Melody.Continuing
import Partitura.Proofs.Phrase.Envelope

/-!
# What stops a generator

Each way of playing a content stops at notation that cannot be read, and otherwise only where the
content itself is to blame: an arpeggio on the symbol of a rest has no tones to go round
(`stops_ofArpeggio`), and a raw value may be of a kind that cannot be used (`stops_ofDrums`,
`stops_ofEuclidean`, `stops_ofMarkov`, `stops_ofVoiceLead`). Everything that is indexed, divided or
drawn from on the way is there. What is done to the notes afterwards adds nothing (`stops_applyFinish`).

Beats are counted exactly.
-/

namespace Partitura

open Outcome (StopsWith)

variable {P : Fault → Prop}

/-! ## §1  Degrees, drum times and states -/

namespace DegreeEntry

theorem stops_ofText (text : String) : StopsWith Fault.Misspelt (ofText text) := by
  unfold ofText
  dsimp only
  split
  · exact .ok _
  · exact .error ⟨_, rfl⟩

theorem stops_parse {α : Type} [Scalar α] (v : Value α) :
    StopsWith Fault.Misspelt (DegreeEntry.parse v) := by
  cases v with
  | int n | bool b => exact .ok _
  | null | real x | text s | list vs | mapping fields => exact stops_ofText _

end DegreeEntry

theorem Key.stops_degreeMidi (k : Key) (shown : String) (d : Degree) (octave : Int) :
    StopsWith Fault.Misspelt (k.degreeMidi shown d octave) := by
  unfold degreeMidi
  split
  · exact .error ⟨_, rfl⟩
  · exact .ok _

theorem Key.stops_snap (k : Key) (pitch : String) : StopsWith Fault.Misspelt (k.snap pitch) :=
  (Pitch.stops_midiOf pitch).bind fun _ => .ok _

theorem DrumTime.stops_parse {α : Type} [Scalar α] (text : String) :
    StopsWith Fault.Misspelt (DrumTime.parse (α := α) text) := by
  have hpart (part : String) : StopsWith Fault.Misspelt (partBeats (α := α) text part) := by
    unfold partBeats
    split
    · exact (Length.stops_ofText part).bind fun _ => .ok _
    · split
      · exact .ok _
      · exact .error ⟨_, rfl⟩
  unfold DrumTime.parse
  refine StopsWith.foldlM (fun total part => ?_) _ _
  split
  · exact .ok _
  · exact (hpart part).bind fun _ => .ok _

theorem Markov.stops_pitchOf? (k : Key) (octave : Int) (next : Option String) (state : String) :
    StopsWith Fault.Misspelt (pitchOf? k octave next state) := by
  unfold pitchOf?
  split
  · exact .ok _
  · exact .ok _
  · split
    · exact (Pitch.stops_transposeText _ _).map _
    · exact .ok _
  · exact .ok _
  · exact (k.stops_degreeMidi _ _ _).bind fun _ => .ok _

namespace Phrase

variable [Elementary] (hP : Fault.Covers Rat P) (c : Context Rat)

include hP

/-! ## §2  Contents that are written out -/

theorem stops_ofTokensFrom (scale : Rat) (useOwn : Bool) (start : Rat) (ts : List (Token Rat)) :
    StopsWith P (ofTokensFrom c scale useOwn start ts) := by
  induction ts generalizing start with
  | nil => exact .ok _
  | cons t ts ih =>
      cases t with
      | rest l => exact ih _
      | note n =>
          refine StopsWith.bind ?_ fun _ => (ih _).bind fun _ => .ok _
          exact hP.of_misspelt ((c.stops_place _).bind fun _ => .ok _)

theorem stops_ofNotes (scale : Rat) (useOwn : Bool) (notes : List String) :
    StopsWith P (ofNotes c scale useOwn notes) :=
  (StopsWith.mapM (fun _ => hP.of_misspelt (Token.stops_parse _)) _).bind fun ts =>
    (stops_ofTokensFrom hP c scale useOwn _ ts).bind fun _ => .ok _

theorem stops_ofChordsFrom (start : Rat) (chords : List String) :
    Run.StopsWith P (ofChordsFrom c start chords) := by
  induction chords generalizing start with
  | nil => exact .pure _
  | cons text chords ih =>
      refine (Run.StopsWith.lift (hP.of_misspelt (ChordToken.stops_parse _ _))).bind fun t => ?_
      refine Run.StopsWith.bind ?_ fun _ => ?_
      · unfold warnVoicing
        split
        · exact .pure _
        · exact .warn _
      · refine (Run.StopsWith.lift (.mapM (fun pitch => ?_) _)).bind fun _ =>
          (ih _).bind fun _ => .pure _
        exact (hP.of_misspelt (c.stops_place pitch)).bind fun _ => .ok _

theorem stops_ofDegreesFrom (rhythm : List String) (start : Rat) (index : Nat)
    (degrees : List (Value Rat)) : StopsWith P (ofDegreesFrom c rhythm start index degrees) := by
  have hnote (start length : Rat) (e : DegreeEntry) :
      StopsWith P (entryNote? c start length e) := by
    unfold entryNote?
    split
    · exact .ok _
    · exact (hP.of_misspelt (c.key.stops_degreeMidi _ _ _)).bind fun _ =>
        (hP.of_misspelt (c.stops_place _)).bind fun _ => .ok _
  induction degrees generalizing start index with
  | nil => exact .ok _
  | cons v degrees ih =>
      refine (hP.of_misspelt (DegreeEntry.stops_parse v)).bind fun e => StopsWith.bind ?_ fun length =>
        (hnote _ _ e).bind fun _ => (ih _ _).bind fun _ => .ok _
      exact (hP.of_misspelt (Length.stops_ofText _)).bind fun _ => .ok _

theorem stops_ofTuplet (ratio : List (Value Rat)) (notes : List String) :
    StopsWith P (ofTuplet c ratio notes) := by
  have hratio : StopsWith P (ratioOf ratio) := by
    unfold ratioOf
    split
    · split
      · exact .ok _
      · exact .error (hP.input rfl)
    · exact .error (hP.input rfl)
  refine hratio.bind_of_ok fun parts hparts => ?_
  have hactual : (parts.1 : Int) ≠ 0 := by
    have hpos : 0 < parts.1 := (ratioOf_pos hparts).1
    omega
  exact (StopsWith.of_ok ⟨_, Exact.quotientOf_eq _ hactual⟩).bind fun _ => stops_ofNotes hP c _ _ _

/-! ## §3  Broken chords -/

omit [Elementary] hP in
/-- A round over some tones is over some. -/
theorem eq_nil_of_round {tones : List Int} {m : Arpeggio.Mode} (h : m.round tones = []) :
    tones = [] := by
  cases m with
  | up | random => exact h
  | down => exact List.reverse_eq_nil_iff.1 h
  | upDown => exact (List.append_eq_nil_iff.1 h).1
  | downUp => exact List.reverse_eq_nil_iff.1 (List.append_eq_nil_iff.1 h).1

omit [Elementary] hP in
theorem stops_cycle {β : Type} {order : List β} (hnone : order = [] → P .divisionByZero)
    (count : Nat) : StopsWith P (Arpeggio.cycle order count) := by
  refine .mapM (fun i => ?_) _
  split
  · exact .ok _
  · next hbeyond =>
      refine .error (hnone (List.length_eq_zero_iff.1 (Nat.le_zero.1 (not_lt.1 fun hlength => ?_))))
      exact absurd (Nat.mod_lt i hlength) (not_lt.2 (List.getElem?_eq_none_iff.1 hbeyond))

omit [Elementary] hP in
theorem stops_order {count : Nat} (hround : count = 0 → P .divisionByZero)
    (hchoice : count = 0 → P .emptyChoice) (steps : Option Int) (m : Arpeggio.Mode) :
    Draw.StopsWith P (m.order count steps) := by
  have hcount (h : Arpeggio.ascending count = []) : count = 0 := by
    simpa [Arpeggio.ascending] using h
  unfold Arpeggio.Mode.order
  dsimp only
  split
  · exact .mapM fun _ _ => Draw.stops_choice fun h => hchoice (hcount h)
  · split
    · exact .lift (stops_cycle (fun h => hround (hcount (eq_nil_of_round h))) _)
    · exact .pure _

theorem stops_arpeggioOrder (a : ArpeggioContent Rat) {toneCount : Nat}
    (hround : toneCount = 0 → P .divisionByZero) (hchoice : toneCount = 0 → P .emptyChoice) :
    Run.StopsWith P (arpeggioOrder a toneCount) := by
  unfold arpeggioOrder
  split
  · exact .pure _
  · split
    · refine Run.StopsWith.bind ?_ fun m => ?_
      · unfold arpeggioMode
        split
        · exact .pure _
        · exact (Run.StopsWith.warn _).bind fun _ => .pure _
      · split
        · exact .throw_bind (hP.input rfl) _
        · next hoctaves =>
            have hzero (h : toneCount * a.octaves.toNat = 0) : toneCount = 0 :=
              (Nat.mul_eq_zero.1 h).resolve_right (by omega)
            exact .ofDraw (stops_order (fun h => hround (hzero h)) (fun h => hchoice (hzero h)) _ m)
    · exact .pure _

theorem stops_ofTonesFrom {tones : List String} (hround : tones = [] → P .divisionByZero)
    (length gate start : Rat) (order : List Int) :
    StopsWith P (ofTonesFrom c tones length gate start order) := by
  have htone (number : Int) : StopsWith P (arpeggioTone tones number) := by
    unfold arpeggioTone
    dsimp only
    split
    · next hnone => exact .error (hround (by simpa using hnone))
    · exact hP.of_misspelt (Pitch.stops_shiftOctaveText _ _)
  induction order generalizing start with
  | nil => exact .ok _
  | cons number order ih =>
      exact (htone number).bind fun _ => (hP.of_misspelt (c.stops_place _)).bind fun _ =>
        (ih _).bind fun _ => .ok _

/-- Only the symbol of a rest has no tones to go round or to choose from. -/
theorem stops_ofArpeggio (a : ArpeggioContent Rat)
    (hround : (Content.arpeggio a).hasTones = false → P .divisionByZero)
    (hchoice : (Content.arpeggio a).hasTones = false → P .emptyChoice) :
    Run.StopsWith P (ofArpeggio c a) := by
  refine (Run.StopsWith.lift (hP.of_misspelt (ChordToken.stops_notesOf _ _))).bind_of_yields
    fun tones htones => ?_
  have hrest (h : tones = []) : (Content.arpeggio a).hasTones = false := by
    by_contra htrue
    have hchord : Token.isRest (a.chord ++ ":q") = false := by
      simpa [Content.hasTones] using htrue
    exact ChordToken.notesOf_ne_nil hchord htones.of_lift h
  have hlength (h : tones.length = 0) : (Content.arpeggio a).hasTones = false :=
    hrest (List.length_eq_zero_iff.1 h)
  refine (Run.StopsWith.lift (hP.of_misspelt (Length.stops_ofText _))).bind fun length => ?_
  refine (stops_arpeggioOrder hP a (fun h => hround (hlength h)) fun h => hchoice (hlength h)).bind
    fun order => ?_
  exact (Run.StopsWith.lift (stops_ofTonesFrom hP c (fun h => hround (hrest h)) _ _ _ _)).bind
    fun _ => .pure _

/-! ## §4  Drums and even rhythms -/

omit [Elementary] hP in
theorem stops_items {v : Value Rat} (hkind : v.hasItems = false → P .wrongKind) :
    StopsWith P v.items := by
  cases v with
  | text s | list vs | mapping fields => exact .ok _
  | null | bool b | int n | real x => exact .error (hkind rfl)

omit [Elementary] hP in
theorem isText_eq_false {v : Value Rat} (h : ∀ s, v = .text s → False) : v.isText = false := by
  cases v with
  | text s => exact (h s rfl).elim
  | null | bool b | int n | real x | list vs | mapping fields => rfl

theorem stops_ofDrums (d : DrumsContent Rat) (hkind : d.usable = false → P .wrongKind) :
    StopsWith P (ofDrums c d) := by
  have htimes : StopsWith P (d.hits.mapM fun h => DrumTime.parse (α := Rat) h.time) :=
    .mapM (fun _ => hP.of_misspelt (DrumTime.stops_parse _)) _
  refine (hP.of_misspelt (Length.stops_ofText _)).bind fun length => ?_
  dsimp only
  split
  · next hlines =>
      unfold ofLooseDrums
      dsimp only
      split
      · next htruthy =>
          refine StopsWith.bind ((stops_items fun hitems => hkind ?_).map _) fun steps =>
            htimes.bind fun _ => .ok _
          simp [DrumsContent.usable, hlines, htruthy, hitems]
      · exact (StopsWith.ok _).bind fun steps => htimes.bind fun _ => .ok _
  · exact .ok _

theorem stops_ofEuclidean (e : EuclideanContent Rat) (hkind : e.usable = false → P .noSuchMember) :
    StopsWith P (ofEuclidean c e) := by
  have hpitch : StopsWith P (rhythmPitch c e) := by
    unfold rhythmPitch
    split
    · exact .ok _
    · next hdrum =>
        split
        · next htruthy =>
            split
            · exact hP.of_misspelt (c.stops_place _)
            · next hother =>
                refine .error (hkind ?_)
                have htext : e.pitch.isText = false := isText_eq_false hother
                simp [EuclideanContent.usable, Value.isTextIfAny, hdrum, htruthy, htext]
        · exact hP.of_misspelt (c.stops_place _)
  exact (hP.of_misspelt (Length.stops_ofText _)).bind fun _ => hpitch.bind fun _ => .ok _

/-! ## §5  Walked melodies -/

omit [Elementary] hP in
theorem numbered_rowOf {v : Value Rat} {row : Markov.Row Rat} (h : rowOf v = .ok row)
    (hv : v.isRow = true) : Numbered row := by
  cases v with
  | mapping fields =>
      cases h
      intro option hoption
      obtain ⟨field, hfield, rfl⟩ := List.mem_map.1 hoption
      have hnumber : field.2.isNumber = true := List.all_eq_true.1 hv field hfield
      change Weight.ofValue field.2 ≠ .unusable
      cases hw : field.2 with
      | bool b | int n | real x => exact nofun
      | null | text s | list vs | mapping fields =>
          rw [hw] at hnumber
          cases hnumber
  | null | bool b | int n | real x | text s | list vs => cases h

omit hP in
theorem stops_tableOf (states : List String) {v : Value Rat}
    (hkind : v.isTable = false → P .wrongKind) (hmember : v.isTable = false → P .noSuchMember) :
    StopsWith P (tableOf states v) := by
  cases v with
  | mapping fields =>
      have hrow {field : String × Value Rat} (hfield : field ∈ fields) (h : field.2.isRow = false) :
          (Value.mapping fields).isTable = false :=
        List.all_eq_false.2 ⟨field, hfield, by simp [h]⟩
      refine StopsWith.bind (.mapM_of_mem fun field hfield => ?_) fun _ => .ok _
      refine StopsWith.bind_of_ok ?_ fun row hrowOf => StopsWith.bind ?_ fun _ => .ok _
      · cases hv : field.2 with
        | mapping weights => exact .ok _
        | null | bool b | int n | real x | text s | list vs =>
            exact .error (hmember (hrow hfield (by rw [hv]; rfl)))
      · exact Markov.Row.stops_problems _ _ fun hnumbered => hkind (hrow hfield
          (Bool.eq_false_iff.2 fun hv => hnumbered (numbered_rowOf hrowOf hv)))
  | null | bool b | int n | real x | text s | list vs => exact .error (hmember rfl)

omit hP in
/-- A table that is written out has been looked at, so its weights are numbers. -/
theorem numbered_tableOf {states : List String} {v : Value Rat} {table : Markov.Table Rat}
    {found : List String} (h : tableOf states v = .ok (table, found)) : table.Numbered := by
  cases v with
  | mapping fields =>
      obtain ⟨rows, hrows, h⟩ := Outcome.bind_ok h
      cases h
      intro row hrow
      obtain ⟨looked, hlooked, rfl⟩ := List.mem_map.1 hrow
      obtain ⟨field, _, h⟩ := exists_of_mem_right (Outcome.mapM_ok hrows) hlooked
      obtain ⟨weights, _, h⟩ := Outcome.bind_ok h
      obtain ⟨found, hfound, h⟩ := Outcome.bind_ok h
      cases h
      exact Markov.Row.numbered_of_problems hfound
  | null | bool b | int n | real x | text s | list vs => cases h

omit hP in
theorem stops_walkTable (m : MarkovContent Rat) (hkind : m.usable = false → P .wrongKind)
    (hmember : m.usable = false → P .noSuchMember) : Run.StopsWith P (walkTable m) := by
  have hpreset (p : Markov.Preset) : StopsWith P (p.table (α := Rat) m.states) := by
    obtain ⟨t, ht, _⟩ := p.table_ok m.states
    exact .of_ok ⟨t, ht⟩
  unfold walkTable
  split
  · next htruthy =>
      have husable (h : m.transitions.isTable = false) : m.usable = false := by
        simp [MarkovContent.usable, htruthy, h]
      refine (Run.StopsWith.lift (stops_tableOf _ (fun h => hkind (husable h)) fun h =>
        hmember (husable h))).bind fun _ => ?_
      exact (Run.StopsWith.warnAll _).bind fun _ => .pure _
  · next htruthy =>
      refine Run.StopsWith.bind (.lift ?_) fun p? => ?_
      · cases hv : m.preset with
        | list vs | mapping fields =>
            refine .error (hkind ?_)
            simp [MarkovContent.usable, htruthy, hv, Value.isKey]
        | null | bool b | int n | real x | text s => exact .ok _
      · split
        · exact .lift (hpreset _)
        · split
          · exact (Run.StopsWith.warn _).bind fun _ => .lift (hpreset _)
          · exact (Run.StopsWith.warn _).bind fun _ => .lift (hpreset _)

omit hP in
theorem numbered_walkTable {m : MarkovContent Rat} {table : Markov.Table Rat}
    (h : (walkTable m).Yields table) : table.Numbered := by
  have hpreset {p : Markov.Preset} (h : p.table m.states = .ok table) : table.Numbered := by
    obtain ⟨t, ht, hnumbered⟩ := p.table_ok m.states
    rw [ht] at h
    cases h
    exact hnumbered
  unfold walkTable at h
  split at h
  · obtain ⟨⟨written, found⟩, hwritten, h⟩ := h.of_bind
    obtain ⟨_, _, h⟩ := h.of_bind
    cases h.of_pure
    exact numbered_tableOf hwritten.of_lift
  · obtain ⟨p?, _, h⟩ := h.of_bind
    split at h
    · exact hpreset h.of_lift
    · split at h
      · obtain ⟨_, _, h⟩ := h.of_bind
        exact hpreset h.of_lift
      · obtain ⟨_, _, h⟩ := h.of_bind
        exact hpreset h.of_lift

omit hP in
theorem stops_walkKey (m : MarkovContent Rat) (hmember : m.usable = false → P .noSuchMember) :
    StopsWith P (walkKey c m) := by
  unfold walkKey
  split
  · next htruthy =>
      split
      · exact .ok _
      · next hother =>
          refine .error (hmember ?_)
          have htext : m.chordScale.isText = false := isText_eq_false hother
          simp [MarkovContent.usable, Value.isTextIfAny, htruthy, htext]
  · exact .ok _

theorem stops_ofStatesFrom (k : Key) (m : MarkovContent Rat) (durations : List String) (start : Rat)
    (index : Nat) (states : List String) :
    Draw.StopsWith P (ofStatesFrom k m durations start index states) := by
  have hpitch (next : Option String) (state : String) :
      StopsWith P (Markov.pitchOf? k m.octave next state) :=
    hP.of_misspelt (Markov.stops_pitchOf? _ _ _ _)
  have hsnap (pitch : String) : StopsWith P (snapWalked k m pitch) := by
    unfold snapWalked
    split
    · exact (hP.of_misspelt (Pitch.stops_midiOf pitch)).bind fun _ => .ok _
    · exact .ok _
  induction states generalizing start index with
  | nil => exact .pure _
  | cons state states ih =>
      refine (Draw.StopsWith.lift (hP.of_misspelt (Length.stops_ofText _))).bind fun length => ?_
      dsimp only
      split
      case' h_1 => refine (Draw.StopsWith.lift (hpitch _ _)).bind fun next => ?_
      case' h_2 => refine (Draw.StopsWith.pure _).bind fun next => ?_
      all_goals
        refine (Draw.StopsWith.lift (hpitch next state)).bind fun pitch? => ?_
        cases pitch? with
        | none => exact ih _ _
        | some pitch =>
            exact (Draw.StopsWith.lift (hsnap pitch)).bind fun _ => Draw.StopsWith.unit.bind fun _ =>
              (ih _ _).bind fun _ => .pure _

omit hP in
/-- Where a walk begins is only asked if it has a step, and has to be a text then. -/
theorem unusable_of_other {m : MarkovContent Rat} (hsteps : ¬ m.steps ≤ 0)
    (htruthy : ¬ (!m.initialState.truthy) = true) (hother : ∀ s, m.initialState = .text s → False) :
    m.usable = false := by
  have htext : m.initialState.isText = false := isText_eq_false hother
  have htruthy : m.initialState.truthy = true := by simpa using htruthy
  simp [MarkovContent.usable, Value.isTextIfAny, hsteps, htruthy, htext]

omit hP in
theorem stops_walkedStates {m : MarkovContent Rat} {table : Markov.Table Rat}
    (htable : table.Numbered) (hkind : m.usable = false → P .wrongKind) :
    Draw.StopsWith P (walkedStates m table) := by
  unfold walkedStates
  split
  · exact .map _ (Markov.Table.stops_walk htable _ _)
  · next hother =>
      split
      · exact .map _ (Markov.Table.stops_walk htable _ _)
      · next htruthy =>
          split
          · exact .pure _
          · next hsteps =>
              split
              · exact .throw (hkind (unusable_of_other hsteps htruthy hother))
              · exact .pure _

omit hP in
theorem unusable_of_walkedStates {m : MarkovContent Rat} {table : Markov.Table Rat}
    (h : (walkedStates m table).Yields none) : m.usable = false := by
  unfold walkedStates at h
  split at h
  · obtain ⟨_, _, heq⟩ := h.of_map
    cases heq
  · next hother =>
      split at h
      · obtain ⟨_, _, heq⟩ := h.of_map
        cases heq
      · next htruthy =>
          split at h
          · cases h.of_pure
          · next hsteps => exact unusable_of_other hsteps htruthy hother

theorem stops_walkNotes (k : Key) (m : MarkovContent Rat) {table : Markov.Table Rat}
    (htable : table.Numbered) (hkind : m.usable = false → P .wrongKind) :
    Draw.StopsWith P (walkNotes k m table) := by
  refine (stops_walkedStates htable hkind).bind_of_yields fun states? hstates => ?_
  dsimp only
  split
  · exact .throw_bind (hP.input rfl) _
  · cases states? with
    | some states => exact stops_ofStatesFrom hP k m _ _ _ states
    | none =>
        exact (Draw.StopsWith.lift (hP.of_misspelt (Length.stops_ofText _))).bind fun _ =>
          .throw (hkind (unusable_of_walkedStates hstates))

theorem stops_ofMarkov (m : MarkovContent Rat) (hkind : m.usable = false → P .wrongKind)
    (hmember : m.usable = false → P .noSuchMember) : Run.StopsWith P (ofMarkov c m) := by
  unfold ofMarkov
  split
  · exact (Run.StopsWith.warn _).bind fun _ => .pure _
  · refine (Run.StopsWith.warnAll _).bind fun _ => ?_
    refine (Run.StopsWith.lift (stops_walkKey c m hmember)).bind fun key => ?_
    refine (stops_walkTable m hkind hmember).bind_of_yields fun table htable => ?_
    have hwalk := stops_walkNotes hP key m (numbered_walkTable htable) hkind
    refine Run.StopsWith.bind ?_ fun walked => ?_
    · unfold onStream
      split
      · exact .ofDraw hwalk
      · exact (Run.StopsWith.lift (hwalk _)).bind fun _ => .pure _
    · refine (Run.StopsWith.lift (.mapM (fun n => ?_) _)).bind fun _ => .pure _
      exact (hP.of_misspelt (c.stops_place _)).bind fun _ => .ok _

/-! ## §6  Continuations and voicings -/

theorem stops_ofContinuation (hdeep : P .tooDeep) (hpatterns : c.patterns.usable = false → P .wrongKind)
    (s : ContinuationContent) : Run.StopsWith P (ofContinuation c s) := by
  have hsource : Run.StopsWith P (continuationSource? c s.source) := by
    unfold continuationSource?
    split
    · exact .pure _
    · next p hp =>
        refine (p.stops_resolveWithin hP hdeep hpatterns fun hunusable => ?_).bind fun _ => .pure _
        exact hpatterns (PatternTable.unusable_of_has ⟨_, hp⟩ hunusable)
  refine hsource.bind fun source? => ?_
  cases source? with
  | none => exact (Run.StopsWith.warn _).bind fun _ => .pure _
  | some notes =>
      refine Run.StopsWith.bind ?_ fun _ => .lift (stops_ofNotes hP c _ _ _)
      unfold continuedNotes
      split
      · exact .lift (Melody.stops_continueWith hP _ _ _ _)
      · exact (Run.StopsWith.warn _).bind fun _ => .pure _

theorem stops_rangeOf {bounds : List (Value Rat)}
    (hkind : bounds.all Value.isText = false → P .wrongKind) :
    StopsWith P (Voicing.rangeOf (.list bounds)) := by
  have hbound {b : Value Rat} (hb : b ∈ bounds) : StopsWith P (Voicing.boundOf b) := by
    cases b with
    | text s => exact hP.of_misspelt (Pitch.stops_midiOf s)
    | null | bool b | int n | real x | list vs | mapping fields =>
        exact .error (hkind (List.all_eq_false.2 ⟨_, hb, nofun⟩))
  rcases bounds with _ | ⟨low, _ | ⟨high, _ | ⟨third, more⟩⟩⟩
  · exact .error (hP.input rfl)
  · exact .error (hP.input rfl)
  · exact (hbound List.mem_cons_self).bind fun _ =>
      (hbound (List.mem_cons_of_mem _ List.mem_cons_self)).bind fun _ => .ok _
  · exact .error (hP.input rfl)

theorem stops_lead (v : VoiceLeadContent Rat) (hkind : v.usable = false → P .wrongKind) :
    StopsWith P (Voicing.lead v.progression v.voices v.style v.constraints
      ((v.voiceRanges.getD []).map fun (name, bounds) => (name, .list bounds))) := by
  have hranges : StopsWith P (Voicing.ranges v.voices
      ((v.voiceRanges.getD []).map fun (name, bounds) => (name, .list bounds))) := by
    refine .mapM (fun i => ?_) _
    dsimp only
    split
    · next given hgiven =>
        obtain ⟨entry, hentry, heq⟩ := List.mem_map.1 (mem_of_lookup hgiven)
        obtain ⟨_, rfl⟩ := Prod.mk.inj heq
        refine stops_rangeOf hP fun hbounds => hkind ?_
        exact List.all_eq_false.2 ⟨entry, hentry, by simp [hbounds]⟩
    · exact .ok _
  unfold Voicing.lead
  split
  · exact .ok _
  · refine hranges.bind fun ranges => ?_
    refine (StopsWith.mapM (fun _ => hP.of_misspelt (ChordToken.stops_notesOf _ _)) _).bind
      fun chords => ?_
    refine (StopsWith.mapM (fun pitches => ?_) _).bind fun candidates => ?_
    · exact (StopsWith.mapM (fun _ => hP.of_misspelt (Pitch.stops_midiOf _)) _).bind fun _ => .ok _
    · split
      · exact .ok _
      · exact .ok _

theorem stops_ofVoicingsFrom (start : Rat) (voicings : List (List String)) :
    StopsWith P (ofVoicingsFrom c start voicings) := by
  induction voicings generalizing start with
  | nil => exact .ok _
  | cons voicing voicings ih =>
      refine (StopsWith.mapM (fun pitch => ?_) _).bind fun _ => (ih _).bind fun _ => .ok _
      exact (hP.of_misspelt (c.stops_place pitch)).bind fun _ => .ok _

theorem stops_ofVoiceLead (v : VoiceLeadContent Rat) (hkind : v.usable = false → P .wrongKind) :
    Run.StopsWith P (ofVoiceLead c v) := by
  refine (Run.StopsWith.warnAll _).bind fun _ => ?_
  refine (Run.StopsWith.lift (stops_lead hP v hkind)).bind fun led => ?_
  refine (Run.StopsWith.warnAll _).bind fun _ => ?_
  exact (Run.StopsWith.lift (stops_ofVoicingsFrom hP c _ _)).bind fun _ => .pure _

/-! ## §7  Contents and finishes -/

/-- **What stops a content.** Notation that cannot be read, an arpeggio on the symbol of a rest, a value
of a kind that cannot be used, or where it goes on from another pattern, what stops that. -/
theorem stops_ofContent (hdeep : P .tooDeep) (hpatterns : c.patterns.usable = false → P .wrongKind)
    (content : Content Rat) (hkind : content.usable = false → P .wrongKind)
    (hmember : content.usable = false → P .noSuchMember)
    (hround : content.hasTones = false → P .divisionByZero)
    (hchoice : content.hasTones = false → P .emptyChoice) :
    Run.StopsWith P (ofContent c content) := by
  cases content with
  | notes ns => exact .lift (stops_ofNotes hP c _ _ _)
  | chords cs => exact (stops_ofChordsFrom hP c _ _).bind fun _ => .pure _
  | degrees ds rhythm => exact .lift ((stops_ofDegreesFrom hP c _ _ _ _).bind fun _ => .ok _)
  | arpeggio a => exact stops_ofArpeggio hP c a hround hchoice
  | drums d => exact .lift (stops_ofDrums hP c d hkind)
  | euclidean e => exact .lift (stops_ofEuclidean hP c e hmember)
  | markov m => exact stops_ofMarkov hP c m hkind hmember
  | continuation s => exact stops_ofContinuation hP c hdeep hpatterns s
  | voiceLead v => exact stops_ofVoiceLead hP c v hkind
  | tuplet ratio ns => exact .lift (stops_ofTuplet hP c ratio ns)
  | rest text => exact .lift ((hP.of_misspelt (Token.stops_parseRest _)).bind fun _ => .ok _)

theorem stops_applyFinish (f : Finish Rat) (notes : List (Note Rat)) :
    Run.StopsWith P (applyFinish c f notes) := by
  refine Run.StopsWith.bind ?_ fun shaped => .lift ?_
  · unfold applyEnvelope
    split
    · exact .of_total (Envelope.apply_total _ _ _)
    · exact .pure _
  · unfold applySnap
    split
    · refine .mapM (fun n => ?_) _
      unfold snapNote
      split
      · exact .ok _
      · exact (hP.of_misspelt (c.key.stops_snap _)).bind fun _ => .ok _
    · exact .ok _

end Phrase

end Partitura

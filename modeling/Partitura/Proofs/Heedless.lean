import Partitura.Proofs.Computation
import Partitura.Score.Compilation

/-!
# Warnings are never read

A run carries the warnings so far along, but nothing it does depends on them: from the same stream
it comes to the same result, the same fault and the same stream, whatever has been reported before.
Such a run is called *heedless*.

Heedlessness passes through the ways in which runs are put together (§1), so it is shown for each
generator (§2), for patterns and their references (§3), and for tracks and whole occurrences (§4)
from their parts, without a look at what they compute.
-/

namespace Partitura

variable {α : Type} [Scalar α] {β γ : Type}

namespace Run

/-- What is left of a run when the warnings are taken away. -/
def bare (r : Run β) (t : Twister) (w : Warnings) : Outcome (β × Twister) :=
  (r ⟨t, w⟩).map fun p => (p.1, p.2.stream)

/-- The result, the fault and the stream afterwards do not depend on the warnings so far. -/
def Heedless (r : Run β) : Prop :=
  ∀ t w w', r.bare t w = r.bare t w'

/-- Two runs that come to the same from one stream, whatever has been reported before each of them. A
heedless run is one that agrees with itself. -/
def Agree (r r' : Run β) : Prop :=
  ∀ t w w', r.bare t w = r'.bare t w'

/-! ## §1  Putting runs together -/

namespace Agree

/-- From one stream both fail in the same way, or both come to the same result and the same stream. -/
theorem both {r r' : Run β} (hr : Agree r r') (t : Twister) (w w' : Warnings) :
    (∃ why, r ⟨t, w⟩ = .error why ∧ r' ⟨t, w'⟩ = .error why) ∨
      ∃ x t₁ w₁ w₁', r ⟨t, w⟩ = .ok (x, ⟨t₁, w₁⟩) ∧ r' ⟨t, w'⟩ = .ok (x, ⟨t₁, w₁'⟩) := by
  have h := hr t w w'
  unfold bare at h
  cases h₁ : r ⟨t, w⟩ with
  | error why =>
      cases h₂ : r' ⟨t, w'⟩ with
      | error why' =>
          rw [h₁, h₂] at h
          cases h
          exact .inl ⟨why, rfl, rfl⟩
      | ok p' => rw [h₁, h₂] at h; cases h
  | ok p =>
      cases h₂ : r' ⟨t, w'⟩ with
      | error why' => rw [h₁, h₂] at h; cases h
      | ok p' =>
          obtain ⟨x, t₁, w₁⟩ := p
          obtain ⟨x', t₁', w₁'⟩ := p'
          rw [h₁, h₂] at h
          obtain ⟨rfl, rfl⟩ := Prod.mk.inj (Except.ok.inj h)
          exact .inr ⟨x, t₁, w₁, w₁', rfl, rfl⟩

theorem bind {r r' : Run β} {f g : β → Run γ} (hr : Agree r r') (hfg : ∀ x, Agree (f x) (g x)) :
    Agree (r >>= f) (r' >>= g) := by
  intro t w w'
  simp only [bare, bind_apply]
  rcases hr.both t w w' with ⟨why, h₁, h₂⟩ | ⟨x, t₁, w₁, w₁', h₁, h₂⟩
  · rw [h₁, h₂]
    rfl
  · -- Both go on from the same result and the same stream.
    rw [h₁, h₂]
    exact hfg x t₁ w₁ w₁'

end Agree

namespace Heedless

theorem pure (x : β) : Heedless (pure x) := fun _ _ _ => rfl

theorem throw (why : Fault) : Heedless (throw why : Run β) := fun _ _ _ => rfl

theorem warn (message : String) : Heedless (warn message) := fun _ _ _ => rfl

theorem warnAll (messages : List String) : Heedless (warnAll messages) := fun _ _ _ => rfl

theorem lift (r : Outcome β) : Heedless (liftM r) := by
  intro t w w'
  cases r <;> rfl

theorem ofDraw (d : Draw β) : Heedless (ofDraw d) := by
  intro t w w'
  simp only [bare, ofDraw_apply]
  cases d.outcome t <;> rfl

/-- From one stream a heedless run fails twice in the same way, or comes twice to the same result and
the same stream. -/
theorem twice {r : Run β} (hr : Heedless r) (t : Twister) (w w' : Warnings) :
    (∃ why, r ⟨t, w⟩ = .error why ∧ r ⟨t, w'⟩ = .error why) ∨
      ∃ x t₁ w₁ w₁', r ⟨t, w⟩ = .ok (x, ⟨t₁, w₁⟩) ∧ r ⟨t, w'⟩ = .ok (x, ⟨t₁, w₁'⟩) :=
  Agree.both hr t w w'

theorem bind {r : Run β} {f : β → Run γ} (hr : Heedless r) (hf : ∀ x, Heedless (f x)) :
    Heedless (r >>= f) :=
  Agree.bind hr hf

theorem map {r : Run β} {f : β → γ} (hr : Heedless r) : Heedless (f <$> r) := by
  rw [map_eq_pure_bind]
  exact hr.bind fun x => pure (f x)

theorem mapM {f : β → Run γ} (hf : ∀ x, Heedless (f x)) (xs : List β) :
    Heedless (xs.mapM f) :=
  mapM_closed Heedless pure bind fun x _ => hf x

theorem orWarn (r : Outcome β) : Heedless (orWarn r) := by
  rcases r with why | x
  · cases why
    case rejected why => exact (warn _).bind fun _ => pure none
    all_goals exact throw _
  · exact pure (some x)

omit [Scalar α] in
theorem named? (find : Value α → Outcome β) (name : Value α) : Heedless (named? find name) := by
  unfold Run.named?
  split
  · exact pure none
  · exact orWarn _

end Heedless

end Run

open Run (Heedless)

/-! ## §2  Generators -/

namespace Phrase

theorem heedless_arpeggioMode (mode : Value α) : Heedless (arpeggioMode mode) := by
  unfold arpeggioMode
  split
  · exact .pure _
  · exact (Heedless.warn _).bind fun _ => .pure _

theorem heedless_arpeggioOrder (a : ArpeggioContent α) (count : Nat) :
    Heedless (arpeggioOrder a count) := by
  unfold arpeggioOrder
  split
  · exact .pure _
  · split
    · refine (heedless_arpeggioMode _).bind fun mode => ?_
      split
      · exact (Heedless.throw _).bind fun _ => .ofDraw _
      · exact .ofDraw _
    · exact .pure _

theorem heedless_ofArpeggio (c : Context α) (a : ArpeggioContent α) :
    Heedless (ofArpeggio c a) :=
  (Heedless.lift _).bind fun _ => (Heedless.lift _).bind fun _ =>
    (heedless_arpeggioOrder a _).bind fun _ => (Heedless.lift _).bind fun _ => .pure _

theorem heedless_ofChordsFrom (c : Context α) (start : α) (chords : List String) :
    Heedless (ofChordsFrom c start chords) := by
  induction chords generalizing start with
  | nil => exact .pure _
  | cons text rest ih =>
      refine (Heedless.lift _).bind fun t => Heedless.bind ?_ fun _ =>
        (Heedless.lift _).bind fun notes => (ih _).bind fun more => .pure _
      unfold warnVoicing
      split
      · exact .pure _
      · exact .warn _

theorem heedless_walkTable (m : MarkovContent α) : Heedless (walkTable m) := by
  unfold walkTable
  split
  · exact (Heedless.lift _).bind fun _ => (Heedless.warnAll _).bind fun _ => .pure _
  · refine (Heedless.lift _).bind fun preset => ?_
    split
    · exact .lift _
    · split
      · exact (Heedless.warn _).bind fun _ => .lift _
      · exact (Heedless.warn _).bind fun _ => .lift _

theorem heedless_onStream (seed : Option Int) (d : Draw β) : Heedless (onStream seed d) := by
  cases seed with
  | none => exact .ofDraw d
  | some n => exact (Heedless.lift _).bind fun _ => .pure _

theorem heedless_ofMarkov (c : Context α) (m : MarkovContent α) : Heedless (ofMarkov c m) := by
  unfold ofMarkov
  split
  · exact (Heedless.warn _).bind fun _ => .pure _
  · exact (Heedless.warnAll _).bind fun _ => (Heedless.lift _).bind fun _ =>
      (heedless_walkTable m).bind fun _ => (heedless_onStream _ _).bind fun _ =>
        (Heedless.lift _).bind fun _ => .pure _

theorem heedless_ofVoiceLead (c : Context α) (v : VoiceLeadContent α) :
    Heedless (ofVoiceLead c v) :=
  (Heedless.warnAll _).bind fun _ => (Heedless.lift _).bind fun _ =>
    (Heedless.warnAll _).bind fun _ => (Heedless.lift _).bind fun _ => .pure _

end Phrase

/-! ## §3  Patterns and their references -/

theorem heedless_conditionHolds (c : Context α) (p : Conditional α) :
    Heedless (conditionHolds c p) := by
  have value : Heedless (conditionValue c p.condition) := by
    unfold conditionValue
    split
    · exact .pure _
    · exact .ofDraw _
    · exact .lift _
    · exact (Heedless.warn _).bind fun _ => .pure _
  refine value.bind fun left => ?_
  split
  · exact .pure _
  · exact (Heedless.warn _).bind fun _ => .pure _

theorem heedless_selectName (c : Context α) (p : Conditional α) : Heedless (selectName c p) := by
  refine (heedless_conditionHolds c p).bind fun holds => ?_
  split
  · exact .pure _
  · exact .pure _

theorem Inheritance.heedless_merge (i : Inheritance α) (parent : BasePattern α) :
    Heedless (i.merge parent) := by
  unfold Inheritance.merge
  split
  · exact (Heedless.lift _).bind fun _ => .pure _
  · dsimp only
    split
    · exact (Heedless.lift _).bind fun _ => .pure _
    · split
      · exact (Heedless.warn _).bind fun _ => .pure _
      · exact .pure _

theorem Transformation.heedless_apply (t : Transformation α) (source : BasePattern α) :
    Heedless (t.apply source) := by
  unfold Transformation.apply
  split
  · exact (Heedless.warn _).bind fun _ => .pure _
  · refine Heedless.bind ?_ fun _ => .pure _
    unfold Transformation.notes
    split
    · exact .lift _
    · exact (Heedless.warn _).bind fun _ => .pure _

namespace Pattern

/-- By induction on the depth that is left; each kind of reference takes one step of it. -/
theorem heedless_resolveWithin (c : Context α) (depth : Nat) (p : Pattern α) :
    Heedless (p.resolveWithin c depth) := by
  induction depth generalizing p with
  | zero => exact .throw _
  | succ depth ih =>
      cases p with
      | base b => exact .pure _
      | conditional p =>
          refine (heedless_selectName c p).bind fun name => (Heedless.lift _).bind fun target => ?_
          split
          · exact (Heedless.warn _).bind fun _ => .pure _
          · exact ih _
      | inheritance i =>
          unfold resolveWithin
          split
          · exact (Heedless.warn _).bind fun _ => .pure _
          · refine (ih _).bind fun resolved => ?_
            split
            · exact .pure _
            · exact (i.heedless_merge _).bind fun _ => .pure _
      | transformation t =>
          unfold resolveWithin
          split
          · exact (Heedless.warn _).bind fun _ => .pure _
          · refine (ih _).bind fun resolved => ?_
            split
            · exact .pure _
            · exact t.heedless_apply _

end Pattern

namespace Phrase

theorem heedless_ofContinuation (c : Context α) (s : ContinuationContent) :
    Heedless (ofContinuation c s) := by
  have source : Heedless (continuationSource? c s.source) := by
    unfold continuationSource?
    split
    · exact .pure _
    · exact (Pattern.heedless_resolveWithin c _ _).bind fun _ => .pure _
  refine source.bind fun notes? => ?_
  split
  · exact (Heedless.warn _).bind fun _ => .pure _
  · refine Heedless.bind ?_ fun _ => .lift _
    unfold continuedNotes
    split
    · exact .lift _
    · exact (Heedless.warn _).bind fun _ => .pure _

theorem heedless_ofContent (c : Context α) (content : Content α) :
    Heedless (ofContent c content) := by
  cases content with
  | notes ns => exact .lift _
  | chords cs => exact (heedless_ofChordsFrom c _ cs).bind fun _ => .pure _
  | degrees ds rhythm => exact .lift _
  | arpeggio a => exact heedless_ofArpeggio c a
  | drums d => exact .lift _
  | euclidean e => exact .lift _
  | markov m => exact heedless_ofMarkov c m
  | continuation s => exact heedless_ofContinuation c s
  | voiceLead v => exact heedless_ofVoiceLead c v
  | tuplet ratio ns => exact .lift _
  | rest text => exact .lift _

theorem heedless_applyEnvelope (f : Finish α) (velocity : α) (notes : List (Note α)) :
    Heedless (applyEnvelope f velocity notes) := by
  unfold applyEnvelope
  split
  · unfold Envelope.apply
    split
    · exact .pure _
    · split
      · split
        · exact (Heedless.warn _).bind fun _ => .pure _
        · exact (Heedless.lift _).bind fun _ => .pure _
      · split
        · exact .pure _
        · exact (Heedless.lift _).bind fun _ => .pure _
  · exact .pure _

end Phrase

theorem BasePattern.heedless_expand (c : Context α) (b : BasePattern α) :
    Heedless (b.expand c) :=
  (Phrase.heedless_ofContent _ _).bind fun _ =>
    ((Phrase.heedless_applyEnvelope _ _ _).bind fun _ => .lift _).bind fun _ => .pure _

theorem Pattern.heedless_expand (c : Context α) (p : Pattern α) : Heedless (p.expand c) := by
  refine (Pattern.heedless_resolveWithin c _ p).bind fun resolved => ?_
  split
  · exact BasePattern.heedless_expand c _
  · exact .pure _

/-! ## §4  Tracks and occurrences -/

theorem heedless_expandNames (c : Context α) (cursor : α) (names : List String) :
    Heedless (expandNames c cursor names) := by
  induction names generalizing cursor with
  | nil => exact .pure _
  | cons name rest ih =>
      unfold expandNames
      split
      · exact (Heedless.warn _).bind fun _ => ih _
      · exact (Pattern.heedless_expand c _).bind fun _ => (ih _).bind fun _ => .pure _

theorem heedless_expandPasses (c : Context α) (names : List String) (count : Nat) (cursor : α) :
    Heedless (expandPasses c names count cursor) := by
  induction count generalizing cursor with
  | zero => exact .pure _
  | succ count ih =>
      exact (heedless_expandNames c _ _).bind fun _ => (ih _).bind fun _ => .pure _

theorem Performance.heedless_play (p : Performance α) (instrument : String)
    (sectionBeats swing : α) (density : Option (DensityCurve α)) (notes : List (Note α)) :
    Heedless (p.play instrument sectionBeats swing density notes) :=
  (Heedless.named? _ _).bind fun _ => (Heedless.ofDraw _).bind fun _ => .pure _

namespace Occurrence

omit [Scalar α] in
theorem heedless_inTrack (o : Occurrence α) (track : String) {r : Run β} (hr : Heedless r) :
    Heedless (o.inTrack track r) := by
  intro t w w'
  simp only [Run.bare, inTrack]
  rcases hr.twice t w w' with ⟨why, h₁, h₂⟩ | ⟨x, t₁, w₁, w₁', h₁, h₂⟩
  · rw [h₁, h₂]
  · rw [h₁, h₂]
    rfl

theorem heedless_playTrack (o : Occurrence α) (patterns : PatternTable α) (swing : α)
    (density : Option α) (name : String) (t : Track α) :
    Heedless (o.playTrack patterns swing density name t) := by
  unfold playTrack
  split
  · exact .pure _
  · split
    · exact (Heedless.warn _).bind fun _ => .pure _
    · exact (o.heedless_inTrack name (heedless_expandPasses _ _ _ _)).bind fun notes =>
        ((Heedless.named? _ _).bind fun _ => .pure _).bind fun performance =>
          performance.heedless_play _ _ _ _ _

theorem heedless_play (o : Occurrence α) (patterns : PatternTable α) (swing : α) :
    Heedless (o.play patterns swing) := by
  have density : Heedless o.startDensity := by
    unfold startDensity
    split
    · exact .pure _
    · exact (Heedless.warnAll _).bind fun _ => (Heedless.lift _).map
  exact density.bind fun _ =>
    (Heedless.mapM (fun _ => o.heedless_playTrack _ _ _ _ _) _).bind fun _ => .pure _

/-- **Compiling an occurrence is heedless.** What it plays, and whether and why it fails, depends on
its stream and on nothing that was reported for other occurrences. -/
theorem heedless_compile (o : Occurrence α) (patterns : PatternTable α) (swing : α) :
    Heedless (o.compile patterns swing) :=
  (o.heedless_play patterns swing).bind fun _ => (Heedless.lift _).bind fun _ =>
    (Heedless.mapM (fun _ => (Heedless.warnAll _).bind fun _ => .lift _) _).bind fun _ =>
      (Heedless.lift _).bind fun _ => .pure _

end Occurrence

end Partitura

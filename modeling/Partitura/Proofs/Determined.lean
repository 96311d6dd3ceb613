import Partitura.Proofs.Pattern.Origin
import Partitura.Proofs.Phrase.Certain
import Partitura.Proofs.Score.Playing

/-!
# Nothing left to chance

A run is *determined* if it comes to the same result, or to the same fault, on every stream and whatever
has been reported. What a pattern plays is determined if nothing that it leads to draws: no random
arpeggio, no walk without a seed of its own, no condition on a probability, and no note that carries
one (`PatternTable.Determined`). What a section plays is then determined too if it has no density and its
tracks are played evenly (`Section.Determined`).
-/

namespace Partitura

variable {α : Type} [Scalar α] {β γ : Type}

/-! ## §1  Draws -/

/-- The result and the fault do not depend on the stream. -/
def Draw.Determined (d : Draw β) : Prop :=
  ∀ t t', (d.outcome t).map Prod.fst = (d.outcome t').map Prod.fst

/-- Two outcomes that are the same but for a part that is forgotten. -/
theorem same_of_map_fst {δ : Type} {r r' : Outcome (β × δ)}
    (h : r.map Prod.fst = r'.map Prod.fst) :
    (∃ why, r = .error why ∧ r' = .error why) ∨ ∃ x y y', r = .ok (x, y) ∧ r' = .ok (x, y') := by
  cases r with
  | error why =>
      cases r' with
      | error why' =>
          cases h
          exact .inl ⟨why, rfl, rfl⟩
      | ok p' => cases h
  | ok p =>
      cases r' with
      | error why' => cases h
      | ok p' =>
          obtain ⟨x, y⟩ := p
          obtain ⟨x', y'⟩ := p'
          cases h
          exact .inr ⟨x, y, y', rfl, rfl⟩

namespace Draw.Determined

theorem pure (x : β) : Determined (pure x : Draw β) := fun _ _ => rfl

theorem lift (r : Outcome β) : Determined (liftM r : Draw β) := by
  intro t t'
  rw [outcome_lift, outcome_lift]
  cases r <;> rfl

theorem bind {d : Draw β} {f : β → Draw γ} (hd : Determined d) (hf : ∀ x, Determined (f x)) :
    Determined (d >>= f) := by
  intro t t'
  rw [outcome_bind, outcome_bind]
  rcases same_of_map_fst (hd t t') with ⟨why, h, h'⟩ | ⟨x, y, y', h, h'⟩
  · rw [h, h']
  · rw [h, h']
    exact hf x y y'

theorem map {d : Draw β} {f : β → γ} (hd : Determined d) : Determined (f <$> d) := by
  rw [map_eq_pure_bind]
  exact hd.bind fun x => pure (f x)

theorem mapM {f : β → Draw γ} {xs : List β} (hf : ∀ x ∈ xs, Determined (f x)) :
    Determined (xs.mapM f) :=
  mapM_closed Determined pure bind hf

end Draw.Determined

/-! ## §2  Runs -/

/-- The result and the fault depend neither on the stream nor on what has been reported. -/
def Run.Determined (r : Run β) : Prop :=
  ∀ s s', (r s).map Prod.fst = (r s').map Prod.fst

namespace Run.Determined

theorem pure (x : β) : Determined (pure x : Run β) := fun _ _ => rfl

theorem throw (why : Fault) : Determined (throw why : Run β) := fun _ _ => rfl

theorem warn (message : String) : Determined (warn message) := fun _ _ => rfl

theorem warnAll (messages : List String) : Determined (warnAll messages) := fun _ _ => rfl

theorem lift (r : Outcome β) : Determined (liftM r : Run β) := by
  intro s s'
  cases r <;> rfl

theorem ofDraw {d : Draw β} (h : d.Determined) : Determined (ofDraw d) := by
  intro s s'
  rw [ofDraw_apply, ofDraw_apply]
  rcases same_of_map_fst (h s.stream s'.stream) with ⟨why, h, h'⟩ | ⟨x, y, y', h, h'⟩
  · rw [h, h']
    rfl
  · rw [h, h']
    rfl

theorem bind {r : Run β} {f : β → Run γ} (hr : Determined r)
    (hf : ∀ x, r.Yields x → Determined (f x)) : Determined (r >>= f) := by
  intro s s'
  rw [bind_apply, bind_apply]
  rcases same_of_map_fst (hr s s') with ⟨why, h, h'⟩ | ⟨x, y, y', h, h'⟩
  · rw [h, h']
  · rw [h, h']
    exact hf x ⟨s, y, h⟩ y y'

theorem mapM {f : β → Run γ} {xs : List β} (hf : ∀ x ∈ xs, Determined (f x)) :
    Determined (xs.mapM f) :=
  mapM_closed Determined pure (fun hr hf => hr.bind fun x _ => hf x) hf

theorem orWarn (r : Outcome β) : Determined (orWarn r) := by
  rcases r with why | x
  · cases why
    case rejected why => exact (warn _).bind fun _ _ => pure none
    all_goals exact throw _
  · exact pure (some x)

omit [Scalar α] in
theorem named? (find : Value α → Outcome β) (name : Value α) : Determined (named? find name) := by
  unfold Run.named?
  split
  · exact pure none
  · exact orWarn _

end Run.Determined

open Run (Determined)

/-! ## §3  Contents -/

/-- A content that draws nothing and has no mark of a probability. -/
def Content.Determined : Content α → Prop
  | .notes texts | .tuplet _ texts => Certain texts
  | .arpeggio a =>
    (∃ i is, a.order = some (i :: is)) ∨ Arpeggio.Mode.ofValue? a.mode ≠ some .random
  | .markov m => m.seed.isSome
  | _ => True

namespace Phrase

theorem determined_order {m : Arpeggio.Mode} (h : m ≠ .random) (count : Nat) (steps : Option Int) :
    (m.order count steps).Determined := by
  unfold Arpeggio.Mode.order
  split
  · exact absurd rfl h
  · dsimp only
    split
    · exact .lift _
    · exact .pure _

theorem determined_arpeggioOrder {a : ArpeggioContent α} (h : (Content.arpeggio a).Determined)
    (count : Nat) : Determined (arpeggioOrder a count) := by
  have mode : Determined (arpeggioMode a.mode) := by
    unfold arpeggioMode
    split
    · exact .pure _
    · exact (Determined.warn _).bind fun _ _ => .pure _
  unfold arpeggioOrder
  split
  · exact .pure _
  · next hother =>
      have hmode : Arpeggio.Mode.ofValue? a.mode ≠ some .random := by
        rcases h with ⟨i, is, horder⟩ | h
        · exact absurd horder (hother i is)
        · exact h
      split
      · refine mode.bind fun m hm => ?_
        -- A mode that is not known is replaced by one that draws nothing.
        have hdrawn : m ≠ .random := by
          unfold arpeggioMode at hm
          split at hm
          · next known hknown =>
              cases hm.of_pure
              rintro rfl
              exact hmode hknown
          · obtain ⟨_, _, hm⟩ := hm.of_bind
            cases hm.of_pure
            decide
        split
        · exact (Determined.throw _).bind fun _ _ => .ofDraw (determined_order hdrawn _ _)
        · exact .ofDraw (determined_order hdrawn _ _)
      · exact .pure _

theorem determined_ofChordsFrom (c : Context α) (start : α) (chords : List String) :
    Determined (ofChordsFrom c start chords) := by
  induction chords generalizing start with
  | nil => exact .pure _
  | cons text rest ih =>
      refine (Determined.lift _).bind fun token _ => Determined.bind ?_ fun _ _ =>
        (Determined.lift _).bind fun notes _ => (ih _).bind fun more _ => .pure _
      unfold warnVoicing
      split
      · exact .pure _
      · exact .warn _

theorem determined_walkTable (m : MarkovContent α) : Determined (walkTable m) := by
  unfold walkTable
  split
  · exact (Determined.lift _).bind fun _ _ => (Determined.warnAll _).bind fun _ _ => .pure _
  · refine (Determined.lift _).bind fun preset _ => ?_
    split
    · exact .lift _
    · split
      · exact (Determined.warn _).bind fun _ _ => .lift _
      · exact (Determined.warn _).bind fun _ _ => .lift _

/-- A walk with a seed of its own. -/
theorem determined_ofMarkov (c : Context α) {m : MarkovContent α} (h : m.seed.isSome) :
    Determined (ofMarkov c m) := by
  have walk (d : Draw (List (Note α) × α)) : Determined (onStream m.seed d) := by
    obtain ⟨seed, hseed⟩ := Option.isSome_iff_exists.1 h
    rw [hseed]
    exact (Determined.lift _).bind fun _ _ => .pure _
  unfold ofMarkov
  split
  · exact (Determined.warn _).bind fun _ _ => .pure _
  · exact (Determined.warnAll _).bind fun _ _ => (Determined.lift _).bind fun _ _ =>
      (determined_walkTable m).bind fun _ _ => (walk _).bind fun _ _ =>
        (Determined.lift _).bind fun _ _ => .pure _

end Phrase

/-! ## §4  Patterns -/

/-- A pattern that leaves nothing to chance itself. -/
def Pattern.Determined : Pattern α → Prop
  | .base b => b.content.Determined
  | .transformation _ => True
  | .inheritance i => ∀ notes ∈ i.notes, Certain notes
  | .conditional p => p.condition ≠ "probability"

/-- No pattern of the table leaves anything to chance. -/
def PatternTable.Determined (t : PatternTable α) : Prop :=
  ∀ p, t.Has p → p.Determined

omit [Scalar α] in
theorem PatternTable.Determined.lookup {t : PatternTable α} (h : t.Determined) {name : String}
    {p : Pattern α} (hp : t.lookup name = some p) : p.Determined :=
  h p ⟨name, hp⟩

theorem determined_selectName (c : Context α) {p : Conditional α}
    (h : (Pattern.conditional p).Determined) : Determined (selectName c p) := by
  have value : Determined (conditionValue c p.condition) := by
    unfold conditionValue
    split
    · exact .pure _
    · next heq => exact absurd heq h
    · exact .lift _
    · exact (Determined.warn _).bind fun _ _ => .pure _
  have holds : Determined (conditionHolds c p) := by
    refine value.bind fun left _ => ?_
    split
    · exact .pure _
    · exact (Determined.warn _).bind fun _ _ => .pure _
  refine holds.bind fun holds _ => ?_
  split
  · exact .pure _
  · exact .pure _

theorem Inheritance.determined_merge (i : Inheritance α) (parent : BasePattern α) :
    Determined (i.merge parent) := by
  unfold Inheritance.merge
  dsimp only
  split
  · exact (Determined.lift _).bind fun _ _ => .pure _
  · split
    · exact (Determined.warn _).bind fun _ _ => .pure _
    · exact .pure _

theorem Transformation.determined_apply (f : Transformation α) (source : BasePattern α) :
    Determined (f.apply source) := by
  unfold Transformation.apply
  split
  · exact (Determined.warn _).bind fun _ _ => .pure _
  · refine Determined.bind ?_ fun _ _ => .pure _
    unfold Transformation.notes
    split
    · exact .lift _
    · exact (Determined.warn _).bind fun _ _ => .pure _

/-- By induction on the depth that is left; each kind of reference takes one step of it. -/
theorem Pattern.determined_resolveWithin {c : Context α} (h : c.patterns.Determined) (depth : Nat)
    {p : Pattern α} (hp : p.Determined) : Run.Determined (p.resolveWithin c depth) := by
  induction depth generalizing p with
  | zero => exact .throw _
  | succ depth ih =>
      cases p with
      | base b => exact .pure _
      | conditional p =>
          refine (determined_selectName c hp).bind fun v _ =>
            (Run.Determined.lift _).bind fun target htarget => ?_
          cases target with
          | none => exact (Run.Determined.warn _).bind fun _ _ => .pure _
          | some target =>
              obtain ⟨name, _, hname⟩ := patternOf?_eq_some htarget.of_lift
              exact ih (h.lookup hname)
      | inheritance i =>
          unfold resolveWithin
          split
          · exact (Run.Determined.warn _).bind fun _ _ => .pure _
          · next parent hparent =>
              refine (ih (h.lookup hparent)).bind fun resolved _ => ?_
              split
              · exact .pure _
              · exact (i.determined_merge _).bind fun _ _ => .pure _
      | transformation f =>
          unfold resolveWithin
          split
          · exact (Run.Determined.warn _).bind fun _ _ => .pure _
          · next source hsource =>
              refine (ih (h.lookup hsource)).bind fun resolved _ => ?_
              split
              · exact .pure _
              · exact f.determined_apply _

omit [Scalar α] in
theorem certain_notes? {b : BasePattern α} (h : b.content.Determined) {notes : List String}
    (hnotes : b.notes? = some notes) : Certain notes := by
  unfold BasePattern.notes? at hnotes
  split at hnotes
  · next texts hcontent =>
      cases hnotes
      rw [hcontent] at h
      exact h
  · cases hnotes

/-- Without notes of its own an heir has those of its parent, moved. -/
theorem Inheritance.determined_of_merge_none {i : Inheritance α} (hi : i.notes = none)
    {parent merged : BasePattern α} (hparent : parent.content.Determined)
    (h : (i.merge parent).Yields merged) : merged.content.Determined := by
  unfold Inheritance.merge at h
  rw [hi] at h
  dsimp only at h
  split at h
  · next notes hnotes =>
      obtain ⟨moved, hmoved, h⟩ := h.of_bind
      cases h.of_pure
      exact certain_shiftNotes (certain_notes? hparent hnotes) hmoved.of_lift
  · split at h
    · obtain ⟨_, _, h⟩ := h.of_bind
      cases h.of_pure
      exact hparent
    · cases h.of_pure
      exact hparent

theorem Inheritance.determined_of_merge {i : Inheritance α} (hi : ∀ notes ∈ i.notes, Certain notes)
    {parent merged : BasePattern α} (hparent : parent.content.Determined)
    (h : (i.merge parent).Yields merged) : merged.content.Determined := by
  cases hnotes : i.notes with
  | none => exact determined_of_merge_none hnotes hparent h
  | some notes =>
      -- Its own notes come to the same as those of a parent.
      have hown : i.merge parent =
          ({ i with notes := none } : Inheritance α).merge (parent.withNotes notes) := by
        unfold Inheritance.merge
        rw [hnotes]
        rfl
      have hstart : (parent.withNotes notes).content.Determined := hi notes hnotes
      rw [hown] at h
      exact determined_of_merge_none rfl hstart h

theorem Transformation.determined_of_apply {f : Transformation α} {source changed : BasePattern α}
    (hsource : source.content.Determined) (h : (f.apply source).Yields (some changed)) :
    changed.content.Determined := by
  unfold Transformation.apply at h
  split at h
  · obtain ⟨_, _, h⟩ := h.of_bind
    cases h.of_pure
  · next notes hnotes =>
      have hcertain := certain_notes? hsource hnotes
      obtain ⟨texts, htexts, h⟩ := h.of_bind
      cases h.of_pure
      unfold Transformation.notes at htexts
      split at htexts
      · exact Melody.certain_transform hcertain htexts.of_lift
      · obtain ⟨_, _, htexts⟩ := htexts.of_bind
        cases htexts.of_pure
        exact hcertain

/-- What is resolved leaves nothing to chance if nothing in the table does. -/
theorem Pattern.determined_of_resolveWithin {c : Context α} (h : c.patterns.Determined) {depth : Nat}
    {p : Pattern α} (hp : p.Determined) {b : BasePattern α}
    (hb : (p.resolveWithin c depth).Yields (some b)) : b.content.Determined := by
  induction depth generalizing p b with
  | zero =>
      obtain ⟨s, s', hb⟩ := hb
      cases hb
  | succ depth ih =>
      cases p with
      | base b' =>
          cases hb.of_pure
          exact hp
      | conditional p =>
          obtain ⟨v, _, hb⟩ := hb.of_bind
          obtain ⟨target?, htarget, hb⟩ := hb.of_bind
          cases target? with
          | none =>
              obtain ⟨_, _, hb⟩ := hb.of_bind
              cases hb.of_pure
          | some target =>
              obtain ⟨name, _, hname⟩ := patternOf?_eq_some htarget.of_lift
              exact ih (h.lookup hname) hb
      | inheritance i =>
          unfold resolveWithin at hb
          split at hb
          · obtain ⟨_, _, hb⟩ := hb.of_bind
            cases hb.of_pure
          · next parent hparent =>
              obtain ⟨resolved?, hresolved, hb⟩ := hb.of_bind
              cases resolved? with
              | none => cases hb.of_pure
              | some resolved =>
                  obtain ⟨merged, hmerged, hb⟩ := hb.of_bind
                  cases hb.of_pure
                  exact i.determined_of_merge hp (ih (h.lookup hparent) hresolved) hmerged
      | transformation f =>
          unfold resolveWithin at hb
          split at hb
          · obtain ⟨_, _, hb⟩ := hb.of_bind
            cases hb.of_pure
          · next source hsource =>
              obtain ⟨resolved?, hresolved, hb⟩ := hb.of_bind
              cases resolved? with
              | none => cases hb.of_pure
              | some resolved => exact f.determined_of_apply (ih (h.lookup hsource) hresolved) hb

/-! ## §5  What patterns play -/

namespace Phrase

variable {c : Context α}

theorem determined_continuationSource? (h : c.patterns.Determined) (source : String) :
    Determined (continuationSource? c source) := by
  unfold continuationSource?
  split
  · exact .pure _
  · next p hp => exact (Pattern.determined_resolveWithin h _ (h.lookup hp)).bind fun _ _ => .pure _

theorem determined_continuedNotes (s : ContinuationContent) (notes : List String) :
    Determined (continuedNotes (α := α) s notes) := by
  unfold continuedNotes
  split
  · exact .lift _
  · exact (Determined.warn _).bind fun _ _ => .pure _

theorem determined_ofContinuation (h : c.patterns.Determined) (s : ContinuationContent) :
    Determined (ofContinuation c s) := by
  refine (determined_continuationSource? h _).bind fun notes? _ => ?_
  split
  · exact (Determined.warn _).bind fun _ _ => .pure _
  · exact (determined_continuedNotes s _).bind fun _ _ => .lift _

theorem alwaysSound_ofContinuation (h : c.patterns.Determined) {s : ContinuationContent}
    {p : Phrase α} (hp : (ofContinuation c s).Yields p) : AlwaysSound p.notes := by
  obtain ⟨notes?, hsource, hp⟩ := hp.of_bind
  cases notes? with
  | none =>
      obtain ⟨_, _, hp⟩ := hp.of_bind
      cases hp.of_pure
      exact .nil
  | some notes =>
      have hcertain : Certain notes := by
        unfold continuationSource? at hsource
        split at hsource
        · cases hsource.of_pure
        · next q hq =>
            obtain ⟨resolved?, hresolved, hsource⟩ := hsource.of_bind
            have hnotes := hsource.of_pure
            obtain ⟨hnotes, _⟩ := Option.filter_eq_some_iff.1 hnotes
            obtain ⟨b, rfl, hnotes⟩ := Option.bind_eq_some_iff.1 hnotes
            exact certain_notes?
              (Pattern.determined_of_resolveWithin h (h.lookup hq) hresolved) hnotes
      obtain ⟨continued, hcontinued, hp⟩ := hp.of_bind
      refine alwaysSound_ofNotes ?_ hp.of_lift
      unfold continuedNotes at hcontinued
      split at hcontinued
      · exact Melody.certain_continueWith hcertain.expand hcontinued.of_lift
      · obtain ⟨_, _, hcontinued⟩ := hcontinued.of_bind
        cases hcontinued.of_pure
        exact hcertain

theorem determined_ofContent (h : c.patterns.Determined) {content : Content α}
    (hcontent : content.Determined) : Determined (ofContent c content) := by
  cases content with
  | notes ns => exact .lift _
  | chords cs => exact (determined_ofChordsFrom c _ cs).bind fun _ _ => .pure _
  | degrees ds rhythm => exact .lift _
  | arpeggio a =>
      exact (Determined.lift _).bind fun _ _ => (Determined.lift _).bind fun _ _ =>
        (determined_arpeggioOrder hcontent _).bind fun _ _ => (Determined.lift _).bind fun _ _ => .pure _
  | drums d => exact .lift _
  | euclidean e => exact .lift _
  | markov m => exact determined_ofMarkov c hcontent
  | continuation s => exact determined_ofContinuation h s
  | voiceLead v =>
      exact (Determined.warnAll _).bind fun _ _ => (Determined.lift _).bind fun _ _ =>
        (Determined.warnAll _).bind fun _ _ => (Determined.lift _).bind fun _ _ => .pure _
  | tuplet ratio ns => exact .lift _
  | rest text => exact .lift _

theorem alwaysSound_ofContent (h : c.patterns.Determined) {content : Content α}
    (hcontent : content.Determined) {p : Phrase α} (hp : (ofContent c content).Yields p) :
    AlwaysSound p.notes := by
  cases content with
  | notes ns => exact alwaysSound_ofNotes hcontent hp.of_lift
  | chords cs =>
      obtain ⟨⟨notes, beats⟩, hnotes, hp⟩ := hp.of_bind
      cases hp.of_pure
      exact alwaysSound_ofChordsFrom hnotes
  | degrees ds rhythm =>
      obtain ⟨⟨notes, beats⟩, hnotes, hp⟩ := Outcome.bind_ok hp.of_lift
      cases hp
      exact alwaysSound_ofDegreesFrom hnotes
  | arpeggio a =>
      obtain ⟨tones, _, hp⟩ := hp.of_bind
      obtain ⟨length, _, hp⟩ := hp.of_bind
      obtain ⟨order, _, hp⟩ := hp.of_bind
      obtain ⟨⟨notes, beats⟩, hnotes, hp⟩ := hp.of_bind
      cases hp.of_pure
      exact alwaysSound_ofTonesFrom hnotes.of_lift
  | drums d => exact alwaysSound_ofDrums hp.of_lift
  | euclidean e => exact alwaysSound_ofEuclidean hp.of_lift
  | markov m => exact alwaysSound_ofMarkov hp
  | continuation s => exact alwaysSound_ofContinuation h hp
  | voiceLead v =>
      obtain ⟨_, _, hp⟩ := hp.of_bind
      obtain ⟨led, _, hp⟩ := hp.of_bind
      obtain ⟨_, _, hp⟩ := hp.of_bind
      obtain ⟨⟨notes, beats⟩, hnotes, hp⟩ := hp.of_bind
      cases hp.of_pure
      exact alwaysSound_ofVoicingsFrom hnotes.of_lift
  | tuplet ratio ns =>
      obtain ⟨⟨actual, normal⟩, _, hp⟩ := Outcome.bind_ok hp.of_lift
      obtain ⟨scale, _, hp⟩ := Outcome.bind_ok hp
      exact alwaysSound_ofNotes hcontent hp
  | rest text =>
      obtain ⟨length, _, hp⟩ := Outcome.bind_ok hp.of_lift
      cases hp
      exact .nil

theorem determined_applyEnvelope (f : Finish α) (velocity : α) (notes : List (Note α)) :
    Determined (applyEnvelope f velocity notes) := by
  unfold applyEnvelope
  split
  · unfold Envelope.apply
    split
    · exact .pure _
    · split
      · split
        · exact (Determined.warn _).bind fun _ _ => .pure _
        · exact (Determined.lift _).bind fun _ _ => .pure _
      · split
        · exact .pure _
        · exact (Determined.lift _).bind fun _ _ => .pure _
  · exact .pure _

end Phrase

theorem BasePattern.determined_expand {c : Context α} (h : c.patterns.Determined) {b : BasePattern α}
    (hb : b.content.Determined) : Determined (b.expand c) :=
  (Phrase.determined_ofContent (c := Phrase.finishContext c b.finish) h hb).bind fun _ _ =>
    ((Phrase.determined_applyEnvelope _ _ _).bind fun _ _ => .lift _).bind fun _ _ => .pure _

theorem BasePattern.alwaysSound_expand {c : Context α} (h : c.patterns.Determined)
    {b : BasePattern α} (hb : b.content.Determined) {p : Phrase α} (hp : (b.expand c).Yields p) :
    AlwaysSound p.notes := by
  obtain ⟨played, hplayed, hp⟩ := hp.of_bind
  obtain ⟨finished, hfinished, hp⟩ := hp.of_bind
  cases hp.of_pure
  have hsound := Phrase.alwaysSound_ofContent (c := Phrase.finishContext c b.finish) h hb hplayed
  exact Phrase.alwaysSound_applyFinish hsound hfinished

/-- **A pattern that leaves nothing to chance always plays the same**, and no note of it may be left
out. -/
theorem Pattern.determined_expand {c : Context α} (h : c.patterns.Determined) {p : Pattern α}
    (hp : p.Determined) : Run.Determined (p.expand c) ∧
      ∀ phrase, (p.expand c).Yields phrase → AlwaysSound phrase.notes := by
  refine ⟨(Pattern.determined_resolveWithin h _ hp).bind fun resolved hresolved => ?_,
    fun phrase hphrase => ?_⟩
  · cases resolved with
    | some b => exact BasePattern.determined_expand h (determined_of_resolveWithin h hp hresolved)
    | none => exact .pure _
  · obtain ⟨resolved, hresolved, hphrase⟩ := hphrase.of_bind
    cases resolved with
    | some b =>
        have hb := determined_of_resolveWithin h hp hresolved
        exact BasePattern.alwaysSound_expand h hb hphrase
    | none =>
        cases hphrase.of_pure
        exact .nil

/-! ## §6  Tracks and sections -/

theorem determined_expandNames {c : Context α} (h : c.patterns.Determined) (cursor : α)
    (names : List String) : Determined (expandNames c cursor names) ∧
      ∀ p, (expandNames c cursor names).Yields p → AlwaysSound p.1 := by
  induction names generalizing cursor with
  | nil =>
      refine ⟨.pure _, fun p hp => ?_⟩
      cases hp.of_pure
      exact .nil
  | cons name rest ih =>
      unfold expandNames
      split
      · refine ⟨(Determined.warn _).bind fun _ _ => (ih _).1, fun p hp => ?_⟩
        obtain ⟨_, _, hp⟩ := hp.of_bind
        exact (ih _).2 p hp
      · next pattern hpattern =>
          obtain ⟨hdetermined, hsound⟩ := Pattern.determined_expand h (h.lookup hpattern)
          refine ⟨hdetermined.bind fun _ _ => (ih _).1.bind fun _ _ => .pure _, fun p hp => ?_⟩
          obtain ⟨phrase, hphrase, hp⟩ := hp.of_bind
          obtain ⟨⟨notes, finish⟩, hnotes, hp⟩ := hp.of_bind
          cases hp.of_pure
          refine .append (fun n hn => ?_) ((ih _).2 _ hnotes)
          obtain ⟨n', hn', rfl⟩ := List.mem_map.1 hn
          exact hsound phrase hphrase n' hn'

theorem determined_expandPasses {c : Context α} (h : c.patterns.Determined) (names : List String)
    (count : Nat) (cursor : α) : Determined (expandPasses c names count cursor) ∧
      ∀ notes, (expandPasses c names count cursor).Yields notes → AlwaysSound notes := by
  induction count generalizing cursor with
  | zero =>
      refine ⟨.pure _, fun notes hnotes => ?_⟩
      cases hnotes.of_pure
      exact .nil
  | succ count ih =>
      obtain ⟨hdetermined, hsound⟩ := determined_expandNames h cursor names
      refine ⟨hdetermined.bind fun _ _ => (ih _).1.bind fun _ _ => .pure _, fun notes hnotes => ?_⟩
      obtain ⟨⟨first, finish⟩, hfirst, hnotes⟩ := hnotes.of_bind
      obtain ⟨more, hmore, hnotes⟩ := hnotes.of_bind
      cases hnotes.of_pure
      exact (hsound _ hfirst).append ((ih _).2 more hmore)

/-- A performance without human variation, neither by its own amount nor by that of its style. -/
structure Performance.Even (p : Performance α) : Prop where
  humanize : (p.humanize == 0) = true
  variance : (p.velocityVariance == 0) = true

namespace Performance

variable {p : Performance α}

theorem Even.determined_playNote? (h : p.Even) (groove : Option (Groove α)) (instrument : String)
    (sectionBeats swing : α) {n : Note α} (hn : n.probability = none) :
    (p.playNote? groove instrument sectionBeats swing none n).Determined := by
  have heard : Performance.sounds none sectionBeats n = pure true := by
    unfold sounds
    rw [hn]
  -- No draw decides whether the note is heard, and none how it is varied.
  unfold playNote?
  rw [heard, pure_bind, if_pos rfl]
  refine Draw.Determined.map ?_
  refine (Draw.Determined.lift _).bind fun swung => (Draw.Determined.lift _).bind fun placed => ?_
  refine Draw.Determined.bind ?_ fun shaped => Draw.Determined.bind ?_ fun velocity => .pure _
  · unfold humanized
    rw [if_pos h.humanize]
    exact .pure _
  · unfold varied
    rw [if_pos h.variance]
    exact .pure _

theorem Even.determined_play (h : p.Even) (instrument : String) (sectionBeats swing : α)
    {notes : List (Note α)} (hnotes : AlwaysSound notes) :
    Determined (p.play instrument sectionBeats swing none notes) :=
  (Determined.named? _ _).bind fun groove _ =>
    (Determined.ofDraw (.mapM fun n hn => h.determined_playNote? groove instrument sectionBeats swing
      (hnotes n (List.mem_of_mem_filter hn)))).bind fun _ _ => .pure _

end Performance

/-- A section that leaves nothing to chance itself: it has no density, and its tracks are played
evenly. -/
structure Section.Determined (body : Section α) : Prop where
  density : body.density = none
  even : ∀ track ∈ body.tracks, ∀ p, track.2.performance.Yields p → p.Even

namespace Occurrence

variable {o : Occurrence α} {t : PatternTable α}

omit [Scalar α] in
theorem determined_inTrack {r : Run β} (hr : Determined r) (track : String) :
    Determined (o.inTrack track r) := by
  intro s s'
  unfold inTrack
  rcases same_of_map_fst (hr s s') with ⟨why, h, h'⟩ | ⟨x, y, y', h, h'⟩
  · rw [h, h']
  · rw [h, h']
    rfl

theorem determined_playTrack (ht : t.Determined) (hdensity : o.body.density = none) {swing : α}
    {density : Option α} {name : String} {track : Track α}
    (heven : ∀ p, track.performance.Yields p → p.Even) :
    Determined (o.playTrack t swing density name track) := by
  unfold playTrack
  split
  · exact .pure _
  · split
    · exact (Determined.warn _).bind fun _ _ => .pure _
    · obtain ⟨hexpand, hsound⟩ :=
        determined_expandPasses (c := o.context t density track) ht track.patterns
          track.repeats.toNat 0.0
      refine (determined_inTrack hexpand name).bind fun notes hnotes =>
        ((Determined.named? _ _).bind fun _ _ => .pure _).bind fun p hp => ?_
      rw [hdensity]
      exact (heven p hp).determined_play _ _ _ (hsound notes (yields_of_inTrack hnotes))

/-- **What a section plays always sounds the same** if it leaves nothing to chance and no pattern
does. -/
theorem determined_compile (ht : t.Determined) (hbody : o.body.Determined) (swing : α) :
    Determined (o.compile t swing) := by
  have density : Determined o.startDensity := by
    unfold startDensity
    rw [hbody.density]
    exact .pure _
  have play : Determined (o.play t swing) :=
    density.bind fun _ _ => (Determined.mapM fun track htrack =>
      determined_playTrack ht hbody.density (hbody.even track htrack)).bind fun _ _ => .pure _
  exact play.bind fun _ _ => (Determined.lift _).bind fun _ _ =>
    (Determined.mapM fun _ _ => (Determined.warnAll _).bind fun _ _ => .lift _).bind fun _ _ =>
      (Determined.lift _).bind fun _ _ => .pure _

end Occurrence

end Partitura

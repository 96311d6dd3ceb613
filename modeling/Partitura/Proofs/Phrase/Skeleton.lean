import Mathlib.Data.List.Forall2
import Partitura.Proofs.Phrase.Finish
import Partitura.Proofs.Phrase.Walk

/-!
# The length of a pattern is not left to chance

When the notes of a phrase begin, how long they sound and how long the phrase is make up its skeleton.
The skeleton of a base pattern is written in the pattern: it is the same in every key, on every track
and on every random stream (`BasePattern.sameSkeleton_expand`). A walked melody rests where chance
wants it to, so there only the length stays. A continuation is left out, since it plays the notes of
another pattern and finds them in its context.

Two runs are compared whose draws and contexts have nothing to do with each other, so all that is known
of them is what they come to (§1). Each generator is then shown to keep its skeleton (§2), and finishes
leave it alone.
-/

namespace Partitura

variable {α : Type} [Scalar α] {β γ δ ε : Type} {R : β → γ → Prop} {S : δ → ε → Prop}

/-! ## §1  Whatever two computations come to -/

/-- Whatever two outcomes come to is related. -/
def Outcome.Matched (R : β → γ → Prop) (r : Outcome β) (r' : Outcome γ) : Prop :=
  ∀ x y, r = .ok x → r' = .ok y → R x y

namespace Outcome.Matched

theorem ok {x : β} {y : γ} (h : R x y) : Matched R (.ok x) (.ok y) := by
  rintro _ _ ⟨⟩ ⟨⟩
  exact h

theorem any (r : Outcome β) (r' : Outcome γ) : Matched (fun _ _ => True) r r' :=
  fun _ _ _ _ => trivial

theorem same (r : Outcome β) : Matched Eq r r := by
  intro x y hx hy
  exact Except.ok.inj (hx.symm.trans hy)

theorem bind {r : Outcome β} {r' : Outcome γ} {f : β → Outcome δ} {g : γ → Outcome ε}
    (h : Matched R r r') (hfg : ∀ x y, R x y → Matched S (f x) (g y)) :
    Matched S (r >>= f) (r' >>= g) := by
  intro z w hz hw
  obtain ⟨x, hx, hz⟩ := bind_ok hz
  obtain ⟨y, hy, hw⟩ := bind_ok hw
  exact hfg x y (h x y hx hy) z w hz hw

/-- Two computations that begin in the same way. -/
theorem bind_same {r : Outcome β} {f : β → Outcome δ} {g : β → Outcome ε}
    (hfg : ∀ x, Matched S (f x) (g x)) : Matched S (r >>= f) (r >>= g) :=
  (same r).bind fun x _ hxy => hxy ▸ hfg x

theorem mapM {f : β → Outcome δ} {g : β → Outcome ε} (h : ∀ x, Matched S (f x) (g x))
    (xs : List β) : Matched (List.Forall₂ S) (xs.mapM f) (xs.mapM g) := by
  induction xs with
  | nil => exact ok .nil
  | cons x xs ih =>
      rw [List.mapM_cons, List.mapM_cons]
      exact (h x).bind fun _ _ hx => ih.bind fun _ _ hxs => ok (.cons hx hxs)

end Outcome.Matched

/-- Whatever two draws come to, each on its own stream, is related. -/
def Draw.Matched (R : β → γ → Prop) (d : Draw β) (d' : Draw γ) : Prop :=
  ∀ x y, d.Yields x → d'.Yields y → R x y

namespace Draw.Matched

theorem pure {x : β} {y : γ} (h : R x y) : Matched R (pure x : Draw β) (pure y : Draw γ) := by
  intro x' y' hx hy
  cases hx.of_pure
  cases hy.of_pure
  exact h

theorem lift {r : Outcome β} {r' : Outcome γ} (h : r.Matched R r') :
    Matched R (liftM r : Draw β) (liftM r' : Draw γ) :=
  fun x y hx hy => h x y hx.of_lift hy.of_lift

end Draw.Matched

/-- Whatever two runs come to, each in its own session, is related. -/
def Run.Matched (R : β → γ → Prop) (r : Run β) (r' : Run γ) : Prop :=
  ∀ x y, r.Yields x → r'.Yields y → R x y

namespace Run.Matched

theorem pure {x : β} {y : γ} (h : R x y) : Matched R (pure x : Run β) (pure y : Run γ) := by
  intro x' y' hx hy
  cases hx.of_pure
  cases hy.of_pure
  exact h

theorem any (r : Run β) (r' : Run γ) : Matched (fun _ _ => True) r r' :=
  fun _ _ _ _ => trivial

theorem lift {r : Outcome β} {r' : Outcome γ} (h : r.Matched R r') :
    Matched R (liftM r : Run β) (liftM r' : Run γ) :=
  fun x y hx hy => h x y hx.of_lift hy.of_lift

theorem ofDraw {d : Draw β} {d' : Draw γ} (h : d.Matched R d') :
    Matched R (ofDraw d) (ofDraw d') :=
  fun x y hx hy => h x y hx.of_draw hy.of_draw

theorem bind {r : Run β} {r' : Run γ} {f : β → Run δ} {g : γ → Run ε} (h : Matched R r r')
    (hfg : ∀ x y, R x y → Matched S (f x) (g y)) : Matched S (r >>= f) (r' >>= g) := by
  intro z w hz hw
  obtain ⟨x, hx, hz⟩ := hz.of_bind
  obtain ⟨y, hy, hw⟩ := hw.of_bind
  exact hfg x y (h x y hx hy) z w hz hw

/-- What a computation without draws comes to is the same in both runs. -/
theorem bind_same {r : Outcome β} {f : β → Run δ} {g : β → Run ε}
    (hfg : ∀ x, Matched S (f x) (g x)) :
    Matched S ((liftM r : Run β) >>= f) ((liftM r : Run β) >>= g) :=
  (lift (.same r)).bind fun x _ hxy => hxy ▸ hfg x

end Run.Matched

/-! ## §2  Contents -/

/-- Two notes that begin and end together. -/
structure Note.SameSpan (n n' : Note α) : Prop where
  start : n.start = n'.start
  duration : n.duration = n'.duration

/-- Note by note. -/
def SameSpans (notes notes' : List (Note α)) : Prop :=
  List.Forall₂ Note.SameSpan notes notes'

omit [Scalar α] in
theorem SameSpans.append {notes notes' more more' : List (Note α)} (h : SameSpans notes notes')
    (hmore : SameSpans more more') : SameSpans (notes ++ more) (notes' ++ more') :=
  List.rel_append h hmore

/-- Notes and where they end. -/
def SameWalk (x x' : List (Note α) × α) : Prop :=
  SameSpans x.1 x'.1 ∧ x.2 = x'.2

/-- Two phrases whose notes begin and end together and that are equally long. -/
structure Phrase.SameSkeleton (p p' : Phrase α) : Prop where
  notes : SameSpans p.notes p'.notes
  beats : p.beats = p'.beats

namespace Phrase

open Outcome (Matched)

variable (c c' : Context α)

theorem sameWalk_ofTokensFrom (scale : α) (useOwn : Bool) (start : α) (ts : List (Token α)) :
    Matched SameWalk (ofTokensFrom c scale useOwn start ts)
      (ofTokensFrom c' scale useOwn start ts) := by
  induction ts generalizing start with
  | nil => exact .ok ⟨.nil, rfl⟩
  | cons t ts ih =>
      cases t with
      | rest l => exact ih _
      | note token =>
          have note (length : α) : Matched Note.SameSpan (noteOfToken c useOwn start length token)
              (noteOfToken c' useOwn start length token) :=
            (Matched.any _ _).bind fun _ _ _ => .ok ⟨rfl, rfl⟩
          exact (note _).bind fun _ _ hn => (ih _).bind fun _ _ hmore =>
            .ok ⟨.cons hn hmore.1, hmore.2⟩

theorem sameSkeleton_ofNotes (scale : α) (useOwn : Bool) (texts : List String) :
    Matched SameSkeleton (ofNotes c scale useOwn texts) (ofNotes c' scale useOwn texts) :=
  Matched.bind_same fun ts => (sameWalk_ofTokensFrom c c' scale useOwn _ ts).bind fun _ _ h =>
    .ok ⟨h.1, h.2⟩

theorem sameWalk_ofChordsFrom (start : α) (chords : List String) :
    Run.Matched SameWalk (ofChordsFrom c start chords) (ofChordsFrom c' start chords) := by
  induction chords generalizing start with
  | nil => exact .pure ⟨.nil, rfl⟩
  | cons text rest ih =>
      have tones (t : ChordToken) :
          Matched SameSpans (chordNotes c start t) (chordNotes c' start t) :=
        .mapM (fun _ => (Matched.any _ _).bind fun _ _ _ => .ok ⟨rfl, rfl⟩) _
      exact Run.Matched.bind_same fun t => (Run.Matched.any _ _).bind fun _ _ _ =>
        (Run.Matched.lift (tones t)).bind fun _ _ hnotes => (ih _).bind fun _ _ hmore =>
          .pure ⟨hnotes.append hmore.1, hmore.2⟩

omit [Scalar α] in
theorem sameSpans_entryNote? (start length : α) (e : DegreeEntry) :
    Matched (fun n? n'? => SameSpans n?.toList n'?.toList) (entryNote? c start length e)
      (entryNote? c' start length e) := by
  unfold entryNote?
  split
  · exact .ok .nil
  · exact (Matched.any _ _).bind fun _ _ _ => (Matched.any _ _).bind fun _ _ _ =>
      .ok (.cons ⟨rfl, rfl⟩ .nil)

theorem sameWalk_ofDegreesFrom (rhythm : List String) (start : α) (index : Nat)
    (degrees : List (Value α)) :
    Matched SameWalk (ofDegreesFrom c rhythm start index degrees)
      (ofDegreesFrom c' rhythm start index degrees) := by
  induction degrees generalizing start index with
  | nil => exact .ok ⟨.nil, rfl⟩
  | cons v rest ih =>
      exact Matched.bind_same fun e => Matched.bind_same fun length =>
        (sameSpans_entryNote? c c' start length e).bind fun _ _ hnote =>
          (ih _ _).bind fun _ _ hmore => .ok ⟨hnote.append hmore.1, hmore.2⟩

/-! ### Arpeggios -/

theorem sameWalk_ofTonesFrom (tones : List String) (length gate start : α) {order order' : List Int}
    (h : order.length = order'.length) :
    Matched SameWalk (ofTonesFrom c tones length gate start order)
      (ofTonesFrom c' tones length gate start order') := by
  induction order generalizing start order' with
  | nil =>
      cases List.length_eq_zero_iff.1 h.symm
      exact .ok ⟨.nil, rfl⟩
  | cons number rest ih =>
      obtain ⟨number', rest', rfl⟩ := List.exists_cons_of_length_eq_add_one h.symm
      exact (Matched.any _ _).bind fun _ _ _ => (Matched.any _ _).bind fun _ _ _ =>
        (ih _ (Nat.succ_inj.1 h)).bind fun _ _ hmore =>
          .ok ⟨.cons ⟨rfl, rfl⟩ hmore.1, hmore.2⟩

/-- Chance chooses the tones of a random order, but not how many there are. -/
theorem length_order (m : Arpeggio.Mode) (count : Nat) (steps : Option Int) :
    Draw.Matched (fun o o' => o.length = o'.length) (m.order count steps) (m.order count steps) := by
  unfold Arpeggio.Mode.order
  dsimp only
  split
  · intro o o' h h'
    exact h.of_mapM.length_eq.symm.trans h'.of_mapM.length_eq
  · split
    · exact .lift fun o o' h h' => congrArg List.length (Except.ok.inj (h.symm.trans h'))
    · exact .pure rfl

theorem length_arpeggioOrder (a : ArpeggioContent α) (count : Nat) :
    Run.Matched (fun o o' => o.length = o'.length) (arpeggioOrder a count)
      (arpeggioOrder a count) := by
  have mode : Run.Matched Eq (arpeggioMode a.mode) (arpeggioMode a.mode) := by
    unfold arpeggioMode
    split
    · exact .pure rfl
    · exact (Run.Matched.any _ _).bind fun _ _ _ => .pure rfl
  unfold arpeggioOrder
  split
  · exact .pure rfl
  · split
    · refine mode.bind fun m _ hm => ?_
      subst hm
      split
      · exact (Run.Matched.any _ _).bind fun _ _ _ => .ofDraw (length_order m _ _)
      · exact .ofDraw (length_order m _ _)
    · exact .pure rfl

theorem sameSkeleton_ofArpeggio (a : ArpeggioContent α) :
    Run.Matched SameSkeleton (ofArpeggio c a) (ofArpeggio c' a) :=
  Run.Matched.bind_same fun tones => Run.Matched.bind_same fun _ =>
    (length_arpeggioOrder a _).bind fun _ _ horder =>
      (Run.Matched.lift (sameWalk_ofTonesFrom c c' tones _ _ _ horder)).bind fun _ _ h =>
        .pure ⟨h.1, h.2⟩

/-! ### Drums and even rhythms -/

/-- The velocity of the track does not decide which steps are hits. -/
theorem sameSpans_lineNotes (drum kit : String) (length velocity velocity' : α)
    (steps : List String) :
    SameSpans (lineNotes drum kit length velocity steps)
      (lineNotes drum kit length velocity' steps) := by
  refine List.rel_filterMap ?_ (List.forall₂_same.2 fun _ _ => rfl)
  rintro ⟨step, i⟩ _ rfl
  unfold stepVelocity?
  dsimp only
  split
  · exact .some ⟨rfl, rfl⟩
  · split
    · exact .some ⟨rfl, rfl⟩
    · exact .none

omit [Scalar α] in
theorem sameSpans_hits (d : DrumsContent α) (length : α) (times : List α) :
    SameSpans (List.zipWith (hitNote c d.kit length) d.hits times)
      (List.zipWith (hitNote c' d.kit length) d.hits times) := by
  rw [SameSpans, ← List.map_uncurry_zip_eq_zipWith, ← List.map_uncurry_zip_eq_zipWith,
    List.forall₂_map_left_iff, List.forall₂_map_right_iff]
  exact List.forall₂_same.2 fun _ _ => ⟨rfl, rfl⟩

theorem sameSkeleton_ofLooseDrums (d : DrumsContent α) (length : α) :
    Matched SameSkeleton (ofLooseDrums c d length) (ofLooseDrums c' d length) := by
  unfold ofLooseDrums
  dsimp only
  split
  all_goals
    exact Matched.bind_same fun steps => Matched.bind_same fun times =>
      .ok ⟨(sameSpans_lineNotes _ _ _ _ _ _).append (sameSpans_hits c c' d length times), rfl⟩

theorem sameSkeleton_ofDrums (d : DrumsContent α) :
    Matched SameSkeleton (ofDrums c d) (ofDrums c' d) := by
  refine Matched.bind_same fun length => ?_
  split
  · exact sameSkeleton_ofLooseDrums c c' d _
  · refine .ok ⟨List.rel_flatMap (List.forall₂_same.2 fun _ _ => rfl) ?_, rfl⟩
    rintro ⟨drum, line⟩ _ rfl
    exact sameSpans_lineNotes _ _ _ _ _ _

theorem sameSkeleton_ofEuclidean (e : EuclideanContent α) :
    Matched SameSkeleton (ofEuclidean c e) (ofEuclidean c' e) := by
  refine Matched.bind_same fun _ => (Matched.any _ _).bind fun _ _ _ => .ok ⟨?_, rfl⟩
  rw [SameSpans, List.forall₂_map_left_iff, List.forall₂_map_right_iff]
  exact List.forall₂_same.2 fun _ _ => ⟨rfl, rfl⟩

/-! ### Voicings -/

theorem sameWalk_ofVoicingsFrom (start : α) (voicings : List (List String)) :
    Matched SameWalk (ofVoicingsFrom c start voicings) (ofVoicingsFrom c' start voicings) := by
  induction voicings generalizing start with
  | nil => exact .ok ⟨.nil, rfl⟩
  | cons voicing rest ih =>
      exact (Matched.mapM (fun _ => (Matched.any _ _).bind fun _ _ _ => .ok ⟨rfl, rfl⟩) voicing).bind
        fun _ _ (hnotes : SameSpans _ _) => (ih _).bind fun _ _ hmore =>
          .ok ⟨hnotes.append hmore.1, hmore.2⟩

theorem sameSkeleton_ofVoiceLead (v : VoiceLeadContent α) :
    Run.Matched SameSkeleton (ofVoiceLead c v) (ofVoiceLead c' v) :=
  (Run.Matched.any _ _).bind fun _ _ _ => Run.Matched.bind_same fun led =>
    (Run.Matched.any _ _).bind fun _ _ _ =>
      (Run.Matched.lift (sameWalk_ofVoicingsFrom c c' _ led.voicings)).bind fun _ _ h =>
        .pure ⟨h.1, h.2⟩

/-! ### Walked melodies -/

/-- Where so many states end that take the durations in turn, from `start` on; `index` counts the
states before. -/
def statesEnd (durations : List String) : α → Nat → Nat → Outcome α
  | start, _, 0 => .ok start
  | start, index, count + 1 => do
    let length ← Length.ofText (durations.getD (index % durations.length) "")
    statesEnd durations (start + length.beats) (index + 1) count

/-- States take their time whether they sound or not. -/
theorem statesEnd_ofStatesFrom {k : Key} {m : MarkovContent α} {durations : List String} {start : α}
    {index : Nat} {states : List String} {notes : List (Note α)} {finish : α}
    (h : (ofStatesFrom k m durations start index states).Yields (notes, finish)) :
    statesEnd durations start index states.length = .ok finish := by
  induction states generalizing start index notes with
  | nil =>
      unfold ofStatesFrom at h
      cases h.of_pure
      rfl
  | cons state rest ih =>
      unfold ofStatesFrom at h
      obtain ⟨length, hlength, h⟩ := h.of_bind
      rw [List.length_cons, statesEnd, hlength.of_lift, Outcome.ok_bind]
      dsimp only at h
      split at h
      all_goals
        obtain ⟨next, _, h⟩ := h.of_bind
        obtain ⟨pitch?, _, h⟩ := h.of_bind
        cases pitch? with
        | none => exact ih h
        | some pitch =>
            obtain ⟨snapped, _, h⟩ := h.of_bind
            obtain ⟨roll, _, h⟩ := h.of_bind
            obtain ⟨⟨more, last⟩, hmore, h⟩ := h.of_bind
            cases h.of_pure
            exact ih hmore

/-- A walk is as long as its durations, one for each step. -/
theorem statesEnd_walkNotes {k : Key} {m : MarkovContent α} {table : Markov.Table α}
    {notes : List (Note α)} {finish : α} (h : (walkNotes k m table).Yields (notes, finish)) :
    statesEnd m.duration.toList 0.0 0 m.steps.toNat = .ok finish := by
  obtain ⟨states, hstates, hnotes⟩ := yields_walkNotes h
  rw [← length_walkedStates hstates]
  exact statesEnd_ofStatesFrom hnotes

theorem sameBeats_ofMarkov (m : MarkovContent α) :
    Run.Matched (fun p p' => p.beats = p'.beats) (ofMarkov c m) (ofMarkov c' m) := by
  intro p p' h h'
  rcases yields_ofMarkov h with ⟨hstates, rfl⟩ | ⟨hstates, k, table, walked, hwalked, _⟩
  · rcases yields_ofMarkov h' with ⟨_, rfl⟩ | ⟨hsome, _⟩
    · rfl
    · exact absurd hstates hsome
  · rcases yields_ofMarkov h' with ⟨hnone, _⟩ | ⟨_, k', table', walked', hwalked', _⟩
    · exact absurd hnone hstates
    · exact Except.ok.inj ((statesEnd_walkNotes hwalked).symm.trans (statesEnd_walkNotes hwalked'))

/-! ### All contents but continuations -/

/-- A walk keeps its length only; all others keep their skeleton. -/
theorem sameSkeleton_ofContent {content : Content α} (hown : ∀ s, content ≠ .continuation s) :
    Run.Matched
      (fun p p' => p.beats = p'.beats ∧ ((∀ m, content ≠ .markov m) → SameSpans p.notes p'.notes))
      (ofContent c content) (ofContent c' content) := by
  have whole {r r' : Run (Phrase α)} (h : r.Matched SameSkeleton r') :
      r.Matched (fun p p' =>
        p.beats = p'.beats ∧ ((∀ m, content ≠ .markov m) → SameSpans p.notes p'.notes)) r' :=
    fun p p' hp hp' => ⟨(h p p' hp hp').beats, fun _ => (h p p' hp hp').notes⟩
  cases content with
  | notes ns => exact whole (.lift (sameSkeleton_ofNotes c c' _ _ _))
  | chords cs =>
      exact whole ((sameWalk_ofChordsFrom c c' _ cs).bind fun _ _ h => .pure ⟨h.1, h.2⟩)
  | degrees ds rhythm =>
      exact whole (.lift ((sameWalk_ofDegreesFrom c c' _ _ _ ds).bind fun _ _ h => .ok ⟨h.1, h.2⟩))
  | arpeggio a => exact whole (sameSkeleton_ofArpeggio c c' a)
  | drums d => exact whole (.lift (sameSkeleton_ofDrums c c' d))
  | euclidean e => exact whole (.lift (sameSkeleton_ofEuclidean c c' e))
  | markov m =>
      exact fun p p' h h' => ⟨sameBeats_ofMarkov c c' m p p' h h', fun hother => absurd rfl (hother m)⟩
  | continuation s => exact absurd rfl (hown s)
  | voiceLead v => exact whole (sameSkeleton_ofVoiceLead c c' v)
  | tuplet ratio ns =>
      exact whole (.lift (Matched.bind_same fun _ => Matched.bind_same fun _ =>
        sameSkeleton_ofNotes c c' _ _ _))
  | rest text => exact whole (.lift (Matched.bind_same fun _ => .ok ⟨.nil, rfl⟩))

end Phrase

/-! ## §3  Patterns -/

omit [Scalar α] in
theorem SameSpans.of_keeps {f : Finish α} {notes notes' finished finished' : List (Note α)}
    (h : List.Forall₂ f.Keeps notes finished) (h' : List.Forall₂ f.Keeps notes' finished')
    (hnotes : SameSpans notes notes') : SameSpans finished finished' := by
  have hright : SameSpans notes finished' := forall₂_comp
    (fun hn hkeeps => ⟨hn.start.trans hkeeps.start.symm, hn.duration.trans hkeeps.duration.symm⟩)
    hnotes h'
  exact forall₂_comp (R := flip f.Keeps)
    (fun hkeeps hn => ⟨hkeeps.start.trans hn.start, hkeeps.duration.trans hn.duration⟩)
    h.flip hright

/-- **The length of a pattern does not depend on chance or context.** However a base pattern that is no
continuation is expanded, on whatever stream and in whatever context, it takes the same beats; and if
it is not walked either, it plays as many notes, which begin and last as long one by one. -/
theorem BasePattern.sameSkeleton_expand {b : BasePattern α} (hown : ∀ s, b.content ≠ .continuation s)
    {c c' : Context α} {s s₁ s' s₁' : Session} {p p' : Phrase α}
    (h : b.expand c s = .ok (p, s₁)) (h' : b.expand c' s' = .ok (p', s₁')) :
    p.beats = p'.beats ∧ ((∀ m, b.content ≠ .markov m) → SameSpans p.notes p'.notes) := by
  obtain ⟨plain, s₂, hplain, hfinish, hbeats⟩ := expand_ok h
  obtain ⟨plain', s₂', hplain', hfinish', hbeats'⟩ := expand_ok h'
  obtain ⟨hsame, hspans⟩ :=
    Phrase.sameSkeleton_ofContent _ _ hown plain plain' ⟨_, _, hplain⟩ ⟨_, _, hplain'⟩
  refine ⟨hbeats.trans (hsame.trans hbeats'.symm), fun hfixed => ?_⟩
  exact .of_keeps ((Phrase.forall₂_applyFinish hfinish).1.imp fun _ _ h => h.1)
    ((Phrase.forall₂_applyFinish hfinish').1.imp fun _ _ h => h.1) (hspans hfixed)

/-- Four tones of a chord, thrown with dice. -/
def BasePattern.dice : BasePattern Rat where
  content := .arpeggio
    { chord := "C", duration := "8", mode := .text "random", octaves := 1, gate := 4 / 5
      steps := some 4 }

/-- The theorem at work: two throws, the second a tone higher, with nothing in common but their
skeleton. -/
theorem BasePattern.dice_sameSkeleton : ∃ _ : Elementary, ∃ p p' s₁ s₁',
    dice.expand .inCMajor ⟨⟨#[0, 0, 0, 0], 0⟩, []⟩ = .ok (p, s₁) ∧
    dice.expand { Context.inCMajor with transpose := 2 }
      ⟨⟨#[40563238, 60844857, 101408095, 202816190], 0⟩, []⟩ = .ok (p', s₁') ∧
    p.notes.map Note.pitch = ["C3", "C3", "C3", "C3"] ∧
    p'.notes.map Note.pitch = ["F#3", "A3", "A3", "D3"] ∧
    p.beats = p'.beats ∧ SameSpans p.notes p'.notes := by
  let _ := Elementary.coarse
  obtain ⟨⟨p, s₁⟩, hp, hpitches⟩ := Outcome.exists_of_any
    (r := dice.expand .inCMajor ⟨⟨#[0, 0, 0, 0], 0⟩, []⟩)
    (p := fun x => x.1.notes.map Note.pitch = ["C3", "C3", "C3", "C3"]) (by decide +kernel)
  obtain ⟨⟨p', s₁'⟩, hp', hpitches'⟩ := Outcome.exists_of_any
    (r := dice.expand { Context.inCMajor with transpose := 2 }
      ⟨⟨#[40563238, 60844857, 101408095, 202816190], 0⟩, []⟩)
    (p := fun x => x.1.notes.map Note.pitch = ["F#3", "A3", "A3", "D3"]) (by decide +kernel)
  obtain ⟨hbeats, hspans⟩ := sameSkeleton_expand (fun s h => by cases h) hp hp'
  exact ⟨inferInstance, p, p', s₁, s₁', hp, hp', of_decide_eq_true hpitches,
    of_decide_eq_true hpitches', hbeats, hspans fun m h => by cases h⟩

end Partitura

import Partitura.Proofs.Pattern.Origin
import Partitura.Proofs.Reports

/-!
# What patterns report

A name inside a pattern is reported when it leads nowhere. Whatever a pattern of the table reports is
such a name, which stands in some pattern of the table (`Inside`), or it is no report of a name at all
(`Accounted`). This is so for the generators (§2), for the patterns that refer to others (§3), and for
what patterns play in the end (§4).
-/

namespace Partitura

variable {α : Type} [Scalar α] {β : Type}

/-! ## §1  References in patterns -/

/-- A pattern refers to a raw name. -/
inductive Pattern.Mentions : Pattern α → NameUse → Value α → Prop
  | thenTarget (p : Conditional α) : Mentions (.conditional p) .target (.text p.thenName)
  | elseTarget (p : Conditional α) (given : p.elseName.truthy = true) :
      Mentions (.conditional p) .target p.elseName
  | parent (i : Inheritance α) : Mentions (.inheritance i) .parent (.text i.parent)
  | source (t : Transformation α) : Mentions (.transformation t) .source (.text t.source)
  | motif {b : BasePattern α} {s : ContinuationContent} (continues : b.content = .continuation s) :
      Mentions (.base b) .motif (.text s.source)

/-- A raw name is that of a pattern of the table. -/
def PatternTable.Knows (t : PatternTable α) (v : Value α) : Prop :=
  ∃ name p, v = .text name ∧ t.lookup name = some p

/-- The report of a reference in a pattern of the table. The name that it is about is not in the
table, unless it is that of a motif, which may also be in the table and have no notes. -/
inductive Inside (t : PatternTable α) : String → Prop
  | mk {p : Pattern α} {k : NameUse} {v : Value α} (hp : t.Has p) (hmentions : p.Mentions k v)
      (hknown : t.Knows v → k = .motif) : Inside t (k.report v.plain)

/-- A name that is not in the table at all. -/
theorem Inside.missing {t : PatternTable α} {p : Pattern α} {k : NameUse} {name : String}
    (hp : t.Has p) (hmentions : p.Mentions k (.text name)) (hname : t.lookup name = none) :
    Inside t (k.report name) := by
  refine .mk hp hmentions ?_
  rintro ⟨_, q, ⟨⟩, hq⟩
  cases hname.symm.trans hq

/-- A message that is no report of a name, or that of a reference inside the table. -/
def Accounted (t : PatternTable α) (message : String) : Prop :=
  (∀ k name, NameUse.report k name ≠ message) ∨ Inside t message

variable {t : PatternTable α}

theorem Accounted.of_clear {message : String} (h : clear message = true) : Accounted t message :=
  .inl (NameUse.report_ne_of_clear h)

/-! ## §2  Generators -/

open Run (Reports)

theorem Run.Reports.plain {message : String} (h : clear message = true) :
    Reports (Accounted t) (Run.warn message) :=
  .warn (.of_clear h)

theorem Run.Reports.plainAll {messages : List String} (h : ∀ m ∈ messages, clear m = true) :
    Reports (Accounted t) (Run.warnAll messages) :=
  .warnAll fun m hm => .of_clear (h m hm)

theorem Run.Reports.orWarn (r : Outcome β) : Reports (Accounted t) (Run.orWarn r) := by
  rcases r with why | x
  · cases why
    case rejected why => exact (plain (clear_rejection why)).bind fun _ _ => pure none
    all_goals exact throw _
  · exact pure (some x)

theorem Run.Reports.named? (find : Value α → Outcome β) (name : Value α) :
    Reports (Accounted t) (Run.named? find name) := by
  unfold Run.named?
  split
  · exact pure none
  · exact orWarn _

namespace Phrase

theorem reports_arpeggioOrder (a : ArpeggioContent α) (count : Nat) :
    Reports (Accounted t) (arpeggioOrder a count) := by
  have mode : Reports (Accounted t) (arpeggioMode a.mode) := by
    unfold arpeggioMode
    split
    · exact .pure _
    · exact (Reports.plain (clear_append (clear_append (by decide) _) _)).bind fun _ _ => .pure _
  unfold arpeggioOrder
  split
  · exact .pure _
  · split
    · refine mode.bind fun mode _ => ?_
      split
      · exact (Reports.throw _).bind fun _ _ => .ofDraw _
      · exact .ofDraw _
    · exact .pure _

theorem reports_ofArpeggio (c : Context α) (a : ArpeggioContent α) :
    Reports (Accounted t) (ofArpeggio c a) :=
  (Reports.lift _).bind fun _ _ => (Reports.lift _).bind fun _ _ =>
    (reports_arpeggioOrder a _).bind fun _ _ => (Reports.lift _).bind fun _ _ => .pure _

theorem reports_ofChordsFrom (c : Context α) (start : α) (chords : List String) :
    Reports (Accounted t) (ofChordsFrom c start chords) := by
  induction chords generalizing start with
  | nil => exact .pure _
  | cons text rest ih =>
      refine (Reports.lift _).bind fun token _ => Reports.bind ?_ fun _ _ =>
        (Reports.lift _).bind fun notes _ => (ih _).bind fun more _ => .pure _
      unfold warnVoicing
      split
      · exact .pure _
      · exact .plain (clear_append (clear_append (clear_append (clear_append (clear_append
          (clear_append (by decide) _) _) _) _) _) _)

theorem reports_walkTable (m : MarkovContent α) : Reports (Accounted t) (walkTable m) := by
  unfold walkTable
  split
  · exact (Reports.lift _).bind fun _ h =>
      (Reports.plainAll (clear_tableOf h.of_lift)).bind fun _ _ => .pure _
  · refine (Reports.lift _).bind fun preset _ => ?_
    split
    · exact .lift _
    · split
      · exact (Reports.plain (clear_append (clear_append (by decide) _) _)).bind fun _ _ => .lift _
      · exact (Reports.plain (by decide)).bind fun _ _ => .lift _

theorem reports_onStream (seed : Option Int) (d : Draw β) : Reports (Accounted t) (onStream seed d) := by
  cases seed with
  | none => exact .ofDraw d
  | some n => exact (Reports.lift _).bind fun _ _ => .pure _

theorem reports_warnStates (states : List String) : Reports (Accounted t) (warnStates states) := by
  refine .plainAll fun m hm => ?_
  obtain ⟨state, _, rfl⟩ := List.mem_map.1 hm
  exact clear_append (clear_append (by decide) _) _

theorem reports_ofMarkov (c : Context α) (m : MarkovContent α) :
    Reports (Accounted t) (ofMarkov c m) := by
  unfold ofMarkov
  split
  · exact (Reports.plain (by decide)).bind fun _ _ => .pure _
  · exact (reports_warnStates _).bind fun _ _ => (Reports.lift _).bind fun _ _ =>
      (reports_walkTable m).bind fun _ _ => (reports_onStream _ _).bind fun _ _ =>
        (Reports.lift _).bind fun _ _ => .pure _

theorem reports_ofVoiceLead (c : Context α) (v : VoiceLeadContent α) :
    Reports (Accounted t) (ofVoiceLead c v) :=
  (Reports.plainAll (Voicing.clear_leadWarnings _ _ _)).bind fun _ _ => (Reports.lift _).bind
    fun _ h => (Reports.plainAll (Voicing.clear_lead h.of_lift)).bind fun _ _ =>
      (Reports.lift _).bind fun _ _ => .pure _

theorem reports_applyEnvelope (f : Finish α) (velocity : α) (notes : List (Note α)) :
    Reports (Accounted t) (applyEnvelope f velocity notes) := by
  unfold applyEnvelope
  split
  · unfold Envelope.apply
    split
    · exact .pure _
    · split
      · split
        · exact (Reports.plain (clear_append (clear_append (by decide) _) _)).bind fun _ _ => .pure _
        · exact (Reports.lift _).bind fun _ _ => .pure _
      · split
        · exact .pure _
        · exact (Reports.lift _).bind fun _ _ => .pure _
  · exact .pure _

end Phrase

/-! ## §3  Patterns and their references -/

theorem reports_conditionHolds (c : Context α) (p : Conditional α) :
    Reports (Accounted t) (conditionHolds c p) := by
  have value : Reports (Accounted t) (conditionValue c p.condition) := by
    unfold conditionValue
    split
    · exact .pure _
    · exact .ofDraw _
    · exact .lift _
    · exact (Reports.plain (clear_append (clear_append (by decide) _) _)).bind fun _ _ => .pure _
  refine value.bind fun left _ => ?_
  split
  · exact .pure _
  · exact (Reports.plain (clear_append (by decide) _)).bind fun _ _ => .pure _

theorem reports_selectName (c : Context α) (p : Conditional α) :
    Reports (Accounted t) (selectName c p) := by
  refine (reports_conditionHolds c p).bind fun holds _ => ?_
  split
  · exact .pure _
  · exact .pure _

/-- What a condition selects is one of its two names. -/
theorem mentions_selectName {c : Context α} {p : Conditional α} {v : Value α}
    (h : (selectName c p).Yields v) : (Pattern.conditional p).Mentions .target v := by
  obtain ⟨holds, _, h⟩ := h.of_bind
  cases holds with
  | true =>
      cases h.of_pure
      exact .thenTarget p
  | false =>
      have heq := Run.Yields.of_pure h
      split at heq
      · next given => exact heq ▸ .elseTarget p given
      · exact heq ▸ .thenTarget p

theorem Inheritance.reports_merge (i : Inheritance α) (parent : BasePattern α) :
    Reports (Accounted t) (i.merge parent) := by
  unfold Inheritance.merge
  dsimp only
  split
  · exact (Reports.lift _).bind fun _ _ => .pure _
  · split
    · exact (Reports.plain (clear_append (clear_append (by decide) _) _)).bind fun _ _ => .pure _
    · exact .pure _

theorem Transformation.reports_apply (f : Transformation α) (source : BasePattern α) :
    Reports (Accounted t) (f.apply source) := by
  unfold Transformation.apply
  split
  · exact (Reports.plain (clear_append (clear_append (by decide) _) _)).bind fun _ _ => .pure _
  · refine Reports.bind ?_ fun _ _ => .pure _
    unfold Transformation.notes
    split
    · exact .lift _
    · exact (Reports.plain (clear_append (clear_append (clear_append (clear_append (by decide) _) _) _)
        _)).bind fun _ _ => .pure _

namespace Pattern

/-- By induction on the depth that is left; each kind of reference takes one step of it. -/
theorem reports_resolveWithin {c : Context α} (depth : Nat) {p : Pattern α} (hp : c.patterns.Has p) :
    Reports (Accounted c.patterns) (p.resolveWithin c depth) := by
  induction depth generalizing p with
  | zero => exact .throw _
  | succ depth ih =>
      cases p with
      | base b => exact .pure _
      | conditional p =>
          refine (reports_selectName c p).bind fun v hv => (Reports.lift _).bind fun target htarget => ?_
          cases target with
          | none =>
              -- What was selected is one of the two names, and it is not in the table.
              refine (Reports.warn (.inr ?_)).bind fun _ _ => .pure _
              refine .mk hp (mentions_selectName hv) ?_
              rintro ⟨name, q, rfl, hq⟩
              cases hq.symm.trans (Except.ok.inj htarget.of_lift)
          | some target =>
              obtain ⟨name, _, hname⟩ := patternOf?_eq_some htarget.of_lift
              exact ih ⟨name, hname⟩
      | inheritance i =>
          unfold resolveWithin
          split
          · next hparent =>
              exact (Reports.warn (.inr (.missing hp (.parent i) hparent))).bind fun _ _ => .pure _
          · next parent hparent =>
              refine (ih ⟨_, hparent⟩).bind fun resolved _ => ?_
              split
              · exact .pure _
              · exact (i.reports_merge _).bind fun _ _ => .pure _
      | transformation f =>
          unfold resolveWithin
          split
          · next hsource =>
              exact (Reports.warn (.inr (.missing hp (.source f) hsource))).bind fun _ _ => .pure _
          · next source hsource =>
              refine (ih ⟨_, hsource⟩).bind fun resolved _ => ?_
              split
              · exact .pure _
              · exact f.reports_apply _

end Pattern

/-! ## §4  What patterns play -/

namespace Phrase

/-- The motif of a continuation is a name in a pattern of the table. -/
theorem reports_ofContinuation {c : Context α} {s : ContinuationContent} {name : String}
    {b : BasePattern α} (hb : c.patterns.lookup name = some (.base b))
    (hcontinues : b.content = .continuation s) :
    Reports (Accounted c.patterns) (ofContinuation c s) := by
  have source : Reports (Accounted c.patterns) (continuationSource? c s.source) := by
    unfold continuationSource?
    split
    · exact .pure _
    · next p hp => exact (Pattern.reports_resolveWithin _ ⟨_, hp⟩).bind fun _ _ => .pure _
  refine source.bind fun notes? _ => ?_
  split
  · have hmotif : Inside c.patterns (NameUse.motif.report s.source) :=
      .mk ⟨name, hb⟩ (.motif hcontinues) fun _ => rfl
    exact (Reports.warn (.inr hmotif)).bind fun _ _ => .pure _
  · refine Reports.bind ?_ fun _ _ => .lift _
    unfold continuedNotes
    split
    · exact .lift _
    · exact (Reports.plain (clear_append (clear_append (by decide) _) _)).bind fun _ _ => .pure _

theorem reports_ofContent {c : Context α} {b : BasePattern α} (hb : b.Rooted c.patterns) :
    Reports (Accounted c.patterns) (ofContent c b.content) := by
  cases hcontent : b.content with
  | notes ns => exact .lift _
  | chords cs => exact (reports_ofChordsFrom c _ cs).bind fun _ _ => .pure _
  | degrees ds rhythm => exact .lift _
  | arpeggio a => exact reports_ofArpeggio c a
  | drums d => exact .lift _
  | euclidean e => exact .lift _
  | markov m => exact reports_ofMarkov c m
  | continuation s =>
      -- Only notes can be made on the way, so the continuation is that of a pattern of the table.
      rcases hb with ⟨notes, hnotes⟩ | ⟨name, b', hname, hsame⟩
      · cases hcontent.symm.trans hnotes
      · exact reports_ofContinuation hname (hsame.trans hcontent)
  | voiceLead v => exact reports_ofVoiceLead c v
  | tuplet ratio ns => exact .lift _
  | rest text => exact .lift _

end Phrase

theorem BasePattern.reports_expand {c : Context α} {b : BasePattern α} (hb : b.Rooted c.patterns) :
    Reports (Accounted c.patterns) (b.expand c) :=
  (Phrase.reports_ofContent (c := Phrase.finishContext c b.finish) hb).bind fun _ _ =>
    ((Phrase.reports_applyEnvelope _ _ _).bind fun _ _ => .lift _).bind fun _ _ => .pure _

/-- **What a pattern of the table reports is accounted for.** -/
theorem Pattern.reports_expand {c : Context α} {p : Pattern α} (hp : c.patterns.Has p) :
    Reports (Accounted c.patterns) (p.expand c) := by
  refine (Pattern.reports_resolveWithin _ hp).bind fun resolved hresolved => ?_
  cases resolved with
  | some b => exact BasePattern.reports_expand (Pattern.rooted_resolveWithin hp hresolved)
  | none => exact .pure _

end Partitura

import Mathlib.Algebra.BigOperators.Group.List.Basic
import Mathlib.Tactic.Ring
import Partitura.Proofs.Heedless
import Partitura.Proofs.Phrase.Skeleton

/-!
# Repeats line up

A track goes through its patterns once for every repeat, and expands them again each time on what the
pass before has left of the stream (`Passes`). What a base pattern plays may vary from pass to pass,
but not how many beats it takes, unless it continues another one (`Pattern.PlaysOwn.beats_eq`). So all
passes take the same beats, pattern by pattern (`Pass.beats_eq`), and each begins where as many passes
of this length end (`Track.repeats_line_up`). Names that are no patterns are reported, and without them
everything else would be the same (`agree_expandNames`).

A single pass is followed name by name (`expandNames_ok`), and all of them pass by pass
(`expandPasses_ok`).
-/

namespace Partitura

variable {α : Type} [Scalar α]

/-! ## §1  Passes -/

/-- A pattern that refers to no other: a base pattern, and no continuation. -/
def Pattern.PlaysOwn (p : Pattern α) : Prop :=
  ∃ b, p = .base b ∧ ∀ s, b.content ≠ .continuation s

/-- The warning about a name that is no pattern. -/
def Session.reportUnknown (s : Session) (name : String) : Session :=
  { s with warnings := s.warnings.add ("Pattern \"" ++ name ++ "\" not found") }

/-- One pass through the names of a track: what their patterns play, and the session that is left. A
name that is no pattern plays nothing and draws nothing. -/
inductive Pass (c : Context α) : List String → Session → List (Phrase α) → Session → Prop
  | nil (s : Session) : Pass c [] s [] s
  | unknown {name : String} {rest : List String} {s s' : Session} {pass : List (Phrase α)} :
      c.pattern? name = none → Pass c rest (s.reportUnknown name) pass s' →
      Pass c (name :: rest) s pass s'
  | known {name : String} {rest : List String} {s s₁ s' : Session} {p : Pattern α}
      {phrase : Phrase α} {pass : List (Phrase α)} :
      c.pattern? name = some p → p.expand c s = .ok (phrase, s₁) → Pass c rest s₁ pass s' →
      Pass c (name :: rest) s (phrase :: pass) s'

/-- Passes one after the other, each from the session that the one before it has left. -/
inductive Passes (c : Context α) (names : List String) :
    Session → List (List (Phrase α)) → Session → Prop
  | nil (s : Session) : Passes c names s [] s
  | cons {s s₁ s' : Session} {pass : List (Phrase α)} {passes : List (List (Phrase α))} :
      Pass c names s pass s₁ → Passes c names s₁ passes s' → Passes c names s (pass :: passes) s'

variable {c : Context α} {names : List String}

theorem Pattern.PlaysOwn.beats_eq {p : Pattern α} (hown : p.PlaysOwn) {s s₁ s' s₁' : Session}
    {phrase phrase' : Phrase α} (h : p.expand c s = .ok (phrase, s₁))
    (h' : p.expand c s' = .ok (phrase', s₁')) : phrase.beats = phrase'.beats := by
  obtain ⟨b, rfl, hown⟩ := hown
  obtain ⟨plain, s₂, hplain, _, hbeats⟩ := BasePattern.expand_ok (b := b) h
  obtain ⟨plain', s₂', hplain', _, hbeats'⟩ := BasePattern.expand_ok (b := b) h'
  obtain ⟨hsame, _⟩ :=
    Phrase.sameSkeleton_ofContent _ _ hown plain plain' ⟨_, _, hplain⟩ ⟨_, _, hplain'⟩
  exact hbeats.trans (hsame.trans hbeats'.symm)

/-- Two passes through the same names take the same beats, pattern by pattern. -/
theorem Pass.beats_eq (hown : ∀ name ∈ names, ∀ p, c.pattern? name = some p → p.PlaysOwn)
    {s s₁ s' s₁' : Session} {pass pass' : List (Phrase α)} (h : Pass c names s pass s₁)
    (h' : Pass c names s' pass' s₁') : pass.map (·.beats) = pass'.map (·.beats) := by
  induction h generalizing s' pass' with
  | nil s =>
      cases h'
      rfl
  | unknown hnone _ ih =>
      have hrest := (List.forall_mem_cons.1 hown).2
      cases h' with
      | unknown _ hrest' => exact ih hrest hrest'
      | known hsome' _ _ => exact absurd (hnone.symm.trans hsome') nofun
  | known hsome hphrase _ ih =>
      obtain ⟨hfirst, hrest⟩ := List.forall_mem_cons.1 hown
      cases h' with
      | unknown hnone' _ => exact absurd (hnone'.symm.trans hsome) nofun
      | known hsome' hphrase' hrest' =>
          obtain rfl := Option.some.inj (hsome.symm.trans hsome')
          rw [List.map_cons, List.map_cons, (hfirst _ hsome).beats_eq hphrase hphrase',
            ih hrest hrest']

/-! ## §2  Names that are no patterns -/

/-- Those of some names that are patterns. -/
def Context.known (c : Context α) (names : List String) : List String :=
  names.filter fun name => (c.pattern? name).isSome

variable {name : String} {rest : List String}

theorem expandNames_unknown (hnone : c.pattern? name = none) (start : α) (s : Session) :
    expandNames c start (name :: rest) s = expandNames c start rest (s.reportUnknown name) := by
  rw [expandNames, hnone]
  rfl

theorem expandNames_known {p : Pattern α} (hsome : c.pattern? name = some p) (start : α) :
    expandNames c start (name :: rest) = do
      let phrase ← p.expand c
      let (notes, finish) ← expandNames c (start + phrase.beats) rest
      return (phrase.notes.map (·.delay start) ++ notes, finish) := by
  rw [expandNames, hsome]

/-- Without the names that are no patterns a pass comes to the same. -/
theorem agree_expandNames (c : Context α) (start : α) (names : List String) :
    Run.Agree (expandNames c start names) (expandNames c start (c.known names)) := by
  induction names generalizing start with
  | nil => exact Run.Heedless.pure _
  | cons name rest ih =>
      unfold Context.known
      cases hpattern : c.pattern? name with
      | none =>
          rw [List.filter_cons_of_neg (by rw [hpattern]; exact Bool.false_ne_true)]
          intro t w w'
          unfold Run.bare
          rw [expandNames_unknown hpattern]
          exact ih start t _ w'
      | some p =>
          rw [List.filter_cons_of_pos (by rw [hpattern]; rfl), expandNames_known hpattern,
            expandNames_known hpattern]
          exact Run.Agree.bind (Pattern.heedless_expand c p) fun _ =>
            (ih _).bind fun _ => Run.Heedless.pure _

theorem agree_expandPasses (c : Context α) (names : List String) (count : Nat) (start : α) :
    Run.Agree (expandPasses c names count start) (expandPasses c (c.known names) count start) := by
  induction count generalizing start with
  | zero => exact Run.Heedless.pure _
  | succ count ih =>
      exact (agree_expandNames c start names).bind fun _ => (ih _).bind fun _ => Run.Heedless.pure _

/-! ## §3  Where notes are laid -/

section Exact

variable [Elementary]

/-- The notes of phrases one after the other from a beat on: each phrase is delayed by the beats of
those before it. -/
def laidOut (start : Rat) (pass : List (Phrase Rat)) : List (Note Rat) :=
  pass.zipIdx.flatMap fun (phrase, place) =>
    phrase.notes.map (·.delay (start + ((pass.take place).map (·.beats)).sum))

/-- The notes of passes at equal distances. -/
def evenlySpaced (start beats : Rat) (passes : List (List (Phrase Rat))) : List (Note Rat) :=
  passes.zipIdx.flatMap fun (pass, turn) => laidOut (start + turn * beats) pass

omit [Elementary] in
theorem flatMap_zipIdx_cons {β γ : Type} (x : β) (xs : List β) (f : β × Nat → List γ) :
    (x :: xs).zipIdx.flatMap f = f (x, 0) ++ xs.zipIdx.flatMap fun p => f (p.1, p.2 + 1) := by
  rw [List.zipIdx_cons', List.flatMap_cons, List.flatMap_map]
  rfl

theorem laidOut_cons (start : Rat) (phrase : Phrase Rat) (pass : List (Phrase Rat)) :
    laidOut start (phrase :: pass) =
      phrase.notes.map (·.delay start) ++ laidOut (start + phrase.beats) pass := by
  unfold laidOut
  rw [flatMap_zipIdx_cons]
  simp only [List.take_zero, List.map_nil, List.sum_nil, add_zero, List.take_succ_cons,
    List.map_cons, List.sum_cons, add_assoc]

theorem evenlySpaced_cons (start beats : Rat) (pass : List (Phrase Rat))
    (passes : List (List (Phrase Rat))) : evenlySpaced start beats (pass :: passes) =
      laidOut start pass ++ evenlySpaced (start + beats) beats passes := by
  have hturn (turn : Nat) : start + (turn + 1 : Nat) * beats = start + beats + turn * beats := by
    push_cast
    ring
  unfold evenlySpaced
  rw [flatMap_zipIdx_cons]
  simp only [hturn, Nat.cast_zero, zero_mul, add_zero]

/-! ## §4  What a track expands to -/

variable {c : Context Rat}

/-- By induction on the names that are left. -/
theorem expandNames_ok {start finish : Rat} {notes : List (Note Rat)} {s s' : Session}
    (h : expandNames c start names s = .ok ((notes, finish), s')) :
    ∃ pass, Pass c names s pass s' ∧ notes = laidOut start pass ∧
      finish = start + (pass.map (·.beats)).sum := by
  induction names generalizing start notes s with
  | nil =>
      cases h
      exact ⟨[], .nil _, rfl, (add_zero _).symm⟩
  | cons name rest ih =>
      cases hpattern : c.pattern? name with
      | none =>
          rw [expandNames_unknown hpattern] at h
          obtain ⟨pass, hpass, hnotes, hfinish⟩ := ih h
          exact ⟨pass, .unknown hpattern hpass, hnotes, hfinish⟩
      | some p =>
          rw [expandNames_known hpattern] at h
          obtain ⟨phrase, s₁, hphrase, h⟩ := Run.bind_ok h
          obtain ⟨⟨more, finish'⟩, s₂, hmore, h⟩ := Run.bind_ok h
          cases h
          obtain ⟨pass, hpass, rfl, rfl⟩ := ih hmore
          refine ⟨phrase :: pass, .known hpattern hphrase hpass, (laidOut_cons ..).symm, ?_⟩
          rw [List.map_cons, List.sum_cons, add_assoc]

/-- By induction on the passes that are left; each goes on from the beat and the session where the one
before it ended. -/
theorem expandPasses_ok {lengths : List Rat}
    (hlengths : ∀ s pass s', Pass c names s pass s' → pass.map (·.beats) = lengths) {count : Nat}
    {start : Rat} {notes : List (Note Rat)} {s s' : Session}
    (h : expandPasses c names count start s = .ok (notes, s')) :
    ∃ passes, Passes c names s passes s' ∧ passes.length = count ∧
      (∀ pass ∈ passes, pass.map (·.beats) = lengths) ∧
      notes = evenlySpaced start lengths.sum passes := by
  induction count generalizing start notes s with
  | zero =>
      cases h
      exact ⟨[], .nil _, rfl, List.forall_mem_nil _, rfl⟩
  | succ count ih =>
      obtain ⟨⟨first, finish⟩, s₁, hfirst, h⟩ := Run.bind_ok h
      obtain ⟨more, s₂, hmore, h⟩ := Run.bind_ok h
      cases h
      obtain ⟨pass, hpass, rfl, rfl⟩ := expandNames_ok hfirst
      obtain ⟨passes, hpasses, hcount, hbeats, rfl⟩ := ih hmore
      have hlength := hlengths _ _ _ hpass
      refine ⟨pass :: passes, .cons hpass hpasses, congrArg Nat.succ hcount,
        List.forall_mem_cons.2 ⟨hlength, hbeats⟩, ?_⟩
      rw [evenlySpaced_cons, hlength]

/-- **Repeats line up whatever is drawn.** If the patterns of a track are base patterns and no
continuations, every pass through them takes the same beats, on any stream: pattern by pattern the
`lengths`. Whenever the track is expanded, its notes are those of as many passes as it has repeats, each
expanded from what the pass before has left. A pass begins where as many passes of this length end, and
a pattern of it where the patterns before it end. Without the names that are no patterns the track
would come to the same notes and the same stream. -/
theorem Track.repeats_line_up (t : Track Rat) (c : Context Rat)
    (hown : ∀ name ∈ t.patterns, ∀ p, c.pattern? name = some p → p.PlaysOwn) :
    (∃ lengths : List Rat, ∀ s notes s', t.expand c s = .ok (notes, s') →
      ∃ passes, Passes c t.patterns s passes s' ∧ passes.length = t.repeats.toNat ∧
        (∀ pass ∈ passes, pass.map (·.beats) = lengths) ∧
        notes = passes.zipIdx.flatMap fun (pass, turn) => laidOut (turn * lengths.sum) pass) ∧
    Run.Agree (t.expand c) (Track.expand { t with patterns := c.known t.patterns } c) := by
  obtain ⟨lengths, hlengths⟩ : ∃ lengths : List Rat, ∀ s pass s', Pass c t.patterns s pass s' →
      pass.map (·.beats) = lengths := by
    by_cases hsome : ∃ s pass s', Pass c t.patterns s pass s'
    · obtain ⟨s₀, pass₀, s₀', hpass₀⟩ := hsome
      exact ⟨pass₀.map (·.beats), fun _ _ _ hpass => hpass.beats_eq hown hpass₀⟩
    · -- If no pass ever comes to its end, any lengths do.
      exact ⟨[], fun s pass s' hpass => absurd ⟨s, pass, s', hpass⟩ hsome⟩
  refine ⟨⟨lengths, fun s notes s' h => ?_⟩, agree_expandPasses c _ _ _⟩
  obtain ⟨passes, hpasses, hcount, hbeats, hnotes⟩ := expandPasses_ok hlengths h
  refine ⟨passes, hpasses, hcount, hbeats, ?_⟩
  rw [hnotes, Exact.start_eq]
  unfold evenlySpaced
  simp only [zero_add]

end Exact

/-- A walk of two steps that may end on a rest, and a tune. -/
def Context.withWalk : Context Rat :=
  { Context.inCMajor with
    patterns :=
      [("walk", .base
        { content := .markov
            { states := ["1", "rest"], steps := 2, duration := .one "8"
              preset := .text "uniform", octave := 4 } }),
       ("tune", .base { content := .notes ["C4:q"] })] }

/-- The walk and the tune, twice, after a name of no pattern. -/
def Track.vamp : Track Rat where
  patterns := ["nowhere", "walk", "tune"]
  repeats := 2

theorem playsOwn_withWalk {name : String} {p : Pattern Rat}
    (h : Context.withWalk.pattern? name = some p) : p.PlaysOwn := by
  have hmem := mem_of_lookup h
  simp only [Context.withWalk, List.mem_cons, List.not_mem_nil, or_false, Prod.mk.injEq] at hmem
  rcases hmem with ⟨_, rfl⟩ | ⟨_, rfl⟩
  all_goals exact ⟨_, rfl, fun _ h => by cases h⟩

/-- The theorem at work: the walk rests in the first pass and sounds in the second one, and the second
pass begins two beats after the first all the same. -/
theorem Track.vamp_lines_up : ∃ _ : Elementary,
    (∀ name ∈ vamp.patterns, ∀ p, Context.withWalk.pattern? name = some p → p.PlaysOwn) ∧
    ∃ notes s' lengths passes,
      vamp.expand .withWalk ⟨⟨#[0x80000000], 0⟩, []⟩ = .ok (notes, s') ∧
      notes.map Note.start = [0, 1, 2, 5 / 2, 3] ∧
      Passes .withWalk vamp.patterns ⟨⟨#[0x80000000], 0⟩, []⟩ passes s' ∧ passes.length = 2 ∧
      (∀ pass ∈ passes, pass.map (·.beats) = lengths) ∧
      notes = passes.zipIdx.flatMap fun (pass, turn) => laidOut (turn * lengths.sum) pass := by
  let _ := Elementary.coarse
  have hown : ∀ name ∈ vamp.patterns, ∀ p, Context.withWalk.pattern? name = some p → p.PlaysOwn :=
    fun _ _ _ => playsOwn_withWalk
  obtain ⟨⟨notes, s'⟩, hnotes, hstarts⟩ := Outcome.exists_of_any
    (r := vamp.expand .withWalk ⟨⟨#[0x80000000], 0⟩, []⟩)
    (p := fun x => x.1.map Note.start = [0, 1, 2, 5 / 2, 3]) (by decide +kernel)
  obtain ⟨⟨lengths, hpasses⟩, _⟩ := repeats_line_up vamp .withWalk hown
  obtain ⟨passes, hpasses, hcount, hbeats, hlaid⟩ := hpasses _ _ _ hnotes
  exact ⟨inferInstance, hown, notes, s', lengths, passes, hnotes, of_decide_eq_true hstarts, hpasses,
    hcount, hbeats, hlaid⟩

end Partitura

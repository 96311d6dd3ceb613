import Partitura.Proofs.Melody.Moving
import Partitura.Proofs.Pattern.Moving

/-!
# Extensions of extensions

A pattern may extend a pattern that extends another one, and so on down to written notes. Every level
may write notes of its own, move the notes that it has, and say what is done to them afterwards.
Resolving works its way up from the root: it writes the notes of each level as texts, and the next level
reads them again.

None of that shows in the end (`Descends.resolve_lineage`). The notes are the youngest that were written,
moved once by what all levels from there on move together, and each part of the finish is that of the
youngest level that says anything about it. Above a level with notes of its own only what it says itself
counts, so the sum does not start at the root but there (`Ancestry.movers`).

The induction is on the levels. `Inheritance.merge_written` and `shiftNotes_ok_iff` are the step: they
say what one level makes of the notes that it receives, and `Ancestry.carry_cons` that all levels
together make the same of them.
-/

namespace Partitura

open Notation

variable {α : Type} [Scalar α]

/-! ## §1  Levels -/

/-- The levels through which a pattern comes down from another, the youngest first. -/
abbrev Ancestry (α : Type) :=
  List (Inheritance α)

/-- Each level extends the one before, and the oldest one extends a base pattern. -/
inductive Descends (c : Context α) (root : BasePattern α) : Ancestry α → Pattern α → Prop
  | root : Descends c root [] (.base root)
  | heir {i : Inheritance α} {older : Ancestry α} {p : Pattern α} :
      c.pattern? i.parent = some p → Descends c root older p →
      Descends c root (i :: older) (.inheritance i)

namespace Ancestry

/-- The youngest notes that a level writes, or else those of the root. -/
def written (root : List String) (levels : Ancestry α) : List String :=
  (levels.findSome? (·.notes)).getD root

/-- The levels that the written notes come through: those from the one that writes them on. -/
def movers (levels : Ancestry α) : Ancestry α :=
  levels.take (levels.findIdx (·.notes.isSome) + 1)

/-- The semitones by which these levels move the notes, all together. -/
def lift (levels : Ancestry α) : Int :=
  ((movers levels).map fun i => i.transpose + octaveSize * i.octave).sum

/-- None of these levels moves the notes. -/
def Still (levels : Ancestry α) : Prop :=
  ∀ i ∈ movers levels, i.transpose = 0 ∧ i.octave = 0

instance (levels : Ancestry α) : Decidable (Still levels) :=
  inferInstanceAs (Decidable (∀ i ∈ movers levels, i.transpose = 0 ∧ i.octave = 0))

/-- What becomes of the tokens of the written notes. Without a move they keep their spelling. -/
def carry (levels : Ancestry α) (ts : List (Token α)) : List (Token α) :=
  if Still levels then ts else ts.map (Token.moved (lift levels))

/-- The tokens that a level has before it moves them: its own, or what becomes of older ones. -/
def received (i : Inheritance α) (older : Ancestry α) (ts : List (Token α)) : List (Token α) :=
  if i.notes.isSome then ts else carry older ts

/-- Each part of a finish is that of the youngest level that says anything about it, or else that of the
root. -/
def finish (levels : Ancestry α) (f : Finish α) : Finish α :=
  { velocity := (levels.findSome? (·.velocity)).or f.velocity
    envelope := (levels.findSome? (·.envelope)).or f.envelope
    constrainToScale := (levels.findSome? (·.constrainToScale)).getD f.constrainToScale }

/-! ## §2  One level more -/

section Cons

variable (i : Inheritance α) (older : Ancestry α)

omit [Scalar α] in
theorem written_cons (root : List String) :
    written root (i :: older) = i.notes.getD (written root older) := by
  unfold written
  rw [List.findSome?_cons]
  cases i.notes with
  | none => rfl
  | some own => rfl

omit [Scalar α] in
/-- Notes of its own cut a level off from the older ones. -/
theorem movers_cons :
    movers (i :: older) = i :: if i.notes.isSome then [] else movers older := by
  unfold movers
  rw [List.findIdx_cons, List.take_succ_cons]
  cases i.notes with
  | none => rfl
  | some own => rfl

omit [Scalar α] in
theorem lift_cons : lift (i :: older) =
    i.transpose + octaveSize * i.octave + if i.notes.isSome then 0 else lift older := by
  unfold lift
  rw [movers_cons, List.map_cons, List.sum_cons]
  cases i.notes with
  | none => rfl
  | some own => rfl

omit [Scalar α] in
theorem still_cons : Still (i :: older) ↔
    (i.transpose = 0 ∧ i.octave = 0) ∧ (i.notes.isSome = false → Still older) := by
  unfold Still
  rw [movers_cons, List.forall_mem_cons]
  cases i.notes with
  | none => simp
  | some own => simp

omit [Scalar α] in
theorem finish_cons (f : Finish α) : finish (i :: older) f = i.finish (finish older f) := by
  unfold finish Inheritance.finish
  simp only [List.findSome?_cons]
  cases i.velocity <;> cases i.envelope <;> cases i.constrainToScale <;> rfl

omit [Scalar α] in
theorem lift_eq_zero_of_still {levels : Ancestry α} (h : Still levels) : lift levels = 0 := by
  refine List.sum_eq_zero fun semitones hsemitones => ?_
  obtain ⟨i, hi, rfl⟩ := List.mem_map.1 hsemitones
  obtain ⟨htranspose, hoctave⟩ := h i hi
  rw [htranspose, hoctave]
  rfl

omit [Scalar α] in
/-- What becomes of the notes is what the youngest level makes of those that it receives. -/
theorem carry_cons (ts : List (Token α)) :
    carry (i :: older) ts = movedTokens i.transpose i.octave (received i older ts) := by
  unfold carry movedTokens received
  rw [lift_cons]
  simp only [still_cons]
  cases i.notes with
  | some own => simp only [Option.isSome_some, Bool.true_eq_false, false_implies, and_true, if_true, add_zero]
  | none =>
      simp only [Option.isSome_none, forall_true_left, Bool.false_eq_true, if_false]
      by_cases hstill : Still older
      · -- The older levels leave the notes as they are.
        have hkept : carry older ts = ts := if_pos hstill
        rw [hkept, lift_eq_zero_of_still hstill, add_zero]
        simp only [hstill, and_true]
      · have hmoved : carry older ts = ts.map (Token.moved (lift older)) := if_neg hstill
        rw [hmoved]
        simp only [hstill, and_false, if_false]
        by_cases hmove : i.transpose = 0 ∧ i.octave = 0
        · rw [if_pos hmove, hmove.1, hmove.2, mul_zero, zero_add, zero_add]
        · rw [if_neg hmove, List.map_map, add_comm]
          refine List.map_congr_left fun t _ => ?_
          exact (Token.moved_moved _ _ t).symm

end Cons

/-! ## §3  What all levels must be able to do -/

/-- Notes can be read, and their numbers are read back from how they are shown. -/
def Restored (α : Type) [Scalar α] (notes : List String) : Prop :=
  ∃ ts : List (Token α), Melody.tokens α notes = .ok ts ∧ ∀ t ∈ ts, t.Restorable

/-- All notes that are written anywhere in a lineage can be read back, and at every level those that the
level receives stay within reach. -/
structure Passes (notes : List String) (levels : Ancestry α) : Prop where
  root : Restored α notes
  own : ∀ i ∈ levels, ∀ own ∈ i.notes, Restored α own
  reach : ∀ i older ts, i :: older <:+ levels →
    Melody.tokens α (written notes (i :: older)) = .ok ts →
    WithinReach i.transpose i.octave (received i older ts)

variable {notes : List String} {levels : Ancestry α} {ts : List (Token α)}

theorem Passes.older {i : Inheritance α} {older : Ancestry α} (h : Passes notes (i :: older)) :
    Passes notes older where
  root := h.root
  own i' hi' := h.own i' (List.mem_cons_of_mem i hi')
  reach i' older' ts hsuffix := h.reach i' older' ts (hsuffix.trans (List.suffix_cons i older))

theorem Passes.restored_written (h : Passes notes levels) : Restored α (written notes levels) := by
  unfold written
  cases hfound : levels.findSome? (·.notes) with
  | none => exact h.root
  | some own =>
      obtain ⟨i, hi, hown⟩ := List.exists_of_findSome?_eq_some hfound
      exact h.own i hi own hown

theorem restorable_carry (levels : Ancestry α) (h : ∀ t ∈ ts, t.Restorable) :
    ∀ t ∈ carry levels ts, t.Restorable := by
  unfold carry
  split
  · exact h
  · exact List.forall_mem_map.2 fun t ht => (h t ht).moved _

end Ancestry

open Ancestry

/-! ## §4  Resolving -/

/-- What a level makes of the notes that it receives. -/
theorem Inheritance.merge_received {i : Inheritance α} {older : Ancestry α} {notes : List String}
    {f : Finish α} {ts : List (Token α)}
    (hread : Melody.tokens α (i.notes.getD notes) = .ok (received i older ts))
    (hrestorable : ∀ t ∈ received i older ts, t.Restorable)
    (hreach : WithinReach i.transpose i.octave (received i older ts)) :
    ∃ out, Melody.tokens α out = .ok (carry (i :: older) ts) ∧
      i.merge { content := .notes notes, finish := f } =
        pure { content := .notes out, finish := i.finish f } := by
  have hshift := (shiftNotes_ok_iff hread hrestorable).2 ⟨hreach, rfl⟩
  rw [← carry_cons] at hshift
  obtain ⟨out, hout, htokens⟩ := Outcome.bind_ok hshift
  refine ⟨out, htokens, ?_⟩
  rw [Inheritance.merge_written, hout]
  rfl

namespace Descends

variable {c : Context α} {root : List String} {f : Finish α} {levels : Ancestry α} {p : Pattern α}

/-- By induction on the levels: the tokens of what each one writes are those of the written notes, moved
by all levels so far. -/
theorem resolveWithin_lineage (h : Descends c { content := .notes root, finish := f } levels p)
    (hpasses : Passes root levels) {ts : List (Token α)}
    (hread : Melody.tokens α (written root levels) = .ok ts) {depth : Nat}
    (hdepth : levels.length < depth) :
    ∃ out, Melody.tokens α out = .ok (carry levels ts) ∧
      p.resolveWithin c depth = pure (some { content := .notes out, finish := levels.finish f }) := by
  induction h generalizing ts depth with
  | root =>
      obtain ⟨depth, rfl⟩ := Nat.exists_eq_succ_of_ne_zero (Nat.ne_zero_of_lt hdepth)
      exact ⟨root, hread, rfl⟩
  | @heir i older p hparent _ ih =>
      obtain ⟨depth, rfl⟩ := Nat.exists_eq_succ_of_ne_zero (Nat.ne_zero_of_lt hdepth)
      obtain ⟨ts₀, hread₀, hrestorable₀⟩ := hpasses.older.restored_written
      obtain ⟨notes, hnotes, hresolved⟩ := ih hpasses.older hread₀ (Nat.lt_of_succ_lt_succ hdepth)
      have hreceived : Melody.tokens α (i.notes.getD notes) = .ok (received i older ts) ∧
          ∀ t ∈ received i older ts, t.Restorable := by
        obtain ⟨_, hread', hrestorable⟩ := hpasses.restored_written
        cases hread'.symm.trans hread
        rw [written_cons] at hread
        unfold received
        cases hown : i.notes with
        | none =>
            rw [hown] at hread
            cases hread₀.symm.trans hread
            exact ⟨hnotes, restorable_carry older hrestorable⟩
        | some own =>
            rw [hown] at hread
            exact ⟨hread, hrestorable⟩
      obtain ⟨out, hout, hmerge⟩ := Inheritance.merge_received (f := older.finish f) hreceived.1
        hreceived.2 (hpasses.reach i older ts List.suffix_rfl hread)
      refine ⟨out, hout, ?_⟩
      simp only [Pattern.resolveWithin, hparent, hresolved, pure_bind, hmerge, finish_cons]

/-- **Extensions of extensions compose.** A pattern that comes down from written notes through no more
levels than references may be followed is resolved to written notes, in every session and without a
warning, if all notes on the way can be read back and stay within reach at every level. Read again, they
are the youngest notes that were written, moved at once by the sum of what the levels from there on move.
Each part of the finish is that of the youngest level that says anything about it. -/
theorem resolve_lineage (h : Descends c { content := .notes root, finish := f } levels p)
    (hlength : levels.length ≤ maxReferenceDepth) (hpasses : Passes root levels) :
    ∃ ts out, Melody.tokens α (written root levels) = .ok ts ∧
      Melody.tokens α out = .ok (carry levels ts) ∧
      ∀ s, p.resolve c s = .ok (some { content := .notes out, finish := levels.finish f }, s) := by
  obtain ⟨ts, hread, _⟩ := hpasses.restored_written
  obtain ⟨out, hout, hresolved⟩ :=
    h.resolveWithin_lineage hpasses hread (Nat.lt_succ_of_le hlength)
  refine ⟨ts, out, hread, hout, fun s => ?_⟩
  unfold Pattern.resolve
  rw [hresolved]
  rfl

/-- Up by a tone and an octave from a tune. -/
def lifted : Inheritance Rat :=
  { parent := "tune", transpose := 2, octave := 1, velocity := some 1, constrainToScale := some true }

/-- Notes of its own in place of the lifted ones, a semitone up. A velocity of 0 counts as one, and so
does a word against the key. -/
def answer : Inheritance Rat :=
  { parent := "lifted", notes := some ["Cb4:q r:q"], transpose := 1, velocity := some 0
    constrainToScale := some false }

/-- An octave below the answer. -/
def low : Inheritance Rat :=
  { parent := "answer", octave := -1 }

/-- Where they are all found, with a tune whose velocities are stretched between two levels. -/
def family : Context Rat where
  key := { root := ⟨.c, .natural⟩, mode := .major }
  tempo := 120
  patterns := [("tune", .base
      { content := .notes Moving.tune, finish := { envelope := some (.levels [1 / 5, 1]) } }),
    ("lifted", .inheritance lifted), ("answer", .inheritance answer)]
  velocity := 4 / 5

/-- The theorem at work on three levels: the notes are the answer's, eleven semitones down, the velocity
and the word about the key are the answer's too, and the envelope is that of the tune. -/
theorem low_resolved : ∃ _ : Elementary, ∃ ts out,
    Melody.tokens Rat ["Cb4:q r:q"] = .ok ts ∧
      Melody.tokens Rat out = .ok (ts.map (Token.moved (-11))) ∧
      ∀ s, Pattern.resolve family (.inheritance low) s = .ok (some
        { content := .notes out
          finish := { velocity := some 0, envelope := some (.levels [1 / 5, 1])
                      constrainToScale := false } }, s) := by
  let _ := Elementary.coarse
  let levels : Ancestry Rat := [low, answer, lifted]
  have hdescends : Descends family
      { content := .notes Moving.tune, finish := { envelope := some (.levels [1 / 5, 1]) } } levels
      (.inheritance low) := .heir rfl (.heir rfl (.heir rfl .root))
  obtain ⟨tuneTokens, htune, htuneRestorable, htuneReach⟩ :=
    Moving.exists_of_even Moving.readsBack_half Moving.tune 59 (by decide +kernel)
  obtain ⟨ownTokens, hown, hownRestorable, hownReach⟩ :=
    Moving.exists_of_even Moving.readsBack_half ["Cb4:q r:q"] 59 (by decide +kernel)
  have hpasses : Passes Moving.tune levels := by
    refine ⟨⟨_, htune, htuneRestorable⟩, ?_, ?_⟩
    · intro i hi own hmem
      simp only [levels, List.mem_cons, List.not_mem_nil, or_false] at hi
      rcases hi with rfl | rfl | rfl
      · cases hmem
      · cases hmem
        exact ⟨_, hown, hownRestorable⟩
      · cases hmem
    · intro i older ts hsuffix hread
      simp only [levels, List.suffix_cons_iff, List.suffix_nil, List.cons.injEq, reduceCtorEq,
        or_false] at hsuffix
      rcases hsuffix with ⟨rfl, rfl⟩ | ⟨rfl, rfl⟩ | ⟨rfl, rfl⟩
      · cases hown.symm.trans hread
        have hreceived : received low [answer, lifted] ownTokens =
            ownTokens.map (Token.moved 1) := if_neg (by decide)
        rw [hreceived]
        exact ⟨.inl rfl, .inr (List.forall_mem_map.2 fun t ht =>
          Token.inReach_moved.2 (hownReach _ (by decide) t ht))⟩
      · cases hown.symm.trans hread
        exact ⟨.inr (hownReach _ (by decide)), .inl rfl⟩
      · cases htune.symm.trans hread
        exact ⟨.inr (htuneReach _ (by decide)), .inr (htuneReach _ (by decide))⟩
  obtain ⟨ts, out, hread, hout, hresolve⟩ := hdescends.resolve_lineage (by decide) hpasses
  exact ⟨inferInstance, ts, out, hread, hout, hresolve⟩

end Descends

end Partitura

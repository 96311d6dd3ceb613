import Partitura.Pattern.Resolution
import Partitura.Proofs.Computation

/-!
# Where resolved patterns come from

What a resolved pattern plays is not made up on the way. Following a reference either leads to written
notes, changed or not, or leaves the content of what it leads to alone. So the content of a resolved
pattern is written notes, or it is that of a base pattern of the table.
-/

namespace Partitura

variable {α : Type} [Scalar α]

/-- What a base pattern plays is written notes or the content of a base pattern of the table. -/
def BasePattern.Rooted (t : PatternTable α) (b : BasePattern α) : Prop :=
  (∃ notes, b.content = .notes notes) ∨
    ∃ name b', t.lookup name = some (.base b') ∧ b'.content = b.content

/-- A pattern of the table. -/
def PatternTable.Has (t : PatternTable α) (p : Pattern α) : Prop :=
  ∃ name, t.lookup name = some p

theorem Inheritance.content_merge {i : Inheritance α} {parent merged : BasePattern α}
    (h : (i.merge parent).Yields merged) :
    (∃ notes, merged.content = .notes notes) ∨ merged.content = parent.content := by
  unfold Inheritance.merge at h
  cases hnotes : i.notes with
  | some notes =>
      rw [hnotes] at h
      obtain ⟨moved, _, h⟩ := h.of_bind
      cases h.of_pure
      exact .inl ⟨moved, rfl⟩
  | none =>
      rw [hnotes] at h
      dsimp only at h
      split at h
      · obtain ⟨moved, _, h⟩ := h.of_bind
        cases h.of_pure
        exact .inl ⟨moved, rfl⟩
      · split at h
        · obtain ⟨_, _, h⟩ := h.of_bind
          cases h.of_pure
          exact .inr rfl
        · cases h.of_pure
          exact .inr rfl

theorem Transformation.content_apply {t : Transformation α} {source changed : BasePattern α}
    (h : (t.apply source).Yields (some changed)) : ∃ notes, changed.content = .notes notes := by
  unfold Transformation.apply at h
  split at h
  · obtain ⟨_, _, h⟩ := h.of_bind
    cases h.of_pure
  · obtain ⟨notes, _, h⟩ := h.of_bind
    cases h.of_pure
    exact ⟨notes, rfl⟩

omit [Scalar α] in
theorem patternOf?_eq_some {c : Context α} {v : Value α} {q : Pattern α}
    (h : patternOf? c v = .ok (some q)) : ∃ name, v = .text name ∧ c.pattern? name = some q := by
  unfold patternOf? at h
  split at h
  · next name => exact ⟨name, rfl, Except.ok.inj h⟩
  all_goals cases h

namespace Pattern

/-- What holds of written notes, of the base patterns of the table, and of the pattern itself if it is
one, holds of what it is resolved to. By induction on the depth that is left. -/
theorem content_resolveWithin {P : Content α → Prop} {c : Context α} {depth : Nat} {p : Pattern α}
    {b : BasePattern α} (hnotes : ∀ notes, P (.notes notes))
    (htable : ∀ b', c.patterns.Has (.base b') → P b'.content) (hp : ∀ b', p = .base b' → P b'.content)
    (h : (p.resolveWithin c depth).Yields (some b)) : P b.content := by
  induction depth generalizing p b with
  | zero =>
      obtain ⟨s, s', h⟩ := h
      cases h
  | succ depth ih =>
      have onward {name : String} {q : Pattern α} (hq : c.pattern? name = some q) :
          ∀ b', q = .base b' → P b'.content := fun b' hb' => htable b' ⟨name, hb' ▸ hq⟩
      cases p with
      | base b' =>
          cases h.of_pure
          exact hp b rfl
      | conditional p =>
          obtain ⟨v, _, h⟩ := h.of_bind
          obtain ⟨target?, htarget, h⟩ := h.of_bind
          cases target? with
          | none =>
              obtain ⟨_, _, h⟩ := h.of_bind
              cases h.of_pure
          | some target =>
              obtain ⟨name, _, hname⟩ := patternOf?_eq_some htarget.of_lift
              exact ih (onward hname) h
      | inheritance i =>
          unfold resolveWithin at h
          split at h
          · obtain ⟨_, _, h⟩ := h.of_bind
            cases h.of_pure
          · next parent hparent =>
              obtain ⟨resolved?, hresolved, h⟩ := h.of_bind
              cases resolved? with
              | none => cases h.of_pure
              | some resolved =>
                  obtain ⟨merged, hmerged, h⟩ := h.of_bind
                  cases h.of_pure
                  rcases Inheritance.content_merge hmerged with ⟨notes, hcontent⟩ | hcontent
                  · exact hcontent ▸ hnotes notes
                  · exact hcontent ▸ ih (onward hparent) hresolved
      | transformation t =>
          unfold resolveWithin at h
          split at h
          · obtain ⟨_, _, h⟩ := h.of_bind
            cases h.of_pure
          · obtain ⟨resolved?, hresolved, h⟩ := h.of_bind
            cases resolved? with
            | none => cases h.of_pure
            | some resolved =>
                obtain ⟨notes, hcontent⟩ := Transformation.content_apply h
                exact hcontent ▸ hnotes notes

theorem rooted_resolveWithin {c : Context α} {depth : Nat} {p : Pattern α} {b : BasePattern α}
    (hp : c.patterns.Has p) (h : (p.resolveWithin c depth).Yields (some b)) :
    b.Rooted c.patterns := by
  have htable (b' : BasePattern α) (hb' : c.patterns.Has (.base b')) : b'.Rooted c.patterns := by
    obtain ⟨name, hname⟩ := hb'
    exact .inr ⟨name, b', hname, rfl⟩
  exact content_resolveWithin
    (P := fun content => (∃ notes, content = .notes notes) ∨
      ∃ name b', c.patterns.lookup name = some (.base b') ∧ b'.content = content)
    (fun notes => .inl ⟨notes, rfl⟩) htable (fun b' hb' => htable b' (hb' ▸ hp)) h

end Pattern

end Partitura

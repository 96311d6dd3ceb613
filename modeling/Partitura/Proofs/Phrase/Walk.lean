import Partitura.Phrase.Markov
import Partitura.Proofs.Computation

/-!
# What a walked melody is made of

A walk over the states comes first, then every state takes its time, then the notes are placed on the
track (`yields_ofMarkov`, `yields_walkNotes`). However it goes, the walk has as many states as it is
asked for (`length_walkedStates`).
-/

namespace Partitura.Phrase

variable {α : Type} [Scalar α] {β : Type}

/-! ## §1  As many states as steps -/

theorem length_steps {table : Markov.Table α} {state : String} {count : Nat} {states : List String}
    (h : (table.steps state count).Yields states) : states.length = count := by
  induction count generalizing state states with
  | zero =>
      cases h.of_pure
      rfl
  | succ count ih =>
      obtain ⟨next, _, h⟩ := h.of_bind
      obtain ⟨more, hmore, h⟩ := h.of_bind
      cases h.of_pure
      exact congrArg Nat.succ (ih hmore)

/-- A walk has as many states as it is asked for, whatever is drawn. -/
theorem length_walk {table : Markov.Table α} {state : String} {length : Int} {states : List String}
    (h : (table.walk state length).Yields states) : states.length = length.toNat := by
  unfold Markov.Table.walk at h
  split at h
  · cases h.of_pure
    rw [List.length_nil]
    omega
  · obtain ⟨more, hmore, h⟩ := h.of_bind
    cases h.of_pure
    rw [List.length_cons, length_steps hmore]
    omega

theorem length_walkedStates {m : MarkovContent α} {table : Markov.Table α} {states : List String}
    (h : (walkedStates m table).Yields (some states)) : states.length = m.steps.toNat := by
  unfold walkedStates at h
  split at h
  · obtain ⟨walked, hwalked, heq⟩ := h.of_map
    cases heq
    exact length_walk hwalked
  · split at h
    · obtain ⟨walked, hwalked, heq⟩ := h.of_map
      cases heq
      exact length_walk hwalked
    · split at h
      · next hsteps =>
          cases h.of_pure
          rw [List.length_nil]
          omega
      · split at h
        · obtain ⟨t, t', h⟩ := h
          cases h
        · cases h.of_pure

/-! ## §2  Taking a walk apart -/

/-- A walk that comes to notes has gone over states. -/
theorem yields_walkNotes {k : Key} {m : MarkovContent α} {table : Markov.Table α}
    {x : List (Note α) × α} (h : (walkNotes k m table).Yields x) :
    ∃ states, (walkedStates m table).Yields (some states) ∧
      (ofStatesFrom k m m.duration.toList 0.0 0 states).Yields x := by
  obtain ⟨states?, hstates, h⟩ := h.of_bind
  dsimp only at h
  split at h
  · obtain ⟨_, ⟨t, t', hstop⟩, _⟩ := h.of_bind
    cases hstop
  · cases states? with
    | some states => exact ⟨states, hstates, h⟩
    | none =>
        obtain ⟨_, _, t, t', h⟩ := h.of_bind
        cases h

theorem yields_onStream {seed : Option Int} {d : Draw β} {x : β} (h : (onStream seed d).Yields x) :
    d.Yields x := by
  cases seed with
  | none => exact h.of_draw
  | some n =>
      obtain ⟨⟨y, t⟩, hy, h⟩ := h.of_bind
      cases h.of_pure
      exact ⟨_, _, hy.of_lift⟩

theorem yields_ofMarkov {c : Context α} {m : MarkovContent α} {p : Phrase α}
    (h : (ofMarkov c m).Yields p) :
    (m.states.isEmpty = true ∧ p = silence) ∨
      (m.states.isEmpty ≠ true ∧ ∃ k table walked, (walkNotes k m table).Yields (walked, p.beats) ∧
        walked.mapM (placeWalked c) = .ok p.notes) := by
  unfold ofMarkov at h
  split at h
  · next hnone =>
      obtain ⟨_, _, h⟩ := h.of_bind
      exact .inl ⟨hnone, h.of_pure.symm⟩
  · next hsome =>
      obtain ⟨_, _, h⟩ := h.of_bind
      obtain ⟨key, _, h⟩ := h.of_bind
      obtain ⟨table, _, h⟩ := h.of_bind
      obtain ⟨⟨walked, beats⟩, hwalked, h⟩ := h.of_bind
      obtain ⟨notes, hnotes, h⟩ := h.of_bind
      cases h.of_pure
      exact .inr ⟨hsome, key, table, walked, yields_onStream hwalked, hnotes.of_lift⟩

end Partitura.Phrase

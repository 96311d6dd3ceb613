import Partitura.Performance.Playing
import Partitura.Proofs.Computation

/-!
# What a performance leaves of notes

A performance leaves notes out, moves those that sound and changes how loud and how long they are. It
never adds a note, changes a pitch or changes the order in which notes are given, whatever is drawn
(`Performance.play_yields`).
-/

namespace Partitura

variable {α : Type} [Scalar α]

/-- A note as an instrument plays it. It does not begin before the section does. -/
structure Performs (instrument : String) (n : Note α) (played : PlayedNote α) : Prop where
  instrument : played.instrument = instrument
  pitch : played.pitch = n.pitch
  timing : played.timing = n.timing
  glide : played.glide = n.glide
  begins : ∃ beat, played.beat = Scalar.max 0.0 beat

/-- What the members of a list come to, if they come to anything, comes from a part of the list that has
all the members that are sure to. -/
theorem exists_kept_of_filterMap {β γ : Type} {S : β → γ → Prop} {sure : β → Bool} {xs : List β}
    {os : List (Option γ)}
    (h : List.Forall₂ (fun x o => (∀ y ∈ o, S x y) ∧ (sure x = true → o.isSome = true)) xs os) :
    ∃ kept, (xs.filter sure).Sublist kept ∧ kept.Sublist xs ∧
      List.Forall₂ S kept (os.filterMap id) := by
  induction h with
  | nil => exact ⟨[], .slnil, .slnil, .nil⟩
  | @cons x o xs os hx _ ih =>
      obtain ⟨kept, hsure, hkept, hS⟩ := ih
      obtain ⟨hplays, hsome⟩ := hx
      cases o with
      | some y =>
          refine ⟨x :: kept, ?_, hkept.cons_cons x, .cons (hplays y rfl) hS⟩
          by_cases hx : sure x = true
          · rw [List.filter_cons_of_pos hx]
            exact hsure.cons_cons x
          · rw [List.filter_cons_of_neg hx]
            exact hsure.cons x
      | none =>
          have hx : ¬ sure x = true := fun hx => Bool.false_ne_true (hsome hx)
          rw [List.filter_cons_of_neg hx]
          exact ⟨kept, hsure, hkept.cons x, hS⟩

/-- What some members of a list come to, in order, comes from a part of the list. -/
theorem exists_sublist_of_filterMap {β γ : Type} {R : β → Option γ → Prop} {S : β → γ → Prop}
    (hsome : ∀ {x y}, R x (some y) → S x y) {xs : List β} {ys : List (Option γ)}
    (h : List.Forall₂ R xs ys) :
    ∃ kept, kept.Sublist xs ∧ List.Forall₂ S kept (ys.filterMap id) := by
  -- No member is sure to come to anything.
  have hnone : List.Forall₂ (fun x o => (∀ y ∈ o, S x y) ∧ (false = true → o.isSome = true)) xs ys := by
    refine h.imp fun x o hxo => ⟨?_, nofun⟩
    rintro y rfl
    exact hsome hxo
  obtain ⟨kept, _, hkept, hS⟩ := exists_kept_of_filterMap hnone
  exact ⟨kept, hkept, hS⟩

namespace Performance

variable {p : Performance α} {instrument : String} {swing sectionBeats : α}

theorem playNote_yields {groove : Option (Groove α)} {n : Note α} {played : PlayedNote α}
    (h : (p.playNote groove instrument swing n).Yields played) : Performs instrument n played := by
  unfold playNote at h
  obtain ⟨swung, _, h⟩ := h.of_bind
  obtain ⟨⟨beat, velocity⟩, _, h⟩ := h.of_bind
  obtain ⟨⟨beat', velocity', duration⟩, _, h⟩ := h.of_bind
  obtain ⟨velocity'', _, h⟩ := h.of_bind
  rw [← h.of_pure]
  exact ⟨rfl, rfl, rfl, rfl, beat', rfl⟩

theorem playNote?_yields {groove : Option (Groove α)} {density : Option (DensityCurve α)}
    {n : Note α} {played : PlayedNote α}
    (h : (p.playNote? groove instrument sectionBeats swing density n).Yields (some played)) :
    Performs instrument n played := by
  unfold playNote? at h
  obtain ⟨heard, _, h⟩ := h.of_bind
  cases heard with
  | false => cases h.of_pure
  | true =>
      obtain ⟨played', h, heq⟩ := h.of_map
      cases heq
      exact playNote_yields h

/-- **What is played are some of the notes, each performed, in the order given.** -/
theorem play_yields {density : Option (DensityCurve α)} {notes : List (Note α)}
    {played : List (PlayedNote α)}
    (h : (p.play instrument sectionBeats swing density notes).Yields played) :
    ∃ kept, kept.Sublist notes ∧ List.Forall₂ (Performs instrument) kept played := by
  unfold play at h
  obtain ⟨groove, _, h⟩ := h.of_bind
  obtain ⟨sounding, hsounding, h⟩ := h.of_bind
  cases h.of_pure
  obtain ⟨kept, hsub, hkept⟩ :=
    exists_sublist_of_filterMap playNote?_yields hsounding.of_draw.of_mapM
  exact ⟨kept, hsub.trans List.filter_sublist, hkept⟩

end Performance

end Partitura

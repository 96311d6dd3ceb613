import Mathlib.Data.List.Basic
import Partitura.Arpeggio.Order
import Partitura.Number.Exact
import Partitura.Proofs.Random.Choices

/-!
# Where an arpeggio turns

A mode that knows no chance goes round and round. What it plays at a place of its round has a closed form
(`Mode.toneAt`), and one round is that form at all its places (`round_eq`). From the form one reads that
the tones are those of the chord, and, for the modes that turn, that neighbours in the round lie next to
each other; the last place of the round and the first are neighbours as well (`toneAt_next`).

An order of any length takes the form at the places modulo the round, so the same holds along the whole of
it (`indices_turn`). A random order draws as many tones as it is asked for.
-/

namespace Partitura.Arpeggio

/-! ## §1  One round -/

theorem length_ascending (count : Nat) : (ascending count).length = count := by
  simp [ascending]

/-- How many places a round has. -/
def Mode.places (count : Nat) : Mode → Nat
  | up | down | random => count
  | upDown | downUp => count + (count - 2)

/-- The tone at a place of the round. -/
def Mode.toneAt (count place : Nat) : Mode → Int
  | up | random => place + 1
  | down => count - place
  | upDown => if place < count then place + 1 else 2 * count - 1 - place
  | downUp => if place < count then count - place else place + 2 - count

theorem reverse_ascending (count : Nat) :
    (ascending count).reverse = (List.range count).map fun (i : Nat) => (count : Int) - i := by
  apply List.ext_getElem
  · simp [ascending]
  · intro i hi hi'
    simp only [ascending, List.getElem_reverse, List.getElem_map, List.getElem_range,
      List.length_map, List.length_range, List.length_reverse] at hi ⊢
    omega

/-- The tones between the lowest and the highest. -/
theorem inner_ascending (count : Nat) :
    inner (ascending count) = (List.range (count - 2)).map fun (i : Nat) => (i : Int) + 2 := by
  apply List.ext_getElem
  · simp [inner, ascending]
    omega
  · intro i hi hi'
    simp only [inner, ascending, List.getElem_dropLast, List.getElem_tail, List.getElem_map,
      List.getElem_range]
    omega

theorem reverse_inner (count : Nat) : (inner (ascending count)).reverse =
    (List.range (count - 2)).map fun (i : Nat) => (count : Int) - 1 - i := by
  apply List.ext_getElem
  · simp [inner_ascending]
  · intro i hi hi'
    simp only [inner_ascending, List.getElem_reverse, List.getElem_map, List.getElem_range,
      List.length_map, List.length_range, List.length_reverse] at hi ⊢
    omega

/-- A round is made of its two halves. -/
theorem round_eq (count : Nat) (m : Mode) :
    m.round (ascending count) = (List.range (m.places count)).map fun p => m.toneAt count p := by
  cases m with
  | up | random => rfl
  | down => exact reverse_ascending count
  | upDown =>
      simp only [Mode.round, Mode.places, List.range_add, List.map_append, List.map_map]
      congr 1
      · refine List.map_congr_left fun p hp => ?_
        simp only [Mode.toneAt, if_pos (List.mem_range.1 hp)]
      · rw [reverse_inner]
        refine List.map_congr_left fun p _ => ?_
        simp only [Function.comp_apply, Mode.toneAt, if_neg (Nat.not_lt.2 (Nat.le_add_right count p))]
        omega
  | downUp =>
      simp only [Mode.round, Mode.places, List.range_add, List.map_append, List.map_map]
      congr 1
      · rw [reverse_ascending]
        refine List.map_congr_left fun p hp => ?_
        simp only [Mode.toneAt, if_pos (List.mem_range.1 hp)]
      · rw [inner_ascending]
        refine List.map_congr_left fun p _ => ?_
        simp only [Function.comp_apply, Mode.toneAt, if_neg (Nat.not_lt.2 (Nat.le_add_right count p))]
        omega

theorem places_pos {count : Nat} (h : 1 ≤ count) (m : Mode) : 0 < m.places count := by
  cases m <;> simp only [Mode.places] <;> omega

/-- Every tone of a round is one of the chord. -/
theorem toneAt_bounds {count : Nat} (h : 1 ≤ count) (m : Mode) {p : Nat} (hp : p < m.places count) :
    1 ≤ m.toneAt count p ∧ m.toneAt count p ≤ count := by
  cases m <;> simp only [Mode.places, Mode.toneAt] at hp ⊢
  case upDown | downUp => split <;> omega
  all_goals omega

/-- A mode that turns at both ends of the chord. -/
def Mode.Turns (m : Mode) : Prop :=
  m = upDown ∨ m = downUp

theorem Mode.Turns.ne_random {m : Mode} (h : m.Turns) : m ≠ .random := by
  rintro rfl
  rcases h with h | h
  · cases h
  · cases h

/-- One tone lies next to the other in the chord. -/
def Adjacent (x y : Int) : Prop :=
  (y - x).natAbs = 1

/-- The tones of neighbouring places are adjacent, those of the last place and the first as well. -/
theorem toneAt_next {count : Nat} (h : 2 ≤ count) {m : Mode} (hm : m.Turns) {p : Nat}
    (hp : p < m.places count) :
    Adjacent (m.toneAt count p) (m.toneAt count ((p + 1) % m.places count)) := by
  unfold Adjacent
  by_cases hlast : p + 1 = m.places count
  · rw [hlast, Nat.mod_self]
    rcases hm with rfl | rfl
    all_goals
      simp only [Mode.places, Mode.toneAt] at hlast ⊢
      split_ifs <;> omega
  · rw [Nat.mod_eq_of_lt (by omega)]
    rcases hm with rfl | rfl
    all_goals
      simp only [Mode.places, Mode.toneAt] at hp hlast ⊢
      split_ifs <;> omega

/-! ## §2  Round and round -/

/-- The tones of so many steps, the round being begun again whenever it is through. -/
def Mode.along (count steps : Nat) (m : Mode) : List Int :=
  (List.range steps).map fun k => m.toneAt count (k % m.places count)

theorem cycle_round {count : Nat} (h : 1 ≤ count) (m : Mode) (steps : Nat) :
    cycle (m.round (ascending count)) steps = .ok (m.along count steps) := by
  unfold cycle Mode.along
  refine Outcome.mapM_eq_map fun k _ => ?_
  rw [round_eq, List.length_map, List.length_range, List.getElem?_map,
    List.getElem?_range (Nat.mod_lt k (places_pos h m))]
  rfl

/-- A round is what is played in as many steps as it has places. -/
theorem round_eq_along (count : Nat) (m : Mode) :
    m.round (ascending count) = m.along count (m.places count) := by
  rw [round_eq]
  refine List.map_congr_left fun p hp => ?_
  rw [Nat.mod_eq_of_lt (List.mem_range.1 hp)]

/-- After a round comes its first tone. -/
theorem along_next {count : Nat} (h : 1 ≤ count) (m : Mode) :
    m.along count (m.places count) ++ (m.along count (m.places count)).take 1 =
      m.along count (m.places count + 1) := by
  unfold Mode.along
  rw [← List.map_take, List.take_range, Nat.min_eq_left (places_pos h m),
    List.range_succ (n := m.places count), List.map_append]
  simp

theorem length_along (count steps : Nat) (m : Mode) : (m.along count steps).length = steps := by
  simp [Mode.along]

theorem along_bounds {count : Nat} (h : 1 ≤ count) {m : Mode} {steps : Nat} :
    ∀ i ∈ m.along count steps, 1 ≤ i ∧ i ≤ count := by
  intro i hi
  obtain ⟨k, -, rfl⟩ := List.mem_map.1 hi
  exact toneAt_bounds h m (Nat.mod_lt k (places_pos h m))

theorem getElem?_along {count steps k : Nat} {m : Mode} {x : Int}
    (h : (m.along count steps)[k]? = some x) : x = m.toneAt count (k % m.places count) := by
  obtain ⟨hk, rfl⟩ := List.getElem?_eq_some_iff.1 h
  simp [Mode.along]

/-- Along a mode that turns, each tone is adjacent to the one before it. -/
theorem isChain_along {count : Nat} (h : 2 ≤ count) {m : Mode} (hm : m.Turns) (steps : Nat) :
    (m.along count steps).IsChain Adjacent := by
  rw [List.isChain_iff_getElem]
  intro k hk
  have hstep := toneAt_next h hm (Nat.mod_lt k (places_pos (Nat.le_of_succ_le h) m))
  rw [Nat.mod_add_mod] at hstep
  simpa [Mode.along] using hstep

/-! ## §3  Orders -/

theorem filter_steps {steps : Int} (h : 1 ≤ steps) :
    (some steps).filter (· ≠ 0) = some steps :=
  Option.filter_some_pos (by simp; omega)

/-- A random order has as many tones as are asked for, whatever the stream. -/
theorem order_random {count : Nat} (h : 1 ≤ count) {steps : Int} (hsteps : 1 ≤ steps) (t : Twister) :
    ∃ tones t', (Mode.random.order count (some steps)).outcome t = .ok (tones, t') ∧
      tones.length = steps ∧ ∀ i ∈ tones, 1 ≤ i ∧ i ≤ count := by
  have hsome : ascending count ≠ [] := fun hnil => by
    have hlength := length_ascending count
    rw [hnil, List.length_nil] at hlength
    omega
  have horder : Mode.random.order count (some steps) =
      (List.range steps.toNat).mapM fun _ => Draw.choice (ascending count) := by
    unfold Mode.order
    rw [filter_steps hsteps]
    rfl
  have htotal : Draw.StopsWith (fun _ => False) (Mode.random.order count (some steps)) := by
    rw [horder]
    exact .mapM fun _ _ => Draw.stops_choice hsome
  cases houtcome : (Mode.random.order count (some steps)).outcome t with
  | error why => exact (htotal t why houtcome).elim
  | ok drawn =>
      obtain ⟨tones, t'⟩ := drawn
      have hyields : (Mode.random.order count (some steps)).Yields tones := ⟨t, t', houtcome⟩
      rw [horder] at hyields
      have hdrawn := hyields.of_mapM
      refine ⟨tones, t', rfl, ?_, ?_⟩
      · have hlength := hdrawn.length_eq
        rw [List.length_range] at hlength
        omega
      · intro i hi
        obtain ⟨_, -, hchoice⟩ := exists_of_mem_right hdrawn hi
        obtain ⟨p, hp, rfl⟩ := List.mem_map.1 hchoice.mem_of_choice
        have hlt := List.mem_range.1 hp
        omega

/-- An order that knows no chance leaves the stream as it is. -/
theorem order_along {count : Nat} (h : 1 ≤ count) {m : Mode} (hm : m ≠ .random) {steps : Int}
    (hsteps : 1 ≤ steps) (t : Twister) :
    (m.order count (some steps)).outcome t = .ok (m.along count steps.toNat, t) := by
  unfold Mode.order
  rw [filter_steps hsteps]
  cases m with
  | random => exact absurd rfl hm
  | up | down | upDown | downUp =>
      dsimp only
      rw [cycle_round h, Draw.outcome_lift]
      rfl

theorem order_round {count : Nat} {m : Mode} (hm : m ≠ .random) (t : Twister) :
    (m.order count none).outcome t = .ok (m.along count (m.places count), t) := by
  rw [← round_eq_along]
  cases m with
  | random => exact absurd rfl hm
  | up | down | upDown | downUp => rfl

/-! ## §4  Arpeggios over octaves -/

section

variable {α : Type} [Scalar α] {toneCount octaves : Int}

theorem indices_eq (hoctaves : 1 ≤ octaves) (m : Mode) (steps : Option Int) :
    indices toneCount (.text m.name : Value α) octaves steps =
      m.order (toneCount * octaves).toNat steps := by
  have hname : Mode.ofValue? (.text m.name : Value α) = some m := by cases m <;> rfl
  unfold indices
  rw [if_neg (not_lt.2 hoctaves), hname]

/-- **An arpeggio goes as many steps as it is told to, among the tones of its chord.** Up and down it goes
through them in turn, again and again. Up and down again, or down and up again, each step leads to the
tone above or below, also from one round to the next: so no tone at which it turns is played twice. One
such round over `n` tones, two at least, has `2 * n - 2` of them. -/
theorem indices_turn (α : Type) [Scalar α] (hoctaves : 1 ≤ octaves)
    (htones : 1 ≤ toneCount * octaves) (m : Mode) (t : Twister) :
    (∀ steps : Int, 1 ≤ steps → ∃ order t',
      (indices toneCount (.text m.name : Value α) octaves (some steps)).outcome t =
        .ok (order, t') ∧
      order.length = steps ∧ (∀ i ∈ order, 1 ≤ i ∧ i ≤ toneCount * octaves) ∧
      (m = .up → ∀ (k : Nat) (x : Int), order[k]? = some x → x = k % (toneCount * octaves) + 1) ∧
      (m = .down → ∀ (k : Nat) (x : Int), order[k]? = some x →
        x = toneCount * octaves - k % (toneCount * octaves)) ∧
      (m.Turns → 2 ≤ toneCount * octaves → order.IsChain Adjacent)) ∧
    (m.Turns → 2 ≤ toneCount * octaves → ∃ round,
      (indices toneCount (.text m.name : Value α) octaves none).outcome t = .ok (round, t) ∧
      round.length = 2 * (toneCount * octaves) - 2 ∧
      (round ++ round.take 1).IsChain Adjacent) := by
  obtain ⟨count, hcount⟩ := Int.eq_ofNat_of_zero_le (Int.le_of_lt htones)
  rw [hcount] at htones ⊢
  simp only [indices_eq hoctaves, hcount, Int.toNat_natCast]
  have hpos : 1 ≤ count := by omega
  constructor
  · intro steps hsteps
    by_cases hm : m = .random
    · subst hm
      obtain ⟨order, t', horder, hlength, hbounds⟩ := order_random hpos hsteps t
      exact ⟨order, t', horder, hlength, hbounds, nofun, nofun, fun hturns =>
        absurd rfl hturns.ne_random⟩
    · refine ⟨m.along count steps.toNat, t, order_along hpos hm hsteps t, ?_, along_bounds hpos,
        ?_, ?_, ?_⟩
      · rw [length_along]
        omega
      · rintro rfl k x hx
        rw [getElem?_along hx]
        simp [Mode.toneAt, Mode.places]
      · rintro rfl k x hx
        rw [getElem?_along hx]
        simp [Mode.toneAt, Mode.places]
      · intro hturns htwo
        exact isChain_along (by omega) hturns _
  · intro hturns htwo
    refine ⟨m.along count (m.places count), order_round hturns.ne_random t, ?_, ?_⟩
    · rw [length_along]
      rcases hturns with rfl | rfl <;> simp only [Mode.places] <;> omega
    · rw [along_next hpos]
      exact isChain_along (by omega) hturns _

end

/-- The theorem at work on a triad over two octaves: in twelve steps one round is gone through, and the
next one begins. -/
theorem triad_turns : ∃ _ : Elementary, (1 : Int) ≤ 2 ∧ (1 : Int) ≤ 3 * 2 ∧ (1 : Int) ≤ 12 ∧
    Mode.upDown.Turns ∧ (2 : Int) ≤ 3 * 2 ∧
    (∃ order t', (indices 3 (.text "updown" : Value Rat) 2 (some 12)).outcome ⟨#[], 0⟩ =
        .ok (order, t') ∧
      order = [1, 2, 3, 4, 5, 6, 5, 4, 3, 2, 1, 2] ∧ order.IsChain Adjacent) ∧
    ∃ round, (indices 3 (.text "updown" : Value Rat) 2 none).outcome ⟨#[], 0⟩ =
        .ok (round, ⟨#[], 0⟩) ∧
      round.length = (10 : Int) := by
  let _ := Elementary.coarse
  have hoctaves : (1 : Int) ≤ 2 := by decide
  have htones : (1 : Int) ≤ 3 * 2 := by decide
  have hsteps : (1 : Int) ≤ 12 := by decide
  have hturns : Mode.upDown.Turns := .inl rfl
  have htwo : (2 : Int) ≤ 3 * 2 := by decide
  obtain ⟨hany, hround⟩ := indices_turn Rat hoctaves htones .upDown ⟨#[], 0⟩
  obtain ⟨order, t', horder, -, -, -, -, hchain⟩ := hany 12 hsteps
  obtain ⟨round, hfirst, hlength, -⟩ := hround hturns htwo
  have hplayed : (indices 3 (.text "updown" : Value Rat) 2 (some 12)).outcome ⟨#[], 0⟩ =
      .ok ([1, 2, 3, 4, 5, 6, 5, 4, 3, 2, 1, 2], ⟨#[], 0⟩) := rfl
  have hsame := congrArg Prod.fst (Except.ok.inj (horder.symm.trans hplayed))
  exact ⟨inferInstance, hoctaves, htones, hsteps, hturns, htwo,
    ⟨order, t', horder, hsame, hchain hturns htwo⟩, round, hfirst, hlength⟩

end Partitura.Arpeggio

import Mathlib.Data.List.Count
import Mathlib.Data.List.Sort
import Mathlib.Data.Prod.Lex
import Partitura.Midi.Message
import Partitura.Number.Exact
import Partitura.Timeline.Basic

/-!
# Stable sorting

Timelines and MIDI tracks are sorted by a key, and what agrees in the key stays in the order given.
`StablySorted` says so without naming an algorithm: it leaves one list only. Both sorts of the library
are of this kind (`stablySorted_sortByBeat`, `stablySorted_mergeSort_before`).

Where the first member of a sorted list wins, that is the first one given among those of the least key
(`StablySorted.exists_of_head?`). Where the last member wins, that is the last one given among those of
the greatest key (`StablySorted.getLast?_eq`); of two lists in ascending order, the last member of one
of them (`StablySorted.getLast?_append`). Whether all members of a sorted list stand in some relation can be
asked of the list that was given (`StablySorted.pairwise_iff`). A part that has been sorted may be sorted
again with the rest (`StablySorted.resort`, `StablySorted.unique`).

Scalars need not have an order. Where the beats of some events can be put in one (`Orderable`), the beat of
an event can be told by its place among them, so that sorting by beat is stable all the same
(`Orderable.sortedByBeat`), and again a part may be sorted first (`Orderable.sortByBeat_append`).
-/

namespace Partitura

variable {β κ : Type} [LinearOrder κ]

/-- `sorted` holds the members of `given` in ascending order of their keys, those of one key in the
order given. -/
structure StablySorted (key : β → κ) (given sorted : List β) : Prop where
  perm : sorted.Perm given
  ascending : sorted.Pairwise fun a b => key a ≤ key b
  ties : ∀ k, sorted.filter (key · = k) = given.filter (key · = k)

/-! ## Merge sort -/

/-- Members that may all stand before each other keep their order. -/
theorem filter_mergeSort {le : β → β → Bool} (trans : ∀ a b c, le a b → le b c → le a c)
    (total : ∀ a b, (le a b || le b a) = true) {p : β → Bool} {xs : List β}
    (h : ∀ a ∈ xs, ∀ b ∈ xs, p a → p b → le a b) :
    (xs.mergeSort le).filter p = xs.filter p := by
  have alike : (xs.filter p).Pairwise fun a b => le a b :=
    List.pairwise_of_forall_mem_list fun a ha b hb =>
      h a (List.mem_of_mem_filter ha) b (List.mem_of_mem_filter hb)
        (List.of_mem_filter ha) (List.of_mem_filter hb)
  have hsub : (xs.filter p).Sublist (xs.mergeSort le) :=
    List.sublist_mergeSort trans total alike List.filter_sublist
  have hfilter : (xs.filter p).Sublist ((xs.mergeSort le).filter p) := by
    simpa using hsub.filter p
  -- A sublist as long as the list is the list.
  have hlength : ((xs.mergeSort le).filter p).length = (xs.filter p).length :=
    ((List.mergeSort_perm xs le).filter p).length_eq
  exact (hfilter.eq_of_length hlength.symm).symm

theorem stablySorted_mergeSort {key : β → κ} {le : β → β → Bool}
    (hle : ∀ a b, le a b = true ↔ key a ≤ key b) (xs : List β) :
    StablySorted key xs (xs.mergeSort le) := by
  have trans : ∀ a b c, le a b → le b c → le a c := by
    intro a b c hab hbc
    rw [hle] at hab hbc ⊢
    exact le_trans hab hbc
  have total : ∀ a b, (le a b || le b a) = true := by
    intro a b
    rw [Bool.or_eq_true, hle, hle]
    exact le_total (key a) (key b)
  refine ⟨List.mergeSort_perm xs le, ?_, fun k => ?_⟩
  · exact (List.pairwise_mergeSort trans total xs).imp fun hab => (hle _ _).1 hab
  · refine filter_mergeSort trans total fun a _ b _ ha hb => ?_
    rw [hle, of_decide_eq_true ha, of_decide_eq_true hb]

/-! ## Consequences -/

/-- The last member of a kind is still the last if fewer are asked for, as long as it is. -/
theorem getLast?_filter_of_getLast? {p : β → Bool} {xs : List β} {x : β}
    (h : xs.getLast? = some x) (hp : p x = true) : (xs.filter p).getLast? = some x := by
  obtain ⟨front, rfl⟩ := List.getLast?_eq_some_iff.1 h
  rw [List.filter_append, List.filter_cons_of_pos hp, List.filter_nil]
  simp

/-- The last of members in ascending order is the greatest. -/
theorem le_of_getLast? {key : β → κ} {xs : List β} {x : β}
    (hascending : xs.Pairwise fun a b => key a ≤ key b) (h : xs.getLast? = some x) :
    ∀ y ∈ xs, key y ≤ key x := by
  obtain ⟨front, rfl⟩ := List.getLast?_eq_some_iff.1 h
  intro y hy
  rcases List.mem_append.1 hy with hfront | hsingle
  · exact (List.pairwise_append.1 hascending).2.2 y hfront x List.mem_cons_self
  · rw [List.mem_singleton.1 hsingle]

/-- Of two members of a list one stands before the other. -/
theorem sublist_pair_or {xs : List β} {a b : β} (ha : a ∈ xs) (hb : b ∈ xs) (hne : a ≠ b) :
    [a, b].Sublist xs ∨ [b, a].Sublist xs := by
  induction xs with
  | nil => cases ha
  | cons x xs ih =>
      rcases List.mem_cons.1 ha with rfl | hlater
      · have hb' : b ∈ xs := List.mem_of_ne_of_mem hne.symm hb
        exact .inl ((List.singleton_sublist.2 hb').cons_cons a)
      · rcases List.mem_cons.1 hb with rfl | hlater'
        · exact .inr ((List.singleton_sublist.2 hlater).cons_cons b)
        · exact (ih hlater hlater').imp (·.cons x) (·.cons x)

/-- Two ascending lists that have the same members of each key, in the same order, are the same. By
induction on both: the first members have the least key, so they are the first ones of that key. -/
theorem eq_of_ties {key : β → κ} {xs ys : List β} (hxs : xs.Pairwise fun a b => key a ≤ key b)
    (hys : ys.Pairwise fun a b => key a ≤ key b)
    (hties : ∀ k, xs.filter (key · = k) = ys.filter (key · = k)) : xs = ys := by
  have mem_of_ties : ∀ {as bs : List β}, (∀ k, as.filter (key · = k) = bs.filter (key · = k)) →
      ∀ z ∈ as, z ∈ bs := by
    intro as bs h z hz
    have hfilter : z ∈ as.filter (key · = key z) := List.mem_filter.2 ⟨hz, by simp⟩
    rw [h] at hfilter
    exact List.mem_of_mem_filter hfilter
  induction xs generalizing ys with
  | nil =>
      cases ys with
      | nil => rfl
      | cons y ys =>
          have hnone := hties (key y)
          simp at hnone
  | cons x xs ih =>
      cases ys with
      | nil =>
          have hnone := hties (key x)
          simp at hnone
      | cons y ys =>
          have hx : x ∈ y :: ys := mem_of_ties hties x List.mem_cons_self
          have hy : y ∈ x :: xs := mem_of_ties (fun k => (hties k).symm) y List.mem_cons_self
          have hkey : key x = key y := by
            apply le_antisymm
            · rcases List.mem_cons.1 hy with rfl | hy
              · exact le_rfl
              · exact (List.pairwise_cons.1 hxs).1 y hy
            · rcases List.mem_cons.1 hx with rfl | hx
              · exact le_rfl
              · exact (List.pairwise_cons.1 hys).1 x hx
          have hhead := hties (key x)
          rw [List.filter_cons_of_pos (by simp), List.filter_cons_of_pos (by simp [hkey])] at hhead
          obtain ⟨rfl, hrest⟩ := List.cons.inj hhead
          congr 1
          refine ih (List.pairwise_cons.1 hxs).2 (List.pairwise_cons.1 hys).2 fun k => ?_
          by_cases hk : key x = k
          · subst hk
            exact hrest
          · simpa [List.filter_cons, hk] using hties k

namespace StablySorted

variable {key : β → κ} {given sorted : List β}

theorem unique (h : StablySorted key given sorted) {sorted' : List β}
    (h' : StablySorted key given sorted') : sorted = sorted' :=
  eq_of_ties h.ascending h'.ascending fun k => (h.ties k).trans (h'.ties k).symm

/-- What is sorted from a sorted part and the rest is sorted from the whole. -/
theorem resort {rest whole : List β} (h : StablySorted key given sorted)
    (h' : StablySorted key (sorted ++ rest) whole) : StablySorted key (given ++ rest) whole where
  perm := h'.perm.trans (h.perm.append_right rest)
  ascending := h'.ascending
  ties k := by rw [h'.ties, List.filter_append, List.filter_append, h.ties]

theorem mem_iff (h : StablySorted key given sorted) {x : β} : x ∈ sorted ↔ x ∈ given :=
  h.perm.mem_iff

/-- What is left of a sorted list is sorted from what is left of the given one. -/
theorem filter (h : StablySorted key given sorted) (p : β → Bool) :
    StablySorted key (given.filter p) (sorted.filter p) where
  perm := h.perm.filter p
  ascending := h.ascending.filter p
  ties k := by
    rw [List.filter_filter, List.filter_filter]
    have hswap (xs : List β) : xs.filter (fun a => decide (key a = k) && p a) =
        (xs.filter (key · = k)).filter p := by
      rw [List.filter_filter]
      exact List.filter_congr fun a _ => Bool.and_comm _ _
    rw [hswap, hswap, h.ties]

/-- The last member of a sorted list is the last one given among those of the greatest key. -/
theorem getLast?_eq (h : StablySorted key given sorted) {top : β} (hmem : top ∈ given)
    (hgreatest : ∀ x ∈ given, key x ≤ key top) :
    sorted.getLast? = (given.filter (key · = key top)).getLast? := by
  have htop : top ∈ sorted := h.mem_iff.2 hmem
  obtain ⟨last, hlast⟩ : ∃ last, sorted.getLast? = some last := by
    rw [List.getLast?_eq_some_getLast (List.ne_nil_of_mem htop)]
    exact ⟨_, rfl⟩
  have hkey : key last = key top := by
    refine le_antisymm (hgreatest last ?_) (le_of_getLast? h.ascending hlast top htop)
    exact h.mem_iff.1 (List.mem_of_getLast? hlast)
  rw [← h.ties, getLast?_filter_of_getLast? hlast (decide_eq_true hkey), hlast]

/-- What stands first in a sorted list is the first one given among those of the least key. -/
theorem exists_of_head? (h : StablySorted key given sorted) {least : β}
    (hleast : sorted.head? = some least) :
    ∃ before after, given = before ++ least :: after ∧ (∀ x ∈ before, key least < key x) ∧
      ∀ x ∈ after, key least ≤ key x := by
  obtain ⟨rest, rfl⟩ : ∃ rest, sorted = least :: rest := by
    cases sorted with
    | nil => cases hleast
    | cons x rest =>
        cases hleast
        exact ⟨rest, rfl⟩
  have hle : ∀ x ∈ given, key least ≤ key x := by
    intro x hx
    rcases List.mem_cons.1 (h.mem_iff.2 hx) with rfl | hrest
    · exact le_rfl
    · exact (List.pairwise_cons.1 h.ascending).1 x hrest
  have hties : given.filter (key · = key least) = least :: rest.filter (key · = key least) := by
    rw [← h.ties, List.filter_cons_of_pos (by simp)]
  obtain ⟨before, after, rfl, hbefore, _⟩ := List.filter_eq_cons_iff.1 hties
  refine ⟨before, after, rfl, ?_, ?_⟩
  · intro x hx
    have hne : key x ≠ key least := fun heq => hbefore x hx (decide_eq_true heq)
    exact lt_of_le_of_ne (hle x (List.mem_append_left _ hx)) hne.symm
  · intro x hx
    exact hle x (List.mem_append_right _ (List.mem_cons_of_mem least hx))

/-- The last one given stays the last if no other is greater. -/
theorem getLast?_of_greatest (h : StablySorted key given sorted) {x : β}
    (hlast : given.getLast? = some x) (hgreatest : ∀ y ∈ given, key y ≤ key x) :
    sorted.getLast? = some x := by
  rw [h.getLast?_eq (List.mem_of_getLast? hlast) hgreatest]
  exact getLast?_filter_of_getLast? hlast (decide_eq_true rfl)

/-- Of two ascending lists the one whose last member is greater has the last word, and the second
one if neither is. -/
theorem getLast?_append {xs ys : List β} {x y : β} (h : StablySorted key (xs ++ ys) sorted)
    (hxs : xs.Pairwise fun a b => key a ≤ key b) (hys : ys.Pairwise fun a b => key a ≤ key b)
    (hx : xs.getLast? = some x) (hy : ys.getLast? = some y) :
    sorted.getLast? = some (if key x ≤ key y then y else x) := by
  split
  · next hle =>
      refine h.getLast?_of_greatest (by rw [List.getLast?_append, hy]; rfl) fun z hz => ?_
      rcases List.mem_append.1 hz with hz | hz
      · exact (le_of_getLast? hxs hx z hz).trans hle
      · exact le_of_getLast? hys hy z hz
  · next hlt =>
      -- No member of the second list has the greatest key.
      have hless : ∀ z ∈ ys, key z < key x := fun z hz =>
        (le_of_getLast? hys hy z hz).trans_lt (not_le.1 hlt)
      have hnone : ys.filter (key · = key x) = [] :=
        List.filter_eq_nil_iff.2 fun z hz heq => ne_of_lt (hless z hz) (of_decide_eq_true heq)
      rw [h.getLast?_eq (List.mem_append_left ys (List.mem_of_getLast? hx)) fun z hz => ?_]
      · rw [List.filter_append, hnone, List.append_nil]
        exact getLast?_filter_of_getLast? hx (decide_eq_true rfl)
      · rcases List.mem_append.1 hz with hz | hz
        · exact le_of_getLast? hxs hx z hz
        · exact le_of_lt (hless z hz)

/-- What has the lesser key stands first. -/
theorem sublist_of_lt (h : StablySorted key given sorted) {a b : β} (ha : a ∈ given)
    (hb : b ∈ given) (hlt : key a < key b) : [a, b].Sublist sorted := by
  have hne : a ≠ b := fun heq => ne_of_lt hlt (congrArg key heq)
  rcases sublist_pair_or (h.mem_iff.2 ha) (h.mem_iff.2 hb) hne with hpair | hpair
  · exact hpair
  · have hle : key b ≤ key a := List.pairwise_iff_forall_sublist.1 h.ascending hpair
    exact absurd hlt (not_lt.2 hle)

/-- What has the same key stays in the order given. -/
theorem sublist_iff_of_eq (h : StablySorted key given sorted) {a b : β} (heq : key a = key b) :
    [a, b].Sublist sorted ↔ [a, b].Sublist given := by
  have hpair : [a, b].filter (key · = key b) = [a, b] := by
    simp [heq]
  constructor
  · intro hsorted
    have hsub := hsorted.filter (key · = key b)
    rw [hpair, h.ties] at hsub
    exact hsub.trans List.filter_sublist
  · intro hgiven
    have hsub := hgiven.filter (key · = key b)
    rw [hpair, ← h.ties] at hsub
    exact hsub.trans List.filter_sublist

/-- What holds along a sorted list, asked of the list that was given: of two members there, the later
one comes first if its key is less, and only then. -/
theorem pairwise_iff (h : StablySorted key given sorted) {T : β → β → Prop} :
    sorted.Pairwise T ↔
      given.Pairwise fun a b => (key a ≤ key b → T a b) ∧ (key b < key a → T b a) := by
  rw [List.pairwise_iff_forall_sublist, List.pairwise_iff_forall_sublist]
  constructor
  · intro hsorted a b hpair
    have ha : a ∈ given := hpair.subset List.mem_cons_self
    have hb : b ∈ given := hpair.subset (List.mem_cons_of_mem a List.mem_cons_self)
    refine ⟨fun hle => hsorted ?_, fun hlt => hsorted (h.sublist_of_lt hb ha hlt)⟩
    rcases eq_or_lt_of_le hle with heq | hlt
    · exact (h.sublist_iff_of_eq heq).2 hpair
    · exact h.sublist_of_lt ha hb hlt
  · intro hgiven a b hpair
    have hle : key a ≤ key b := List.pairwise_iff_forall_sublist.1 h.ascending hpair
    rcases eq_or_lt_of_le hle with heq | hlt
    · exact (hgiven ((h.sublist_iff_of_eq heq).1 hpair)).1 hle
    · have ha : a ∈ given := h.mem_iff.1 (hpair.subset List.mem_cons_self)
      have hb : b ∈ given :=
        h.mem_iff.1 (hpair.subset (List.mem_cons_of_mem a List.mem_cons_self))
      have hne : a ≠ b := fun heq => ne_of_lt hlt (congrArg key heq)
      rcases sublist_pair_or ha hb hne with hsame | hother
      · exact (hgiven hsame).1 hle
      · exact (hgiven hother).2 hlt

end StablySorted

/-! ## The sorts of the library -/

theorem stablySorted_sortByBeat [Elementary] (beat : β → Rat) (events : List β) :
    StablySorted beat events (sortByBeat beat events) := by
  refine stablySorted_mergeSort (fun a b => ?_) events
  rw [Bool.not_eq_true', decide_eq_false_iff_not]
  exact not_lt

/-- Events in the order of their beats stay as they are. -/
theorem sortByBeat_of_ascending [Elementary] {beat : β → Rat} {events : List β}
    (h : events.Pairwise fun a b => beat a ≤ beat b) : sortByBeat beat events = events := by
  refine List.mergeSort_of_pairwise (h.imp fun hab => ?_)
  rw [Bool.not_eq_true', decide_eq_false_iff_not]
  exact not_lt.2 hab

/-! ## Beats in any scalar -/

section Scalars

variable {α : Type} [Scalar α]

/-- Scalars that can be put in order: no two are less than each other, and what is not less than a
second one, which is not less than a third, is not less than that. -/
structure Orderable (beats : List α) : Prop where
  asymm : ∀ a ∈ beats, ∀ b ∈ beats, a < b → ¬ b < a
  trans : ∀ a ∈ beats, ∀ b ∈ beats, ∀ c ∈ beats, ¬ a < b → ¬ b < c → ¬ a < c

/-- Neither of two beats is less than the other. -/
def level (a b : α) : Bool :=
  !decide (a < b) && !decide (b < a)

/-- `sorted` holds the events of `given`, none before one of a lesser beat, and those of one beat in the
order given. -/
structure SortedByBeat (beat : β → α) (given sorted : List β) : Prop where
  perm : sorted.Perm given
  ascending : sorted.Pairwise fun a b => ¬ beat b < beat a
  ties : ∀ e ∈ given, (sorted.filter fun x => level (beat x) (beat e)) =
    given.filter fun x => level (beat x) (beat e)

/-- The place of a beat among others: how many of them are less. -/
def placeAmong (beats : List α) (x : α) : Nat :=
  beats.countP fun y => decide (y < x)

theorem orderable_rat [Elementary] (beats : List Rat) : Orderable beats where
  asymm _ _ _ _ h := lt_asymm h
  trans _ _ _ _ _ _ hab hbc := not_lt.2 ((not_lt.1 hbc).trans (not_lt.1 hab))

namespace Orderable

variable {beats : List α} {beat : β → α} {xs ys : List β}

theorem sublist {more : List α} (h : Orderable more) (hsub : beats.Sublist more) :
    Orderable beats where
  asymm a ha b hb := h.asymm a (hsub.subset ha) b (hsub.subset hb)
  trans a ha b hb c hc := h.trans a (hsub.subset ha) b (hsub.subset hb) c (hsub.subset hc)

/-- What is less than a beat is less than any that is not less itself. -/
theorem lt_of_lt (h : Orderable beats) {a b c : α} (ha : a ∈ beats) (hb : b ∈ beats)
    (hc : c ∈ beats) (hba : ¬ b < a) (hca : c < a) : c < b := by
  by_contra hcb
  exact h.trans c hc b hb a ha hcb hba hca

theorem placeAmong_le_iff (h : Orderable beats) {a b : α} (ha : a ∈ beats) (hb : b ∈ beats) :
    placeAmong beats a ≤ placeAmong beats b ↔ ¬ b < a := by
  constructor
  · intro hle hba
    -- The lesser beat is counted for the greater one, but not for itself.
    have hmem : b ∈ beats.filter fun y => decide (y < a) :=
      List.mem_filter.2 ⟨hb, decide_eq_true hba⟩
    have hself : decide (b < b) = false := decide_eq_false fun hbb => h.asymm b hb b hb hbb hbb
    have hsame : placeAmong beats b =
        (beats.filter fun y => decide (y < a)).countP fun y => decide (y < b) := by
      rw [List.countP_filter]
      refine List.countP_congr fun c hc => ?_
      have hboth : c < b → c < a := h.lt_of_lt hb ha hc (h.asymm b hb a ha hba)
      simpa using hboth
    have hlt : placeAmong beats b < placeAmong beats a := by
      rw [hsame, placeAmong, List.countP_eq_length_filter (l := beats)]
      exact List.countP_lt_length_iff.2 ⟨b, hmem, hself⟩
    exact absurd hlt (Nat.not_lt.2 hle)
  · intro hba
    exact List.countP_mono_left fun c hc hca =>
      decide_eq_true (h.lt_of_lt ha hb hc hba (of_decide_eq_true hca))

/-- Sorting by beat is sorting by place. -/
theorem stablySorted (h : Orderable beats) (hxs : ∀ e ∈ xs, beat e ∈ beats) :
    StablySorted (fun e => placeAmong beats (beat e)) xs (sortByBeat beat xs) := by
  have hsort : sortByBeat beat xs =
      xs.mergeSort fun a b => decide (placeAmong beats (beat a) ≤ placeAmong beats (beat b)) := by
    have hmap := List.map_mergeSort (f := id) (l := xs)
      (r := fun a b => !decide (beat b < beat a))
      (s := fun a b => decide (placeAmong beats (beat a) ≤ placeAmong beats (beat b)))
      fun a ha b hb => by
        simp only [id, h.placeAmong_le_iff (hxs a ha) (hxs b hb), decide_not]
    simpa [sortByBeat] using hmap
  rw [hsort]
  exact stablySorted_mergeSort (fun a b => decide_eq_true_iff) xs

theorem sortedByBeat (h : Orderable beats) (hxs : ∀ e ∈ xs, beat e ∈ beats) :
    SortedByBeat beat xs (sortByBeat beat xs) := by
  have hsorted := h.stablySorted hxs
  refine ⟨hsorted.perm, ?_, fun e he => ?_⟩
  · refine hsorted.ascending.imp_of_mem fun ha hb hle => ?_
    exact (h.placeAmong_le_iff (hxs _ (hsorted.mem_iff.1 ha)) (hxs _ (hsorted.mem_iff.1 hb))).1 hle
  · -- On one beat are the events of one place.
    have hplace : ∀ x ∈ xs, level (beat x) (beat e) =
        decide (placeAmong beats (beat x) = placeAmong beats (beat e)) := by
      intro x hx
      rw [Bool.eq_iff_iff, decide_eq_true_iff, Nat.le_antisymm_iff,
        h.placeAmong_le_iff (hxs x hx) (hxs e he), h.placeAmong_le_iff (hxs e he) (hxs x hx)]
      simp [level, and_comm]
    rw [List.filter_congr hplace,
      List.filter_congr fun x hx => hplace x (hsorted.mem_iff.1 hx)]
    exact hsorted.ties _

/-- What is sorted already may be sorted again together with more. -/
theorem sortByBeat_append (h : Orderable beats) (hxs : ∀ e ∈ xs, beat e ∈ beats)
    (hys : ∀ e ∈ ys, beat e ∈ beats) :
    sortByBeat beat (sortByBeat beat xs ++ ys) = sortByBeat beat (xs ++ ys) := by
  have hfirst := h.stablySorted hxs
  have hagain : ∀ e ∈ sortByBeat beat xs ++ ys, beat e ∈ beats := by
    intro e he
    rcases List.mem_append.1 he with he | he
    · exact hxs e (hfirst.mem_iff.1 he)
    · exact hys e he
  have hwhole : ∀ e ∈ xs ++ ys, beat e ∈ beats := by
    intro e he
    rcases List.mem_append.1 he with he | he
    · exact hxs e he
    · exact hys e he
  exact (hfirst.resort (h.stablySorted hagain)).unique (h.stablySorted hwhole)

theorem sortByBeat_sortByBeat (h : Orderable beats) (hxs : ∀ e ∈ xs, beat e ∈ beats) :
    sortByBeat beat (sortByBeat beat xs) = sortByBeat beat xs := by
  have happend := h.sortByBeat_append hxs (List.forall_mem_nil (beat · ∈ beats))
  simpa using happend

end Orderable

end Scalars

namespace Midi

/-- Events stand in the order of their ticks, and on one tick in that of their ranks. -/
theorem stablySorted_mergeSort_before (events : List Event) :
    StablySorted (fun e => toLex (e.tick, e.rank)) events (events.mergeSort Event.before) := by
  refine stablySorted_mergeSort (fun a b => ?_) events
  rw [Prod.Lex.toLex_le_toLex]
  simp [Event.before]

end Midi

end Partitura

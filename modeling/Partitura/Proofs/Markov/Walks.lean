import Mathlib.Data.List.Nodup
import Mathlib.Logic.Function.Iterate
import Partitura.Proofs.Markov.Tables
import Partitura.Proofs.Random.Parts

/-!
# Where a walk goes

A walk has as many states as it is asked for and begins where the chain stands. Each further state is
a target of the one before it, or the same again where a state has no row or an empty one. Only a state
with targets takes a number from the stream, and it takes one; so the number that decides a step is
found by counting such states on the way to it (`Table.Walks`). Without negative weights the step goes
where that number falls (`Chosen`), and then no target of weight zero is ever entered, unless the
weights of a row add up to less than one.

A single step is looked at first (`Table.outcome_step`), and then the whole walk by induction on its
length (`Chain.walk_led`).
-/

namespace Partitura

/-- A stream after so many numbers of the unit interval. -/
def Twister.after (t : Twister) (count : Nat) : Twister :=
  Twister.afterUnit^[count] t

theorem Twister.after_add (t : Twister) (m n : Nat) : t.after (m + n) = (t.after m).after n := by
  unfold after
  rw [Nat.add_comm, Function.iterate_add_apply]

namespace Markov

variable [Elementary] {table : Table Rat} {state next : String} {stream : Twister}

namespace Table

/-! ## §1  One step -/

/-- The row of a state, which is empty if there is none. -/
def row (t : Table Rat) (state : String) : Row Rat :=
  (t.lookup state).getD []

/-- How many numbers a walk draws on the way out of some states. -/
def draws (t : Table Rat) (states : List String) : Nat :=
  states.countP fun state => !(t.row state).isEmpty

/-- A step from a state to the next one. The number is the one that is drawn for the step, if one is
drawn. -/
structure Leads (t : Table Rat) (roll : Rat) (state next : String) : Prop where
  stays : t.row state = [] → next = state
  target : t.row state ≠ [] → next ∈ (t.row state).map Prod.fst
  chosen : t.row state ≠ [] → Nonnegative (t.row state) → Chosen (t.row state) roll next

omit [Elementary] in
theorem Numbered.row (h : table.Numbered) (state : String) : Partitura.Numbered (table.row state) := by
  unfold Table.row
  cases hrow : table.lookup state with
  | none => exact List.forall_mem_nil _
  | some r => exact h _ (mem_of_lookup hrow)

theorem step_eq (t : Table Rat) (state : String) :
    t.step state = if t.row state = [] then pure state else Draw.weighted (t.row state) := by
  unfold step row
  split
  · next hrow =>
      rw [hrow]
      rfl
  · next hrow =>
      have hempty : (t.lookup state).getD [] = [] := by
        cases hlookup : t.lookup state with
        | none => rfl
        | some r =>
            cases r with
            | nil => rfl
            | cons o os => exact absurd hlookup (hrow o os)
      rw [if_pos hempty]

/-- A step draws one number if the state has targets, and none otherwise. -/
theorem outcome_step (h : table.Numbered) (state : String) (stream : Twister) : ∃ next,
    (table.step state).outcome stream = .ok (next, stream.after (table.draws [state])) ∧
      table.Leads stream.unit state next := by
  rw [step_eq]
  unfold draws
  by_cases hrow : table.row state = []
  · refine ⟨state, ?_, fun _ => rfl, fun hsome => absurd hrow hsome, fun hsome => absurd hrow hsome⟩
    rw [if_pos hrow, List.countP_singleton, hrow]
    rfl
  · obtain ⟨next, hnext, htarget, hchosen⟩ := Draw.weighted_outcome hrow (h.row state) stream
    refine ⟨next, ?_, fun hnone => absurd hnone hrow, fun _ => htarget, fun _ => hchosen⟩
    rw [if_neg hrow, hnext, List.countP_singleton, if_pos (by simpa using hrow)]
    rfl

/-! ## §2  The whole walk -/

/-- Each state is led to from the one before it, on the number that the stream has come to by then. -/
def Walks (t : Table Rat) (stream : Twister) (states : List String) : Prop :=
  ∀ i state next, states[i]? = some state → states[i + 1]? = some next →
    t.Leads (stream.after (t.draws (states.take i))).unit state next

omit [Elementary] in
theorem draws_cons (t : Table Rat) (state : String) (states : List String) :
    t.draws (state :: states) = t.draws [state] + t.draws states := by
  unfold draws
  rw [← List.countP_append]
  rfl

theorem Walks.cons {rest : List String} (hstep : table.Leads stream.unit state next)
    (hrest : table.Walks (stream.after (table.draws [state])) (next :: rest)) :
    table.Walks stream (state :: next :: rest) := by
  intro i s s' hs hs'
  cases i with
  | zero =>
      cases hs
      cases hs'
      exact hstep
  | succ i =>
      rw [List.take_succ_cons, draws_cons, Twister.after_add]
      exact hrest i s s' hs hs'

/-- By induction on the steps that are left; each goes on from the stream that the one before it
leaves. -/
theorem outcome_steps (h : table.Numbered) (state : String) (stream : Twister) (count : Nat) :
    ∃ more, (table.steps state count).outcome stream =
        .ok (more, stream.after (table.draws (state :: more).dropLast)) ∧
      more.length = count ∧ table.Walks stream (state :: more) := by
  induction count generalizing state stream with
  | zero =>
      refine ⟨[], rfl, rfl, fun i s s' _ hs' => ?_⟩
      cases hs'
  | succ count ih =>
      obtain ⟨next, hnext, hleads⟩ := outcome_step h state stream
      obtain ⟨more, hmore, hlength, hwalks⟩ := ih next (stream.after (table.draws [state]))
      refine ⟨next :: more, ?_, congrArg Nat.succ hlength, hwalks.cons hleads⟩
      rw [List.dropLast_cons_cons, draws_cons, Twister.after_add]
      unfold steps
      rw [Draw.outcome_bind, hnext, Outcome.ok_bind, Draw.outcome_bind, hmore]
      rfl

theorem outcome_walk (h : table.Numbered) (state : String) (length : Int) (stream : Twister) :
    ∃ states, (table.walk state length).outcome stream =
        .ok (states, stream.after (table.draws states.dropLast)) ∧
      states.length = length.toNat ∧ (0 < length → states.head? = some state) ∧
      table.Walks stream states := by
  unfold walk
  split
  · next hnone =>
      exact ⟨[], rfl, (Int.toNat_of_nonpos hnone).symm, fun hsome => absurd hnone (not_le.2 hsome),
        fun _ _ _ hs => nomatch hs⟩
  · next hsome =>
      obtain ⟨more, hmore, hlength, hwalks⟩ := outcome_steps h state stream (length - 1).toNat
      refine ⟨state :: more, ?_, ?_, fun _ => rfl, hwalks⟩
      · rw [Draw.outcome_bind, hmore]
        rfl
      · rw [List.length_cons, hlength]
        omega

/-- What a number below 1 chooses has a weight if the weights add up to 1 or more. -/
theorem Leads.number_pos (hleads : table.Leads stream.unit state next)
    (hnonneg : Nonnegative (table.row state)) (htotal : 1 ≤ weightOf (table.row state))
    (hmapping : ((table.row state).map Prod.fst).Nodup) {w : Weight Rat}
    (hw : (next, w) ∈ table.row state) : 0 < w.number := by
  have hchosen := hleads.chosen (List.ne_nil_of_mem hw) hnonneg
  have hinside : stream.unit < weightOf (table.row state) := stream.unit_mem.2.trans_le htotal
  obtain ⟨w', hw', hpos⟩ := ((hchosen.part next).2 ⟨hinside, rfl⟩).mem
  obtain rfl : w' = w := congrArg Prod.snd (List.inj_on_of_nodup_map hmapping hw' hw rfl)
  exact hpos

end Table

/-- **A walk goes where its numbers lead it.** Over a table that is not empty it begins with the state
that it is given, or with the first one of the table, and has as many states as it is asked for. From
each state it goes on to a target, or stays if there is none; it takes one number from the stream for
each state with targets that it leaves, and no other. Without negative weights it goes to the target
whose part the number falls into, or to the first one if the number lies beyond all parts; so it never
enters a target of weight zero where the weights add up to 1 or more. -/
theorem Chain.walk_led (hsome : table ≠ []) (hnumbered : table.Numbered) (initial : Option String) :
    ∃ c, Chain.start table initial = .ok c ∧ c.table = table ∧
      c.state = initial.getD (table.head hsome).1 ∧
      ∀ (length : Int) (stream : Twister), ∃ states,
        (c.walk length).outcome stream =
          .ok ((states, { c with state := states.getLast?.getD c.state }),
            stream.after (table.draws states.dropLast)) ∧
        states.length = length.toNat ∧ (0 < length → states.head? = some c.state) ∧
        table.Walks stream states ∧
        ∀ i state next, states[i]? = some state → states[i + 1]? = some next →
          Nonnegative (table.row state) → 1 ≤ weightOf (table.row state) →
          ((table.row state).map Prod.fst).Nodup →
          ∀ w, (next, w) ∈ table.row state → w.number ≠ 0 := by
  obtain ⟨first, rest, rfl⟩ := List.exists_cons_of_ne_nil hsome
  refine ⟨⟨first :: rest, initial.getD first.1⟩, rfl, rfl, rfl, fun length stream => ?_⟩
  obtain ⟨states, hstates, hlength, hhead, hwalks⟩ :=
    Table.outcome_walk hnumbered (initial.getD first.1) length stream
  refine ⟨states, ?_, hlength, hhead, hwalks, fun i state next hs hs' hnonneg htotal hmapping w hw =>
    ((hwalks i state next hs hs').number_pos hnonneg htotal hmapping hw).ne'⟩
  unfold Chain.walk
  rw [Draw.outcome_bind, hstates]
  rfl

/-- From home a walk comes home again or goes out, where it stays; it never goes away. -/
def outing : Table Rat :=
  [("home", [("away", .whole 0), ("out", .real (1 / 2)), ("home", .real (1 / 2))]), ("out", [])]

omit [Elementary] in
theorem numbered_outing : outing.Numbered := by
  intro row hrow option hoption
  unfold outing at hrow
  simp only [List.mem_cons, List.not_mem_nil, or_false] at hrow
  rcases hrow with rfl | rfl
  · simp only [List.mem_cons, List.not_mem_nil, or_false] at hoption
    rcases hoption with rfl | rfl | rfl <;> nofun
  · cases hoption

omit [Elementary] in
theorem nonnegative_outing : Nonnegative (outing.row "home") := by
  intro option hoption
  simp only [outing, Table.row, List.lookup_cons_self, Option.getD_some, List.mem_cons,
    List.not_mem_nil, or_false] at hoption
  rcases hoption with rfl | rfl | rfl <;> norm_num [Weight.number]

omit [Elementary] in
/-- The theorem at work: the first number is above one half, the second one is 0, and there is no
third. -/
theorem outing_led : ∃ _ : Elementary, outing ≠ [] ∧ outing.Numbered ∧
    ∃ c states, Chain.start outing none = .ok c ∧
      (c.walk 5).outcome ⟨#[0x80000000], 0⟩ = .ok ((states, { c with state := "out" }),
        Twister.after ⟨#[0x80000000], 0⟩ 2) ∧
      states = ["home", "home", "out", "out", "out"] ∧ outing.Walks ⟨#[0x80000000], 0⟩ states ∧
      Nonnegative (outing.row "home") ∧
      Chosen (outing.row "home") (Twister.unit ⟨#[0x80000000], 0⟩) "home" := by
  let _ : Elementary := .coarse
  have hsome : outing ≠ [] := List.cons_ne_nil _ _
  obtain ⟨c, hc, _, _, hwalk⟩ := Chain.walk_led hsome numbered_outing none
  obtain ⟨states, hstates, _, _, hwalks, _⟩ := hwalk 5 ⟨#[0x80000000], 0⟩
  obtain rfl : (⟨outing, "home"⟩ : Chain Rat) = c := Except.ok.inj hc
  have hran : (((⟨outing, "home"⟩ : Chain Rat).walk 5).outcome ⟨#[0x80000000], 0⟩).map (·.1.1) =
      .ok ["home", "home", "out", "out", "out"] := by
    decide +kernel
  rw [hstates] at hran
  cases hran
  have hchosen := (hwalks 0 "home" "home" rfl rfl).chosen (List.cons_ne_nil _ _) nonnegative_outing
  exact ⟨.coarse, hsome, numbered_outing, _, _, rfl, hstates, rfl, hwalks, nonnegative_outing, hchosen⟩

end Markov

end Partitura

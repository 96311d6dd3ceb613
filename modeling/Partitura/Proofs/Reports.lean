import Partitura.Proofs.Computation
import Partitura.Score.Compilation

/-!
# What is reported

Every message that is added to the warnings is added somewhere, so what is true of all messages that
the parts of a run add is true of those that the run adds (`Run.Reports`).

A name that leads nowhere is reported in a text of its own kind (`NameUse.report`). From such a
text the kind and the name can be read back, and nearly all other messages begin with other words
(`clear`), so a report cannot be mistaken for anything else.
-/

namespace Partitura

variable {α : Type} [Scalar α] {β γ : Type} {P : String → Prop}

namespace Run

/-! ## §1  Putting runs together -/

/-- Every message that the run adds to the warnings has a property. -/
def Reports (P : String → Prop) (r : Run β) : Prop :=
  ∀ s x s', r s = .ok (x, s') → ∀ m ∈ s'.warnings, m ∈ s.warnings ∨ P m

namespace Reports

/-- A run that leaves the warnings alone. -/
theorem quiet {r : Run β} (h : ∀ s x s', r s = .ok (x, s') → s'.warnings = s.warnings) :
    Reports P r :=
  fun s x s' heq _ hm => .inl (h s x s' heq ▸ hm)

theorem pure (x : β) : Reports P (pure x : Run β) :=
  quiet fun s y s' h => by cases h; rfl

theorem throw (why : Fault) : Reports P (throw why : Run β) :=
  quiet fun s x s' h => by cases h

theorem lift (r : Outcome β) : Reports P (liftM r : Run β) := by
  refine quiet fun s x s' h => ?_
  rw [lift_apply] at h
  cases r with
  | error why => cases h
  | ok y => cases h; rfl

theorem ofDraw (d : Draw β) : Reports P (ofDraw d) := by
  refine quiet fun s x s' h => ?_
  rw [ofDraw_apply] at h
  cases hd : d.outcome s.stream with
  | error why => rw [hd] at h; cases h
  | ok p => rw [hd] at h; cases h; rfl

theorem mem_add {ws : Warnings} {message m : String} (h : m ∈ ws.add message) :
    m ∈ ws ∨ m = message := by
  unfold Warnings.add at h
  split at h
  · exact .inl h
  · exact (List.mem_append.1 h).imp_right List.mem_singleton.1

theorem mem_addAll {messages : List String} {ws : Warnings} {m : String}
    (h : m ∈ ws.addAll messages) : m ∈ ws ∨ m ∈ messages := by
  induction messages generalizing ws with
  | nil => exact .inl h
  | cons message messages ih =>
      rcases ih h with h | h
      · rcases mem_add h with h | rfl
        · exact .inl h
        · exact .inr List.mem_cons_self
      · exact .inr (List.mem_cons_of_mem _ h)

theorem warnAll {messages : List String} (h : ∀ m ∈ messages, P m) :
    Reports P (warnAll messages) := by
  intro s x s' heq m hm
  cases heq
  exact (mem_addAll hm).imp_right (h m)

theorem warn {message : String} (h : P message) : Reports P (warn message) := by
  intro s x s' heq m hm
  cases heq
  rcases mem_add hm with hm | rfl
  · exact .inl hm
  · exact .inr h

theorem bind {r : Run β} {f : β → Run γ} (hr : Reports P r)
    (hf : ∀ x, r.Yields x → Reports P (f x)) : Reports P (r >>= f) := by
  intro s y s' h m hm
  rw [bind_apply] at h
  obtain ⟨⟨x, s₁⟩, hx, hy⟩ := Outcome.bind_ok h
  rcases hf x ⟨s, s₁, hx⟩ s₁ y s' hy m hm with hm | hm
  · exact hr s x s₁ hx m hm
  · exact .inr hm

theorem map {r : Run β} {f : β → γ} (hr : Reports P r) : Reports P (f <$> r) := by
  rw [map_eq_pure_bind]
  exact hr.bind fun x _ => pure (f x)

theorem mapM {f : β → Run γ} {xs : List β} (hf : ∀ x ∈ xs, Reports P (f x)) :
    Reports P (xs.mapM f) :=
  mapM_closed (Reports P) pure (fun hr hf => hr.bind fun x _ => hf x) hf

end Reports

end Run

/-! ## §2  Reports of names -/

/-- What leads nowhere: an entry of the arrangement, a name on a track, or one of the names in a
pattern. -/
inductive NameUse where
  | entry | part | target | parent | source | motif
  deriving DecidableEq

namespace NameUse

def all : List NameUse :=
  [entry, part, target, parent, source, motif]

theorem mem_all (k : NameUse) : k ∈ all := by
  cases k <;> decide

/-- What a report says before the name. -/
def lead : NameUse → String
  | entry => "Section \""
  | part => "Pattern \""
  | target => "Conditional pattern target \""
  | parent => "Pattern inheritance: parent pattern \""
  | source => "Transform source pattern \""
  | motif => "Continuation source pattern \""

/-- What a report says after the name. -/
def tail : NameUse → String
  | entry => "\" in arrangement not found"
  | part | target | parent | source => "\" not found"
  | motif => "\" not found or has no notes"

/-- The report of a name that leads nowhere. -/
def report (k : NameUse) (name : String) : String :=
  k.lead ++ name ++ k.tail

end NameUse

/-- Two texts that differ in a letter. -/
def apart : List Char → List Char → Bool
  | x :: xs, y :: ys => x != y || apart xs ys
  | _, _ => false

theorem apart_append {xs ys : List Char} (h : apart xs ys = true) (xs' ys' : List Char) :
    apart (xs ++ xs') (ys ++ ys') = true := by
  induction xs generalizing ys with
  | nil => cases h
  | cons x xs ih =>
      cases ys with
      | nil => cases h
      | cons y ys =>
          rw [apart, Bool.or_eq_true] at h
          rw [List.cons_append, List.cons_append, apart, Bool.or_eq_true]
          exact h.imp_right ih

theorem ne_of_apart {xs ys : List Char} (h : apart xs ys = true) : xs ≠ ys := by
  rintro rfl
  induction xs with
  | nil => cases h
  | cons x xs ih =>
      rw [apart, bne_self_eq_false, Bool.false_or] at h
      exact ih h

/-- A message whose first words are those of no report. -/
def clear (message : String) : Bool :=
  NameUse.all.all fun k => apart message.toList k.lead.toList

theorem clear_append {message : String} (h : clear message = true) (rest : String) :
    clear (message ++ rest) = true := by
  refine List.all_eq_true.2 fun k hk => ?_
  rw [String.toList_append, ← List.append_nil k.lead.toList]
  exact apart_append (List.all_eq_true.1 h k hk) rest.toList []

namespace NameUse

theorem toList_report (k : NameUse) (name : String) :
    (k.report name).toList = k.lead.toList ++ (name.toList ++ k.tail.toList) := by
  unfold report
  rw [String.toList_append, String.toList_append, List.append_assoc]

theorem report_ne_of_clear {message : String} (h : clear message = true) (k : NameUse)
    (name : String) : k.report name ≠ message := by
  intro heq
  have hapart := apart_append (List.all_eq_true.1 h k k.mem_all) [] (name.toList ++ k.tail.toList)
  rw [List.append_nil, ← toList_report, heq] at hapart
  exact ne_of_apart hapart rfl

/-- All reports end in one of two letters. -/
theorem getLast?_report (k : NameUse) (name : String) :
    (k.report name).toList.getLast? = some 'd' ∨ (k.report name).toList.getLast? = some 's' := by
  have htail : k.tail.toList.getLast? = some 'd' ∨ k.tail.toList.getLast? = some 's' := by
    cases k <;> decide
  rw [toList_report, ← List.append_assoc, List.getLast?_append]
  rcases htail with htail | htail <;> simp [htail]

/-- A report is that of one name and of one kind. -/
theorem report_inj {k k' : NameUse} {name name' : String}
    (h : k.report name = k'.report name') : k = k' ∧ name = name' := by
  have hleads : ∀ k ∈ all, ∀ k' ∈ all, k = k' ∨ apart k.lead.toList k'.lead.toList = true := by
    decide
  have htoList := congrArg String.toList h
  rw [toList_report, toList_report] at htoList
  -- Reports of one kind can differ in the name alone, those of two kinds differ before it.
  rcases hleads k k.mem_all k' k'.mem_all with rfl | hapart
  · have hname := List.append_cancel_right (List.append_cancel_left htoList)
    exact ⟨rfl, String.toList_injective hname⟩
  · exact absurd htoList (ne_of_apart (apart_append hapart _ _))

end NameUse

/-! ## §3  Messages that are no reports -/

theorem clear_rejection (why : Rejection) : clear why.message = true := by
  unfold Rejection.message
  split
  · exact clear_append (clear_append (clear_append (clear_append (clear_append (clear_append
      (clear_append (by decide) _) _) _) _) _) _) _
  · exact clear_append (by decide) _
  · exact clear_append (by decide) _
  · exact clear_append (clear_append (clear_append (by decide) _) _) _
  · exact clear_append (by decide) _
  · decide
  · decide
  · decide
  · decide
  · decide
  · exact clear_append (by decide) _
  · exact clear_append (by decide) _
  · decide
  · decide
  · exact clear_append (clear_append (by decide) _) _
  · decide
  · exact clear_append (clear_append (clear_append (clear_append (by decide) _) _) _) _
  · decide
  · decide

theorem clear_densityWarnings (d : DensityCurve α) : ∀ m ∈ d.warnings, clear m = true := by
  have bound (which : String) (x : α) : ∀ m ∈ (if 0.0 ≤ x && x ≤ 1.0 then []
      else ["Density " ++ which ++ " value " ++ Scalar.shortest x ++ " should be between 0 and 1"]),
      clear m = true := by
    intro m hm
    split at hm
    · cases hm
    · cases List.mem_singleton.1 hm
      exact clear_append (clear_append (clear_append (clear_append (by decide) _) _) _) _
  intro m hm
  unfold DensityCurve.warnings at hm
  rcases List.mem_append.1 hm with hm | hm
  · exact (List.mem_append.1 hm).elim (bound _ _ m) (bound _ _ m)
  · split at hm
    · cases hm
    · cases List.mem_singleton.1 hm
      exact clear_append (clear_append (clear_append (by decide) _) _) _

theorem clear_automationWarnings (path : String) (a : Automation α) :
    ∀ m ∈ a.warnings path, clear m = true := by
  intro m hm
  unfold Automation.warnings at hm
  split at hm
  · cases List.mem_singleton.1 hm
    exact clear_append (by decide) _
  · rcases List.mem_append.1 hm with hm | hm
    · rcases List.mem_append.1 hm with hm | hm
      · split at hm
        · cases List.mem_singleton.1 hm
          exact clear_append (clear_append (clear_append (clear_append (by decide) _) _) _) _
        · cases hm
      · split at hm
        · cases List.mem_singleton.1 hm
          exact clear_append (clear_append (clear_append (by decide) _) _) _
        · cases hm
    · split at hm
      · cases List.mem_singleton.1 hm
        exact clear_append (clear_append (by decide) _) _
      · cases hm

namespace Markov

theorem clear_rowProblems {states problems : List String} {state : String} {r : Row α}
    (h : Row.problems states state r = .ok problems) : ∀ m ∈ problems, clear m = true := by
  obtain ⟨weight, _, h⟩ := Outcome.bind_ok h
  obtain ⟨total, _, h⟩ := Outcome.bind_ok h
  cases h
  intro m hm
  rcases List.mem_append.1 hm with hm | hm
  · split at hm
    · cases List.mem_singleton.1 hm
      exact clear_append (clear_append (clear_append (clear_append (by decide) _) _) _) _
    · cases hm
  · obtain ⟨stranger, _, rfl⟩ := List.mem_map.1 hm
    exact clear_append (clear_append (clear_append (by decide) _) _) _

omit [Scalar α] in
theorem clear_missingRows (states : List String) (table : Table α) :
    ∀ m ∈ Table.missingRows states table, clear m = true := by
  intro m hm
  obtain ⟨state, _, rfl⟩ := List.mem_map.1 hm
  exact clear_append (clear_append (by decide) _) _

end Markov

theorem clear_tableOf {states problems : List String} {v : Value α} {table : Markov.Table α}
    (h : Phrase.tableOf states v = .ok (table, problems)) : ∀ m ∈ problems, clear m = true := by
  unfold Phrase.tableOf at h
  split at h
  · next fields =>
      obtain ⟨rows, hrows, h⟩ := Outcome.bind_ok h
      cases h
      intro m hm
      rcases List.mem_append.1 hm with hm | hm
      · obtain ⟨problems, hproblems, hm⟩ := List.mem_flatten.1 hm
        obtain ⟨row, hrow, rfl⟩ := List.mem_map.1 hproblems
        obtain ⟨field, _, hfield⟩ := exists_of_mem_right (Outcome.mapM_ok hrows) hrow
        obtain ⟨weights, _, hfield⟩ := Outcome.bind_ok hfield
        obtain ⟨found, hfound, hfield⟩ := Outcome.bind_ok hfield
        cases hfield
        exact Markov.clear_rowProblems hfound m hm
      · exact Markov.clear_missingRows _ _ m hm
  · cases h

namespace Voicing

theorem clear_leadWarnings (progression : List String) (voices : Int) (style : String) :
    ∀ m ∈ leadWarnings progression voices style, clear m = true := by
  intro m hm
  unfold leadWarnings at hm
  rcases List.mem_append.1 hm with hm | hm
  · rcases List.mem_append.1 hm with hm | hm
    · split at hm
      · cases List.mem_singleton.1 hm
        decide
      · cases hm
    · split at hm
      · cases List.mem_singleton.1 hm
        exact clear_append (clear_append (by decide) _) _
      · cases hm
  · split at hm
    · cases List.mem_singleton.1 hm
      exact clear_append (clear_append (clear_append (by decide) _) _) _
    · cases hm

theorem clear_search (r : Rules) (index : Nat) (beam : List Path) (candidates : List (List Voicing)) :
    ∀ m ∈ (search r index beam candidates).2, clear m = true := by
  induction candidates generalizing index beam with
  | nil => exact nofun
  | cons options rest ih =>
      unfold search
      dsimp only
      split
      · refine List.forall_mem_cons.2 ⟨?_, ih _ _⟩
        exact clear_append (by decide) _
      · exact ih _ _

theorem clear_bestSequence {r : Rules} {candidates : List (List Voicing)}
    {sequence : List Voicing} {warnings : Warnings}
    (h : bestSequence r candidates = .ok (sequence, warnings)) :
    ∀ m ∈ warnings, clear m = true := by
  unfold bestSequence at h
  split at h
  · cases h
  · cases h
    exact nofun
  · dsimp only at h
    split at h
    all_goals
      cases h
      exact clear_search _ _ _ _

omit [Scalar α] in
theorem clear_lead {progression : List String} {voices : Int} {style : String} {extra : List String}
    {given : Fields α} {led : Led} (h : lead progression voices style extra given = .ok led) :
    ∀ m ∈ led.warnings, clear m = true := by
  unfold lead at h
  split at h
  · cases h
    exact nofun
  · obtain ⟨ranges, _, h⟩ := Outcome.bind_ok h
    obtain ⟨chords, _, h⟩ := Outcome.bind_ok h
    obtain ⟨candidates, _, h⟩ := Outcome.bind_ok h
    split at h
    · next hbest =>
        cases h
        exact clear_bestSequence hbest
    · cases h
      refine List.forall_mem_cons.2 ⟨clear_append (by decide) _, ?_⟩
      refine List.forall_mem_singleton.2 ?_
      decide

end Voicing

end Partitura

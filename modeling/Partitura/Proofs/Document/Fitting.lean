import Partitura.Document.Expect
import Partitura.Proofs.Computation

/-!
# Faults that are told of

A reader that finds a value of the wrong shape says so, with the path of the field. Where it uses a value
as it is, without asking what it is, the use itself may stop it, and such a fault is not told of: a value
without items is gone through, something that is no list of pairs is made a mapping, or a whole number is
too large for a scalar (`Fault.Escapes`).

`Outcome.Tells S r` ties the two together: `r` succeeds only where `S` holds, and a fault gets out of it
only where `S` does not. It passes from the steps of a reader to the whole reader, so that the condition
`S` of a reader lists the values that it uses as they are.
-/

namespace Partitura

variable {α : Type} {β γ : Type}

/-- Faults of a use of a value whose shape was not looked at. -/
inductive Fault.Escapes : Fault → Prop where
  | wrongKind : Escapes .wrongKind
  | overflow : Escapes .overflow
  | badUpdate (index length : Nat) : Escapes (.rejected (.badUpdate index length))

namespace Outcome

/-- The fault that stopped it is told of. -/
def Rejected (r : Outcome β) : Prop :=
  ∃ why, r = .error (.malformed why)

/-- There is a result, or it is told why there is none. -/
def Answered (r : Outcome β) : Prop :=
  (∃ x, r = .ok x) ∨ r.Rejected

/-- The outcome needs `S`, and a fault that is not told of shows that `S` does not hold. -/
structure Tells (S : Prop) (r : Outcome β) : Prop where
  holds : ∀ x, r = .ok x → S
  told : ∀ why, r = .error why → (∃ m, why = .malformed m) ∨ ¬ S ∧ why.Escapes

namespace Tells

variable {S T : Prop} {r : Outcome β}

theorem ok (h : S) (x : β) : Tells S (.ok x : Outcome β) :=
  ⟨fun _ _ => h, nofun⟩

theorem malformed (why : Malformation) : Tells S (.error (.malformed why) : Outcome β) := by
  refine ⟨nofun, ?_⟩
  rintro _ ⟨⟩
  exact .inl ⟨why, rfl⟩

theorem escapes {why : Fault} (hwhy : why.Escapes) (h : ¬ S) :
    Tells S (.error why : Outcome β) := by
  refine ⟨nofun, ?_⟩
  rintro _ ⟨⟩
  exact .inr ⟨h, hwhy⟩

theorem iff (h : Tells S r) (hST : S ↔ T) : Tells T r := by
  rwa [← propext hST]

/-- One step and then another, each with its own condition. -/
theorem bind {f : β → Outcome γ} (hr : Tells S r) (hf : ∀ x, r = .ok x → Tells T (f x)) :
    Tells (S ∧ T) (r >>= f) := by
  cases r with
  | error why =>
      refine ⟨nofun, ?_⟩
      rintro _ ⟨⟩
      refine (hr.told why rfl).imp_right ?_
      rintro ⟨hS, hwhy⟩
      exact ⟨fun h => hS h.1, hwhy⟩
  | ok x =>
      have hS : S := hr.holds x rfl
      refine ⟨fun y hy => ⟨hS, (hf x rfl).holds y hy⟩, fun why hwhy => ?_⟩
      refine ((hf x rfl).told why hwhy).imp_right ?_
      rintro ⟨hT, hwhy⟩
      exact ⟨fun h => hT h.2, hwhy⟩

/-- The condition of what comes after may be about what was found. -/
theorem bind_found {R : β → Prop} {f : β → Outcome γ}
    (hr : ∀ why, r = .error why → why.Escapes) (hf : ∀ x, r = .ok x → Tells (R x) (f x)) :
    Tells (∃ x, r = .ok x ∧ R x) (r >>= f) := by
  cases r with
  | error why =>
      refine escapes (hr why rfl) ?_
      rintro ⟨x, hx, _⟩
      cases hx
  | ok x =>
      refine (hf x rfl).iff ⟨fun h => ⟨x, rfl, h⟩, ?_⟩
      rintro ⟨_, ⟨⟩, h⟩
      exact h

/-- A step that tells of every fault of its own adds no condition. -/
theorem after {f : β → Outcome γ} (hr : Tells True r) (hf : ∀ x, r = .ok x → Tells S (f x)) :
    Tells S (r >>= f) :=
  (hr.bind hf).iff (.of_eq (true_and S))

theorem before {f : β → Outcome γ} (hr : Tells S r) (hf : ∀ x, Tells True (f x)) :
    Tells S (r >>= f) :=
  (hr.bind fun x _ => hf x).iff (.of_eq (and_true S))

theorem map (f : β → γ) (hr : Tells S r) : Tells S (f <$> r) := by
  rw [map_eq_pure_bind]
  exact hr.before fun x => ok trivial (f x)

theorem mapM {R : β → Prop} {f : β → Outcome γ} {xs : List β}
    (hf : ∀ x ∈ xs, Tells (R x) (f x)) : Tells (∀ x ∈ xs, R x) (xs.mapM f) := by
  induction xs with
  | nil => exact ok nofun []
  | cons x xs ih =>
      rw [List.mapM_cons]
      have hrest : Tells (∀ z ∈ xs, R z) (xs.mapM f) :=
        ih fun z hz => hf z (List.mem_cons_of_mem x hz)
      refine Tells.iff ?_ List.forall_mem_cons.symm
      exact (hf x List.mem_cons_self).bind fun y _ => hrest.before fun ys => ok trivial (y :: ys)

theorem mapM_true {f : β → Outcome γ} (hf : ∀ x, Tells True (f x)) (xs : List β) :
    Tells True (xs.mapM f) :=
  mapM_closed (Tells True) (ok trivial) before fun x _ => hf x

theorem answered_iff (h : Tells S r) : r.Answered ↔ S ∨ r.Rejected := by
  constructor
  · rintro (⟨x, hx⟩ | hr)
    · exact .inl (h.holds x hx)
    · exact .inr hr
  · rintro (hS | hr)
    · cases hr : r with
      | ok x => exact .inl ⟨x, rfl⟩
      | error why =>
          rcases h.told why hr with ⟨m, rfl⟩ | ⟨hno, _⟩
          · exact .inr ⟨m, rfl⟩
          · exact absurd hS hno
    · exact .inr hr

end Tells

end Outcome

/-! ## §1  Values that are used as they are -/

namespace Value

/-- If the value is a whole number, there is a scalar for it. -/
def Scalable [Scalar α] (v : Value α) : Prop :=
  ∀ n, v = .int n → ∃ x : α, scalarOf n = .ok x

/-- If the value is a mapping, its fields are as `S` says. -/
def WhenMapping (S : Fields α → Prop) (v : Value α) : Prop :=
  ∀ fields : Fields α, v = .mapping fields → S fields

theorem whenMapping_mapping {S : Fields α → Prop} {fields : Fields α} :
    (mapping fields).WhenMapping S ↔ S fields := by
  refine ⟨fun h => h fields rfl, ?_⟩
  rintro h _ ⟨⟩
  exact h

/-- If the value is a list, its items are as `S` says. -/
def WhenList (S : Value α → Prop) (v : Value α) : Prop :=
  ∀ vs, v = .list vs → ∀ w ∈ vs, S w

theorem whenList_list {S : Value α → Prop} {vs : List (Value α)} :
    (list vs).WhenList S ↔ ∀ w ∈ vs, S w := by
  refine ⟨fun h => h vs rfl, ?_⟩
  rintro h _ ⟨⟩
  exact h

def HasItems (v : Value α) : Prop :=
  ∃ vs, v.items = .ok vs

/-- The value has items, all of them as `S` says. -/
def EachItem (S : Value α → Prop) (v : Value α) : Prop :=
  ∃ vs, v.items = .ok vs ∧ ∀ w ∈ vs, S w

/-- Two items, the first of which can be a name. -/
def IsPair (v : Value α) : Prop :=
  ∃ vs, v.items = .ok vs ∧ ∃ k x, vs = [k, x] ∧ k.isKey = true

/-- A mapping, or a list of pairs. -/
def MakesMapping (v : Value α) : Prop :=
  (∃ fields, v = .mapping fields) ∨ v.EachItem IsPair

end Value

open Outcome Value

theorem escapes_items {v : Value α} (why : Fault) (h : v.items = .error why) : why.Escapes := by
  cases v with
  | text s | list vs | mapping fields => cases h
  | null | bool b | int n | real x =>
      cases h
      exact .wrongKind

/-! ## §2  Readers of single fields -/

namespace Expect

section Expected

variable [Scalar α]

omit [Scalar α] in
theorem tells_mapping (path : String) (v : Value α) : Tells True (mapping path v) := by
  cases v with
  | mapping fields => exact .ok trivial fields
  | null | bool b | int n | real x | text s | list vs => exact .malformed _

omit [Scalar α] in
theorem tells_whenMapping {S : Fields α → Prop} (path : String) {v : Value α}
    {f : Fields α → Outcome γ}
    (hf : ∀ fields : Fields α, v = .mapping fields → Tells (S fields) (f fields)) :
    Tells (v.WhenMapping S) (mapping path v >>= f) := by
  cases v with
  | mapping fields => exact (hf fields rfl).iff whenMapping_mapping.symm
  | null | bool b | int n | real x | text s | list vs => exact .malformed _

theorem tells_number (path : String) (v : Value α) : Tells v.Scalable (number path v) := by
  cases v with
  | int n =>
      show Tells _ (scalarOf n : Outcome α)
      cases h : (scalarOf n : Outcome α) with
      | ok x =>
          refine .ok ?_ x
          rintro _ ⟨⟩
          exact ⟨x, h⟩
      | error why =>
          have hwhy : why = .overflow := by
            unfold scalarOf at h
            split at h
            · cases h
            · cases h
              rfl
          subst hwhy
          refine .escapes .overflow fun hscale => ?_
          obtain ⟨x, hx⟩ := hscale n rfl
          cases h.symm.trans hx
  | real x => exact .ok nofun x
  | null | bool b | text s | list vs | mapping fields => exact .malformed _

theorem tells_optionalNumber (path : String) (v : Value α) :
    Tells v.Scalable (optionalNumber path v) := by
  cases v with
  | null => exact .ok nofun none
  | bool b | int n | real x | text s | list vs | mapping fields =>
      exact (tells_number path _).map some

theorem tells_whole (path : String) (v : Value α) : Tells True (whole path v) := by
  cases v with
  | int n => exact .ok trivial n
  | null | bool b | real x | text s | list vs | mapping fields => exact .malformed _

theorem tells_optionalWhole (path : String) (v : Value α) : Tells True (optionalWhole path v) := by
  cases v with
  | null => exact .ok trivial none
  | bool b | int n | real x | text s | list vs | mapping fields =>
      exact (tells_whole path _).map some

omit [Scalar α] in
theorem tells_atLeast (minimum : Int) (path : String) (n : Int) :
    Tells True (atLeast minimum path n) := by
  unfold atLeast
  split
  · exact .malformed _
  · exact .ok trivial n

theorem tells_string (path : String) (v : Value α) : Tells True (string path v) := by
  cases v with
  | text s => exact .ok trivial s
  | null | bool b | int n | real x | list vs | mapping fields => exact .malformed _

omit [Scalar α] in
theorem tells_each {δ : Type} {S : δ → Prop} {read : Nat → δ → Outcome γ} {xs : List δ}
    (hread : ∀ i x, Tells (S x) (read i x)) : Tells (∀ x ∈ xs, S x) (each read xs) := by
  have hpairs : (∀ p ∈ xs.zipIdx, S p.1) ↔ ∀ x ∈ xs, S x := by
    rw [← List.forall_mem_map (f := Prod.fst), List.zipIdx_map_fst]
  exact (Tells.mapM fun p _ => hread p.2 p.1).iff hpairs

theorem tells_strings (path : String) (v : Value α) : Tells True (strings path v) := by
  cases v with
  | text s => exact .ok trivial [s]
  | list vs => exact .mapM_true (fun _ => tells_string _ _) _
  | null | bool b | int n | real x | mapping fields => exact .malformed _

omit [Scalar α] in
theorem tells_items (v : Value α) : Tells v.HasItems v.items := by
  refine ⟨fun vs hvs => ⟨vs, hvs⟩, fun why hwhy => .inr ⟨?_, escapes_items why hwhy⟩⟩
  rintro ⟨vs, hvs⟩
  cases hvs.symm.trans hwhy

omit [Scalar α] in
/-- Items that are gone through, one by one. -/
theorem tells_eachItem {S : Value α → Prop} {v : Value α} {f : List (Value α) → Outcome γ}
    (hf : ∀ vs, Tells (∀ w ∈ vs, S w) (f vs)) : Tells (v.EachItem S) (v.items >>= f) :=
  Tells.bind_found escapes_items fun vs _ => hf vs

end Expected

end Expect

end Partitura

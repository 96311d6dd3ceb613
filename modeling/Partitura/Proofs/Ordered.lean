import Mathlib.Data.List.Basic
import Mathlib.Data.List.Dedup
import Mathlib.Data.List.Induction
import Partitura.Document.Value

/-!
# Writing keys in order

What holds of every value that is written holds of a whole mapping (§1). Keys without repetitions are
those of the list, in the order in which the list first names them (§2), whether or not repetitions are
left out of its beginning first (`distinct_append_distinct`), and so are the keys of a mapping that is
written pair by pair (§3).
-/

namespace Partitura.Ordered

variable {κ : Type} [BEq κ]

/-! ## §1  Mappings -/

section Mappings

variable {β : Type} {P : β → Prop}

theorem forall_put {m : List (κ × β)} (hm : ∀ p ∈ m, P p.2) {k : κ} {v : β} (hv : P v) :
    ∀ p ∈ put m k v, P p.2 := by
  induction m with
  | nil => exact List.forall_mem_singleton.2 hv
  | cons entry m ih =>
      obtain ⟨hentry, hm⟩ := List.forall_mem_cons.1 hm
      unfold put
      split
      · exact List.forall_mem_cons.2 ⟨hv, hm⟩
      · exact List.forall_mem_cons.2 ⟨hentry, ih hm⟩

theorem forall_ofPairs {pairs : List (κ × β)} (h : ∀ p ∈ pairs, P p.2) :
    ∀ p ∈ ofPairs pairs, P p.2 := by
  refine List.foldlRecOn (motive := fun m : List (κ × β) => ∀ p ∈ m, P p.2) pairs _
    (List.forall_mem_nil _) fun m hm pair hpair => ?_
  exact forall_put hm (h pair hpair)

end Mappings

/-! ## §2  First appearances -/

section Distinct

/-- Keys in the order in which a list first names them, each once. -/
structure FirstAppearances (keys found : List κ) : Prop where
  mem_iff : ∀ k, k ∈ found ↔ k ∈ keys
  inOrder : found.Pairwise fun a b => keys.idxOf a < keys.idxOf b

theorem distinct_snoc (keys : List κ) (k : κ) :
    distinct (keys ++ [k]) =
      if (distinct keys).contains k then distinct keys else distinct keys ++ [k] := by
  unfold distinct
  rw [List.foldl_append]
  rfl

variable [LawfulBEq κ] {keys : List κ} {k : κ}

theorem mem_distinct : k ∈ distinct keys ↔ k ∈ keys := by
  induction keys using List.reverseRecOn with
  | nil => rfl
  | append_singleton keys last ih =>
      rw [distinct_snoc, List.mem_append, List.mem_singleton, ← ih]
      split
      · next hseen =>
          refine ⟨.inl, ?_⟩
          rintro (h | rfl)
          · exact h
          · exact List.contains_iff_mem.1 hseen
      · rw [List.mem_append, List.mem_singleton]

theorem firstAppearances_distinct (keys : List κ) : FirstAppearances keys (distinct keys) := by
  refine ⟨fun _ => mem_distinct, ?_⟩
  induction keys using List.reverseRecOn with
  | nil => exact .nil
  | append_singleton keys last ih =>
      have hkeep : (distinct keys).Pairwise fun a b =>
          (keys ++ [last]).idxOf a < (keys ++ [last]).idxOf b := by
        refine ih.imp_of_mem fun ha hb hlt => ?_
        rw [List.idxOf_append_of_mem (mem_distinct.1 ha),
          List.idxOf_append_of_mem (mem_distinct.1 hb)]
        exact hlt
      rw [distinct_snoc]
      split
      · exact hkeep
      · next hseen =>
          refine List.pairwise_append.2 ⟨hkeep, List.pairwise_singleton _ _, ?_⟩
          -- Whatever was named before comes before the key that is new.
          intro a ha b hb
          obtain rfl := List.mem_singleton.1 hb
          have hnew : b ∉ keys := fun hb =>
            hseen (List.contains_iff_mem.2 (mem_distinct.2 hb))
          rw [List.idxOf_append_of_mem (mem_distinct.1 ha), List.idxOf_append_of_notMem hnew]
          exact Nat.lt_add_right _ (List.idxOf_lt_length_iff.2 (mem_distinct.1 ha))

theorem distinct_of_nodup (h : keys.Nodup) : distinct keys = keys := by
  induction keys using List.reverseRecOn with
  | nil => rfl
  | append_singleton keys last ih =>
      obtain ⟨hkeys, -, hlast⟩ := List.nodup_append.1 h
      have hnew : last ∉ keys := fun hmem => hlast last hmem last List.mem_cons_self rfl
      rw [distinct_snoc, ih hkeys, if_neg (by simpa using hnew)]

omit [LawfulBEq κ] in
theorem FirstAppearances.nodup {found : List κ} (h : FirstAppearances keys found) :
    found.Nodup := by
  refine h.inOrder.imp ?_
  rintro a _ hlt rfl
  exact absurd hlt (Nat.lt_irrefl _)

omit [LawfulBEq κ] in
theorem FirstAppearances.perm {found found' : List κ} (h : FirstAppearances keys found)
    (h' : FirstAppearances keys found') : found.Perm found' :=
  (List.perm_ext_iff_of_nodup h.nodup h'.nodup).2 fun k => (h.mem_iff k).trans (h'.mem_iff k).symm

/-- Repetitions may be left out of a part before the rest is written. -/
theorem distinct_append_distinct (keys more : List κ) :
    distinct (distinct keys ++ more) = distinct (keys ++ more) := by
  induction more using List.reverseRecOn with
  | nil =>
      rw [List.append_nil, List.append_nil]
      exact distinct_of_nodup (firstAppearances_distinct keys).nodup
  | append_singleton more last ih =>
      rw [← List.append_assoc, ← List.append_assoc, distinct_snoc, distinct_snoc, ih]

/-- Nothing is left out exactly if nothing is listed twice. -/
theorem length_distinct_eq_iff (keys : List κ) :
    (distinct keys).length = keys.length ↔ keys.Nodup := by
  classical
  have hfound := firstAppearances_distinct keys
  have hperm : (distinct keys).Perm keys.dedup :=
    (List.perm_ext_iff_of_nodup hfound.nodup (List.nodup_dedup keys)).2 fun k => by
      rw [hfound.mem_iff, List.mem_dedup]
  rw [hperm.length_eq]
  constructor
  · intro hlength
    exact List.dedup_eq_self.1 ((List.dedup_sublist keys).eq_of_length hlength)
  · intro hnodup
    rw [List.dedup_eq_self.2 hnodup]

end Distinct

/-! ## §3  Keys of mappings -/

section Keys

variable [LawfulBEq κ] {β : Type}

theorem keys_put (m : List (κ × β)) (k : κ) (v : β) : (put m k v).map Prod.fst =
    if (m.map Prod.fst).contains k then m.map Prod.fst else m.map Prod.fst ++ [k] := by
  induction m with
  | nil => rfl
  | cons entry m ih =>
      unfold put
      rw [List.map_cons, List.contains_cons, BEq.comm]
      split
      · next hsame =>
          rw [hsame, Bool.true_or, if_pos rfl]
          rfl
      · next hother =>
          rw [eq_false_of_ne_true hother, Bool.false_or, List.map_cons, ih]
          split <;> rfl

/-- A new key comes last. -/
theorem put_of_not_mem {m : List (κ × β)} {k : κ} (h : k ∉ m.map Prod.fst) (v : β) :
    put m k v = m ++ [(k, v)] := by
  induction m with
  | nil => rfl
  | cons entry m ih =>
      rw [List.map_cons, List.mem_cons, not_or] at h
      obtain ⟨hne, h⟩ := h
      unfold put
      rw [if_neg (by simpa using Ne.symm hne), ih h]
      rfl

theorem keys_ofPairs (pairs : List (κ × β)) :
    (ofPairs pairs).map Prod.fst = distinct (pairs.map Prod.fst) := by
  unfold ofPairs distinct
  rw [List.foldl_map]
  exact (List.foldl_hom (List.map Prod.fst) fun m pair => (keys_put m pair.1 pair.2).symm).symm

end Keys

end Partitura.Ordered

import Partitura.Number.Exact
import Partitura.Pattern.Reader
import Partitura.Proofs.Document.Spelling

/-!
# What kind of pattern a mapping is

A pattern has content of one of fourteen kinds, each under a field of its own, or it is drums in the
short form. How a mapping is read is decided by the kinds that are present (`read_short`, `read_one`,
`read_none`, `read_mixed`). The rule is that there is exactly one kind of content, and that a mixture
is rejected (`HoldsOneKind`). It is kept unless content is `Overlooked`, which happens beside drums in
the short form, and under `voiceLead` beside a `voice_lead` (`holdsOneKind_iff`).
-/

namespace Partitura

variable {α : Type} [Scalar α]

open Fields

/-! ## §1  Kinds and their fields -/

namespace PatternKind

theorem mem_all (k : PatternKind) : k ∈ all := by
  cases k with
  | reference k => cases k <;> decide
  | content k => cases k <;> decide

theorem snakeCase_field (k : PatternKind) : snakeCase k.field = k.field := by
  cases k with
  | reference k => cases k <;> decide
  | content k => cases k <;> decide

theorem field_injective {k k' : PatternKind} (h : k.field = k'.field) : k = k' := by
  have hdistinct : ∀ k ∈ all, ∀ k' ∈ all, k.field = k'.field → k = k' := by decide
  exact hdistinct k k.mem_all k' k'.mem_all h

/-- Voice leading is the only kind whose field has two words. -/
theorem eq_voiceLead_or_word (k : PatternKind) :
    k = .content .voiceLead ∨ '_' ∉ k.field.toList := by
  have hwords : ∀ k ∈ all, k = .content .voiceLead ∨ '_' ∉ k.field.toList := by decide
  exact hwords k k.mem_all

omit [Scalar α] in
theorem mem_present {data : Fields α} {k : PatternKind} :
    k ∈ present data ↔ (Expect.orNull (data.find? k.field)).isNull = false := by
  unfold present
  rw [List.mem_filter]
  simp [k.mem_all]

end PatternKind

/-! ## §2  Reading, by the kinds that are present -/

namespace Pattern

open Pattern.Reader

variable {name : String} {data : Fields α}

theorem read_short (h : isShortDrums data = true) : read name (.mapping data) =
    (do
      let finish ← finish ("patterns." ++ name) data
      return .base { content := .drums (← drums ("patterns." ++ name) data), finish }) := by
  show (if isShortDrums data = true then _ else _) = _
  rw [if_pos h]

theorem read_one {k : PatternKind} (h : isShortDrums data = false)
    (hk : PatternKind.present data = [k]) : read name (.mapping data) =
      ofKind ("patterns." ++ name) data (Expect.orNull (data.find? k.field)) k := by
  show (if isShortDrums data = true then _ else _) = _
  rw [h, if_neg Bool.false_ne_true, hk]

theorem read_none (h : isShortDrums data = false) (hk : PatternKind.present data = []) :
    read name (.mapping data) = .error (.malformed (.noContent name
      (ContentKind.all.map ContentKind.field ++ ReferenceKind.all.map ReferenceKind.field))) := by
  show (if isShortDrums data = true then _ else _) = _
  rw [h, if_neg Bool.false_ne_true, hk]
  rfl

theorem read_mixed {k k' : PatternKind} {ks : List PatternKind} (h : isShortDrums data = false)
    (hk : PatternKind.present data = k :: k' :: ks) : read name (.mapping data) =
      .error (.malformed (.mixedContent name ((k :: k' :: ks).map PatternKind.field))) := by
  show (if isShortDrums data = true then _ else _) = _
  rw [h, if_neg Bool.false_ne_true, hk]
  rfl

/-! ## §3  What a mapping holds -/

/-- A mapping holds content under a name: the name is a spelling of the field of a kind, and its value
is not null. -/
def Written (data : Fields α) (key : String) : Prop :=
  (∃ k : PatternKind, snakeCase key = k.field) ∧
    ∃ v, data.get? key = some v ∧ v.isNull = false

/-- More than one thing to play: content under two names, or content beside the short form of drums. -/
def Mixes (data : Fields α) : Prop :=
  (∃ key key', key ≠ key' ∧ Written data key ∧ Written data key') ∨
    (isShortDrums data = true ∧ ∃ key, Written data key)

/-- Content that is not looked at: all of it in the short form of drums, and voice leading in camel case
where the name in snake case stands as well, even with null. -/
def Overlooked (data : Fields α) : Prop :=
  (isShortDrums data = true ∧ ∃ key, Written data key) ∨
    (Written data "voiceLead" ∧ (data.get? "voice_lead").isSome)

/-- The rule of one kind, for one mapping. -/
structure HoldsOneKind (name : String) (data : Fields α) : Prop where
  /-- What is a pattern is drums in the short form and nothing else, or has content under one name. -/
  single : ∀ p, read name (.mapping data) = .ok p →
    (isShortDrums data = true ∧ ∀ key, ¬ Written data key) ∨
      (isShortDrums data = false ∧ ∃! key, Written data key)
  /-- A mixture is rejected. -/
  rejected : Mixes data → ∃ why, read name (.mapping data) = .error (.malformed why)
  /-- The pattern is read from whatever content is written. -/
  kept : ∀ p key (k : PatternKind) v, read name (.mapping data) = .ok p → snakeCase key = k.field →
    data.get? key = some v → v.isNull = false → ofKind ("patterns." ++ name) data v k = .ok p

omit [Scalar α] in
theorem spelling_iff {key : String} {k : PatternKind} : snakeCase key = k.field ↔
    key = k.field ∨ k = .content .voiceLead ∧ key = "voiceLead" := by
  constructor
  · intro h
    rcases k.eq_voiceLead_or_word with rfl | hword
    · have hsplit : snakeCase key = String.ofList ("voice".toList ++ '_' :: 'l' :: "ead".toList) := h
      have htwo := snakeCase_eq_two_words hsplit (by decide) (by decide)
      exact htwo.imp id fun heq => ⟨rfl, heq⟩
    · exact .inl (eq_of_snakeCase h hword)
  · rintro (rfl | ⟨rfl, rfl⟩)
    · exact k.snakeCase_field
    · decide

omit [Scalar α] in
theorem find?_word {k : PatternKind} (hword : '_' ∉ k.field.toList) (data : Fields α) :
    data.find? k.field = data.get? k.field :=
  find?_eq_get? k.snakeCase_field hword data

omit [Scalar α] in
theorem find?_voiceLead (data : Fields α) :
    data.find? "voice_lead" = (data.get? "voice_lead").or (data.get? "voiceLead") := by
  refine find?_eq_or (fun key => ?_) data
  have h : snakeCase key = "voice_lead" ↔ key = "voice_lead" ∨ _ ∧ key = "voiceLead" :=
    spelling_iff (k := .content .voiceLead)
  exact h.trans (or_congr Iff.rfl (and_iff_right rfl))

section Lookup

variable {key : String} {k : PatternKind} {v : Value α}

omit [Scalar α] in
/-- What is present is written under one of the spellings of its field. -/
theorem exists_of_present (h : k ∈ PatternKind.present data) : ∃ key v, snakeCase key = k.field ∧
    data.get? key = some v ∧ v.isNull = false ∧ data.find? k.field = some v := by
  rw [PatternKind.mem_present] at h
  cases hfind : data.find? k.field with
  | none =>
      rw [hfind] at h
      cases h
  | some v =>
      rw [hfind] at h
      rcases k.eq_voiceLead_or_word with rfl | hword
      · have hfound := hfind
        rw [show (PatternKind.content .voiceLead).field = "voice_lead" from rfl,
          find?_voiceLead, Option.or_eq_some_iff] at hfound
        rcases hfound with hget | ⟨_, hget⟩
        · exact ⟨"voice_lead", v, by decide, hget, h, rfl⟩
        · exact ⟨"voiceLead", v, by decide, hget, h, rfl⟩
      · rw [find?_word hword] at hfind
        exact ⟨k.field, v, k.snakeCase_field, hfind, h, rfl⟩

variable (hseen : ¬ (Written data "voiceLead" ∧ (data.get? "voice_lead").isSome))

include hseen

omit [Scalar α] in
theorem find?_of_written (hkey : snakeCase key = k.field) (hget : data.get? key = some v)
    (hv : v.isNull = false) : data.find? k.field = some v := by
  rcases spelling_iff.1 hkey with rfl | ⟨rfl, rfl⟩
  · rw [find?_eq, hget, Option.some_or]
  · have hnone : data.get? "voice_lead" = none := by
      by_contra hsome
      exact hseen ⟨⟨⟨.content .voiceLead, hkey⟩, v, hget, hv⟩, Option.isSome_iff_ne_none.2 hsome⟩
    show data.find? "voice_lead" = some v
    rw [find?_voiceLead, hnone, Option.none_or, hget]

omit [Scalar α] in
theorem present_of_written (hkey : snakeCase key = k.field) (hget : data.get? key = some v)
    (hv : v.isNull = false) : k ∈ PatternKind.present data := by
  rw [PatternKind.mem_present, find?_of_written hseen hkey hget hv]
  exact hv

omit [Scalar α] in
/-- A kind is written under one name. -/
theorem eq_of_written {key' : String} (hkey : snakeCase key = k.field)
    (hkey' : snakeCase key' = k.field) (h : Written data key) (h' : Written data key') :
    key = key' := by
  rcases spelling_iff.1 hkey with rfl | ⟨rfl, rfl⟩
  · rcases spelling_iff.1 hkey' with rfl | ⟨rfl, rfl⟩
    · rfl
    · obtain ⟨_, v, hv, _⟩ := h
      exact absurd ⟨h', Option.isSome_of_eq_some hv⟩ hseen
  · rcases spelling_iff.1 hkey' with rfl | ⟨_, rfl⟩
    · obtain ⟨_, v, hv, _⟩ := h'
      exact absurd ⟨h, Option.isSome_of_eq_some hv⟩ hseen
    · rfl

end Lookup

/-! ## §4  The rule of one kind -/

/-- A mapping that is rejected keeps the rule, whatever it holds. -/
theorem HoldsOneKind.of_rejected {why : Malformation}
    (hread : read name (.mapping data) = .error (.malformed why)) : HoldsOneKind name data := by
  refine ⟨fun p hp => ?_, fun _ => ⟨why, hread⟩, fun p key k v hp => ?_⟩
  · rw [hread] at hp
    cases hp
  · rw [hread] at hp
    cases hp

/-- Where nothing is overlooked, the rule is kept. In the short form of drums there is nothing else then;
otherwise the names that are written are as many as the kinds that are present. -/
theorem holdsOneKind_of_seen (name : String) (h : ¬ Overlooked data) : HoldsOneKind name data := by
  have hseen : ¬ (Written data "voiceLead" ∧ (data.get? "voice_lead").isSome) := fun hc => h (.inr hc)
  by_cases hshort : isShortDrums data = true
  · have hnone : ∀ key, ¬ Written data key := fun key hkey => h (.inl ⟨hshort, key, hkey⟩)
    refine ⟨fun p _ => .inl ⟨hshort, hnone⟩, ?_, ?_⟩
    · rintro (⟨key, _, _, hkey, _⟩ | ⟨_, key, hkey⟩)
      · exact absurd hkey (hnone key)
      · exact absurd hkey (hnone key)
    · intro p key k v _ hkey hget hv
      exact absurd ⟨⟨k, hkey⟩, v, hget, hv⟩ (hnone key)
  · have hlong : isShortDrums data = false := Bool.eq_false_iff.2 hshort
    have hpresent {key : String} {k : PatternKind} (hkey : snakeCase key = k.field)
        (hw : Written data key) : k ∈ PatternKind.present data := by
      obtain ⟨_, v, hget, hv⟩ := hw
      exact present_of_written hseen hkey hget hv
    rcases hkinds : PatternKind.present data with _ | ⟨k, _ | ⟨k', ks⟩⟩
    · exact .of_rejected (read_none hlong hkinds)
    · -- One kind is present, and written under one name.
      obtain ⟨key, v, hkey, hget, hv, _⟩ := exists_of_present (hkinds ▸ List.mem_singleton_self k)
      have hw : Written data key := ⟨⟨k, hkey⟩, v, hget, hv⟩
      have hunique : ∀ key', Written data key' → key' = key := by
        intro key' hw'
        obtain ⟨k', hkey'⟩ := hw'.1
        have hmem := hpresent hkey' hw'
        rw [hkinds, List.mem_singleton] at hmem
        subst hmem
        exact eq_of_written hseen hkey' hkey hw' hw
      refine ⟨fun p _ => .inr ⟨hlong, key, hw, hunique⟩, ?_, ?_⟩
      · rintro (⟨a, b, hne, ha, hb⟩ | ⟨hs, _⟩)
        · exact absurd ((hunique a ha).trans (hunique b hb).symm) hne
        · exact absurd hs hshort
      · intro p key' k' v' hp hkey' hget' hv'
        have hmem := hpresent hkey' ⟨⟨k', hkey'⟩, v', hget', hv'⟩
        rw [hkinds, List.mem_singleton] at hmem
        subst hmem
        rw [read_one hlong hkinds, find?_of_written hseen hkey' hget' hv'] at hp
        exact hp
    · exact .of_rejected (read_mixed hlong hkinds)

/-- **Exactly one kind of content, exactly where nothing is overlooked.** For every name and mapping: a
pattern that is read is drums in the short form and nothing else, or has content under one name, from
which it is read, and every mixture is rejected, if and only if the mapping is rejected should it hold
content that is not looked at. -/
theorem holdsOneKind_iff (name : String) (data : Fields α) : HoldsOneKind name data ↔
    (Overlooked data → ∃ why, read name (.mapping data) = .error (.malformed why)) := by
  constructor
  · intro h hover
    rcases hover with hshort | ⟨hcamel, hsome⟩
    · exact h.rejected (.inr hshort)
    · by_cases hshort : isShortDrums data = true
      · exact h.rejected (.inr ⟨hshort, _, hcamel⟩)
      · by_cases hother : ∃ key, key ≠ "voiceLead" ∧ Written data key
        · obtain ⟨key, hne, hw⟩ := hother
          exact h.rejected (.inl ⟨key, _, hne, hw, hcamel⟩)
        · -- The name in snake case stands with null, so nothing is present.
          obtain ⟨v, hget⟩ := Option.isSome_iff_exists.1 hsome
          have hnone : PatternKind.present data = [] := by
            refine List.eq_nil_iff_forall_not_mem.2 fun k hk => ?_
            obtain ⟨key, v', hkey, hget', hv', hfind⟩ := exists_of_present hk
            have hw : Written data key := ⟨⟨k, hkey⟩, v', hget', hv'⟩
            obtain rfl : key = "voiceLead" := by
              by_contra hne
              exact hother ⟨key, hne, hw⟩
            obtain rfl : k = .content .voiceLead :=
              PatternKind.field_injective (hkey.symm.trans (by decide))
            have hfirst := find?_voiceLead data
            rw [hget, Option.some_or] at hfirst
            obtain rfl : v = v' := Option.some.inj (hfirst.symm.trans hfind)
            have hplain : Written data "voice_lead" :=
              ⟨⟨.content .voiceLead, by decide⟩, v, hget, hv'⟩
            exact hother ⟨"voice_lead", by decide, hplain⟩
          exact ⟨_, read_none (Bool.eq_false_iff.2 hshort) hnone⟩
  · intro h
    by_cases hover : Overlooked data
    · obtain ⟨why, hread⟩ := h hover
      exact .of_rejected hread
    · exact holdsOneKind_of_seen name hover

/-- Notes and a walk, called drums. -/
def medley : Fields Rat :=
  [("type", .text "drums"), ("notes", .list [.text "C4:q"]),
   ("markov", .mapping [("states", .list [.text "1"]), ("steps", .int 2)])]

/-- Notes beside a progression, whose name stands in snake case as well. -/
def duet : Fields Rat :=
  [("notes", .list [.text "C4:q"]), ("voice_lead", .null),
   ("voiceLead", .mapping [("progression", .list [.text "C"])])]

/-- Both are read as patterns, though two kinds of content are written in each of them. -/
theorem medley_read : ∃ _ : Elementary,
    (Written medley "notes" ∧ Written medley "markov" ∧ ∃ p, read "p" (.mapping medley) = .ok p) ∧
    (Written duet "notes" ∧ Written duet "voiceLead" ∧ ∃ p, read "p" (.mapping duet) = .ok p) ∧
    ¬ HoldsOneKind "p" medley ∧ ¬ HoldsOneKind "p" duet := by
  let _ := Elementary.coarse
  have hnotes : Written medley "notes" := ⟨⟨.content .notes, by decide⟩, _, rfl, rfl⟩
  have hwalk : Written medley "markov" := ⟨⟨.content .markov, by decide⟩, _, rfl, rfl⟩
  have hnotes' : Written duet "notes" := ⟨⟨.content .notes, by decide⟩, _, rfl, rfl⟩
  have hvoices : Written duet "voiceLead" := ⟨⟨.content .voiceLead, by decide⟩, _, rfl, rfl⟩
  obtain ⟨p, hp⟩ := Outcome.exists_of_isSome (r := read "p" (.mapping medley)) (by decide +kernel)
  obtain ⟨p', hp'⟩ := Outcome.exists_of_isSome (r := read "p" (.mapping duet)) (by decide +kernel)
  refine ⟨inferInstance, ⟨hnotes, hwalk, p, hp⟩, ⟨hnotes', hvoices, p', hp'⟩, fun h => ?_, fun h => ?_⟩
  · obtain ⟨why, hwhy⟩ := h.rejected (.inl ⟨_, _, by decide, hnotes, hwalk⟩)
    rw [hp] at hwhy
    cases hwhy
  · obtain ⟨why, hwhy⟩ := h.rejected (.inl ⟨_, _, by decide, hnotes', hvoices⟩)
    rw [hp'] at hwhy
    cases hwhy

end Pattern

end Partitura

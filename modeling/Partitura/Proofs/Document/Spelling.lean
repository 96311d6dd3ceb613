import Partitura.Document.Value
import Partitura.Proofs.Computation

/-!
# Fields in two spellings

A field is looked up by its name in snake case, and found under every name that this is the snake case
of. A name of one word has no other spelling (`find?_eq_get?`); a name of two words has one, in camel
case (`find?_eq_or`).

A mapping may be written anew with some of its names in camel case (`Respelled`). Then the same fields
are found in it as before (`find?_respelled`), as long as no other spelling of a name comes before it
(`Foremost`).
-/

namespace Partitura.Fields

/-! ## §1  Names -/

/-- The characters that stand for one character in snake case. -/
def snakeChars (c : Char) : List Char :=
  if c.isUpper then ['_', c.toLower] else [c]

theorem snakeCase_eq_iff {name other : String} :
    snakeCase name = other ↔ name.toList.flatMap snakeChars = other.toList := by
  constructor
  · rintro rfl
    exact String.toList_ofList.symm
  · intro h
    show String.ofList (name.toList.flatMap snakeChars) = other
    rw [h, String.ofList_toList]

/-- Without an underscore nothing was changed. -/
theorem eq_of_flatMap_snakeChars {cs ds : List Char} (h : cs.flatMap snakeChars = ds)
    (hds : '_' ∉ ds) : cs = ds := by
  induction cs generalizing ds with
  | nil => exact h
  | cons c cs ih =>
      subst h
      rw [List.flatMap_cons] at hds ⊢
      by_cases hc : c.isUpper
      · simp [snakeChars, hc] at hds
      · have hc' : snakeChars c = [c] := if_neg hc
        rw [hc'] at hds ⊢
        rw [← ih rfl (fun hmem => hds (List.mem_cons_of_mem c hmem))]
        rfl

/-- A name of one word has one spelling. -/
theorem eq_of_snakeCase {name word : String} (h : snakeCase name = word)
    (hword : '_' ∉ word.toList) : name = word :=
  String.toList_injective (eq_of_flatMap_snakeChars (snakeCase_eq_iff.1 h) hword)

theorem toUpper_toLower {c : Char} (h : c.isUpper) : c.toLower.toUpper = c := by
  have hcode : c.toNat ∈ List.range' 65 26 := by
    obtain ⟨hlow, hhigh⟩ : c.val ≥ 'A'.val ∧ c.val ≤ 'Z'.val := of_decide_eq_true h
    have hlow' : 65 ≤ c.toNat := hlow
    have hhigh' : c.toNat ≤ 90 := hhigh
    exact List.mem_range'_1.2 ⟨hlow', by omega⟩
  have hall : ∀ n ∈ List.range' 65 26, (Char.ofNat n).toLower.toUpper = Char.ofNat n := by decide
  have hc := hall _ hcode
  rwa [Char.ofNat_toNat] at hc

theorem eq_or_eq_of_flatMap_snakeChars {cs as bs : List Char} {c : Char}
    (h : cs.flatMap snakeChars = as ++ '_' :: c :: bs) (has : '_' ∉ as) (hbs : '_' ∉ c :: bs) :
    cs = as ++ '_' :: c :: bs ∨ cs = as ++ c.toUpper :: bs := by
  induction as generalizing cs with
  | nil =>
      cases cs with
      | nil => cases h
      | cons d ds =>
          rw [List.flatMap_cons] at h
          by_cases hd : d.isUpper
          · have hd' : snakeChars d = ['_', d.toLower] := if_pos hd
            rw [hd'] at h
            obtain ⟨rfl, htail⟩ := List.cons.inj (List.cons.inj h).2
            right
            rw [List.nil_append, toUpper_toLower hd,
              eq_of_flatMap_snakeChars htail fun hmem => hbs (List.mem_cons_of_mem _ hmem)]
          · have hd' : snakeChars d = [d] := if_neg hd
            rw [hd'] at h
            obtain ⟨rfl, htail⟩ := List.cons.inj h
            left
            rw [List.nil_append, eq_of_flatMap_snakeChars htail hbs]
  | cons a as ih =>
      cases cs with
      | nil => cases h
      | cons d ds =>
          rw [List.flatMap_cons] at h
          by_cases hd : d.isUpper
          · have hd' : snakeChars d = ['_', d.toLower] := if_pos hd
            rw [hd'] at h
            exact absurd (List.cons.inj h).1 (List.ne_of_not_mem_cons has)
          · have hd' : snakeChars d = [d] := if_neg hd
            rw [hd'] at h
            obtain ⟨rfl, htail⟩ := List.cons.inj h
            refine (ih htail (List.not_mem_of_not_mem_cons has)).imp ?_ ?_
            · rintro rfl
              rfl
            · rintro rfl
              rfl

/-- A name of two words has two spellings. -/
theorem snakeCase_eq_two_words {name : String} {as bs : List Char} {c : Char}
    (h : snakeCase name = String.ofList (as ++ '_' :: c :: bs)) (has : '_' ∉ as)
    (hbs : '_' ∉ c :: bs) : name = String.ofList (as ++ '_' :: c :: bs) ∨
      name = String.ofList (as ++ c.toUpper :: bs) := by
  have hchars := snakeCase_eq_iff.1 h
  rw [String.toList_ofList] at hchars
  refine (eq_or_eq_of_flatMap_snakeChars hchars has hbs).imp ?_ ?_
  · intro heq
    rw [← heq, String.ofList_toList]
  · intro heq
    rw [← heq, String.ofList_toList]

/-! ## §2  Looking a field up -/

variable {α : Type}

theorem get?_cons (name key : String) (v : Value α) (fields : Fields α) :
    get? ((key, v) :: fields) name = if name = key then some v else get? fields name := by
  show List.lookup name ((key, v) :: fields) = _
  rw [List.lookup_cons]
  by_cases h : name = key
  · simp [h]
  · have hne : (name == key) = false := by simpa using h
    rw [hne, if_neg h]
    rfl

/-- The value of the first field whose name is a spelling of `name`. -/
def spelled? (fields : Fields α) (name : String) : Option (Value α) :=
  (List.find? (fun (k, _) => snakeCase k = name) fields).map (·.2)

theorem spelled?_cons (name key : String) (v : Value α) (fields : Fields α) :
    spelled? ((key, v) :: fields) name =
      if snakeCase key = name then some v else spelled? fields name := by
  unfold spelled?
  rw [List.find?_cons]
  by_cases h : snakeCase key = name
  · simp [h]
  · simp [h]

theorem find?_eq (fields : Fields α) (name : String) :
    fields.find? name = (fields.get? name).or (fields.spelled? name) := by
  unfold find?
  cases fields.get? name with
  | none => rfl
  | some v => rfl

/-- Of two spellings the plain one wins. -/
theorem find?_eq_or {name other : String}
    (h : ∀ key, snakeCase key = name ↔ key = name ∨ key = other) (fields : Fields α) :
    fields.find? name = (fields.get? name).or (fields.get? other) := by
  rw [find?_eq]
  induction fields with
  | nil => rfl
  | cons entry fields ih =>
      obtain ⟨key, v⟩ := entry
      rw [get?_cons, get?_cons, spelled?_cons]
      by_cases hname : name = key
      · rw [if_pos hname, Option.some_or, Option.some_or]
      · rw [if_neg hname]
        by_cases hother : other = key
        · rw [if_pos hother, if_pos ((h key).2 (.inr hother.symm))]
        · have hneither : snakeCase key ≠ name := by
            intro hkey
            rcases (h key).1 hkey with heq | heq
            · exact hname heq.symm
            · exact hother heq.symm
          rw [if_neg hother, if_neg hneither, ih]

/-- A field of one word is found under its name alone. -/
theorem find?_eq_get? {name : String} (hsnake : snakeCase name = name) (hword : '_' ∉ name.toList)
    (fields : Fields α) : fields.find? name = fields.get? name := by
  have h (key : String) : snakeCase key = name ↔ key = name ∨ key = name := by
    rw [or_self]
    refine ⟨fun hkey => eq_of_snakeCase hkey hword, ?_⟩
    rintro rfl
    exact hsnake
  rw [find?_eq_or h, Option.or_self]

/-! ## §3  Writing names anew -/

def camelChars : List Char → List Char
  | '_' :: c :: cs => c.toUpper :: camelChars cs
  | c :: cs => c :: camelChars cs
  | [] => []

/-- `name` in camel case: an underscore and the letter after it become the capital. -/
def camelCase (name : String) : String :=
  String.ofList (camelChars name.toList)

example : camelCase "constrain_to_scale" = "constrainToScale" := by decide

/-- A name may be written in camel case if it is one of `names`. -/
def RespelledName (names : List String) (key key' : String) : Prop :=
  key' = key ∨ key ∈ names ∧ key' = camelCase key

/-- Field by field, names may be written anew, and values as `inside` says for the field. -/
def RespelledFields (names : List String) (inside : String → Value α → Value α → Prop) :
    Fields α → Fields α → Prop :=
  List.Forall₂ fun entry entry' =>
    RespelledName names entry.1 entry'.1 ∧ inside (snakeCase entry.1) entry.2 entry'.2

theorem RespelledFields.kept {names : List String} {inside : String → Value α → Value α → Prop}
    {v v' : Value α} {fields fields' : Fields α} {key : String} (hsnake : snakeCase key = key)
    (hv : inside key v v') (h : RespelledFields names inside fields fields') :
    RespelledFields names inside ((key, v) :: fields) ((key, v') :: fields') :=
  .cons ⟨.inl rfl, hsnake.symm ▸ hv⟩ h

theorem RespelledFields.renamed {names : List String} {inside : String → Value α → Value α → Prop}
    {v v' : Value α} {fields fields' : Fields α} {key : String} (hsnake : snakeCase key = key)
    (hkey : key ∈ names) (hv : inside key v v') (h : RespelledFields names inside fields fields') :
    RespelledFields names inside ((key, v) :: fields) ((camelCase key, v') :: fields') :=
  .cons ⟨.inr ⟨hkey, rfl⟩, hsnake.symm ▸ hv⟩ h

/-- A mapping may have its names written anew if it is fit for that. -/
inductive Respelled (fit : List String → Fields α → Prop) (names : List String)
    (inside : String → Value α → Value α → Prop) : Value α → Value α → Prop where
  | same (v : Value α) : Respelled fit names inside v v
  | mapping {fields fields' : Fields α} (hfit : fit names fields)
      (h : RespelledFields names inside fields fields') :
      Respelled fit names inside (.mapping fields) (.mapping fields')

/-- No spelling of a name comes before the name itself. -/
def Foremost (names : List String) (fields : Fields α) : Prop :=
  fields.Pairwise fun earlier later => later.1 ∈ names → snakeCase earlier.1 ≠ later.1

instance (names : List String) (fields : Fields α) : Decidable (Foremost names fields) :=
  inferInstanceAs (Decidable (List.Pairwise _ fields))

/-- Names in snake case that can be had back from their camel case. -/
def Plain (names : List String) : Prop :=
  ∀ name ∈ names, snakeCase name = name ∧ snakeCase (camelCase name) = name

instance (names : List String) : Decidable (Plain names) :=
  inferInstanceAs (Decidable (∀ name ∈ names, _))

section Respelled

variable {names : List String} {inside : String → Value α → Value α → Prop}
  {fields fields' : Fields α} {name : String}

theorem RespelledName.snakeCase_eq (hplain : Plain names) {key key' : String}
    (h : RespelledName names key key') : snakeCase key' = snakeCase key := by
  rcases h with rfl | ⟨hkey, rfl⟩
  · rfl
  · rw [(hplain key hkey).1, (hplain key hkey).2]

/-- What is now a plain name was so before. -/
theorem RespelledName.eq_of_plain (hplain : Plain names) (hname : snakeCase name = name)
    {key : String} (h : RespelledName names key name) : key = name := by
  rcases h with heq | ⟨hkey, heq⟩
  · exact heq.symm
  · have hback := (hplain key hkey).2
    rw [← heq, hname] at hback
    exact hback.symm

theorem get?_eq_none (h : ∀ entry ∈ fields, entry.1 ≠ name) : fields.get? name = none := by
  induction fields with
  | nil => rfl
  | cons entry fields ih =>
      obtain ⟨hentry, hrest⟩ := List.forall_mem_cons.1 h
      rw [get?_cons, if_neg fun heq => hentry heq.symm, ih hrest]

/-- With no other spelling before it, the plain name need not be looked for first. -/
theorem find?_of_foremost (h : Foremost names fields) (hname : name ∈ names)
    (hsnake : snakeCase name = name) : fields.find? name = fields.spelled? name := by
  rw [find?_eq]
  induction fields with
  | nil => rfl
  | cons entry fields ih =>
      obtain ⟨key, v⟩ := entry
      obtain ⟨hfirst, hrest⟩ := List.pairwise_cons.1 h
      rw [get?_cons, spelled?_cons]
      by_cases hkey : snakeCase key = name
      · have hnone : get? fields name = none := by
          refine get?_eq_none fun later hlater heq => ?_
          subst heq
          exact hfirst later hlater hname hkey
        rw [if_pos hkey, hnone]
        split <;> rfl
      · have hne : name ≠ key := by
          rintro rfl
          exact hkey hsnake
        rw [if_neg hkey, if_neg hne, ih hrest]

theorem Foremost.respelled (hplain : Plain names) (h : Foremost names fields)
    (hfields : RespelledFields names inside fields fields') : Foremost names fields' := by
  induction hfields with
  | nil => exact .nil
  | @cons entry entry' rest rest' hentry hrest ih =>
      obtain ⟨hfirst, hlater⟩ := List.pairwise_cons.1 h
      refine List.pairwise_cons.2 ⟨?_, ih hlater⟩
      intro later' hlater' hname
      obtain ⟨later, hmem, hrespelled, _⟩ := exists_of_mem_right hrest hlater'
      have hkey := hrespelled.eq_of_plain hplain (hplain _ hname).1
      rw [hentry.1.snakeCase_eq hplain]
      rw [← hkey] at hname ⊢
      exact hfirst later hmem hname

/-- The first spelling stands at the same place. -/
theorem spelled?_respelled (hplain : Plain names) (h : RespelledFields names inside fields fields')
    (name : String) : Option.Rel (inside name) (fields.spelled? name) (fields'.spelled? name) := by
  induction h with
  | nil => exact .none
  | @cons entry entry' rest rest' hentry hrest ih =>
      obtain ⟨hkey, hvalue⟩ := hentry
      rw [spelled?_cons, spelled?_cons, hkey.snakeCase_eq hplain]
      split
      · next heq =>
          rw [heq] at hvalue
          exact .some hvalue
      · exact ih

theorem get?_respelled (hplain : Plain names) (h : RespelledFields names inside fields fields')
    (hname : snakeCase name = name) (hother : name ∉ names) :
    Option.Rel (inside name) (fields.get? name) (fields'.get? name) := by
  induction h with
  | nil => exact .none
  | @cons entry entry' rest rest' hentry hrest ih =>
      obtain ⟨key, v⟩ := entry
      obtain ⟨key', v'⟩ := entry'
      obtain ⟨hkey, hvalue⟩ := hentry
      rw [get?_cons, get?_cons]
      by_cases hsame : name = key
      · subst hsame
        -- The name is none of those that are written anew.
        have hkey' : name = key' := by
          rcases hkey with heq | ⟨hmem, _⟩
          · exact heq.symm
          · exact absurd hmem hother
        rw [if_pos rfl, if_pos hkey']
        rw [hname] at hvalue
        exact .some hvalue
      · have hkey' : name ≠ key' := by
          rintro rfl
          exact hsame (hkey.eq_of_plain hplain hname).symm
        rw [if_neg hsame, if_neg hkey']
        exact ih

/-- **The same fields are found as before.** -/
theorem find?_respelled (hplain : Plain names) (hfore : Foremost names fields)
    (h : RespelledFields names inside fields fields') (hname : snakeCase name = name) :
    Option.Rel (inside name) (fields.find? name) (fields'.find? name) := by
  by_cases hmem : name ∈ names
  · rw [find?_of_foremost hfore hmem hname,
      find?_of_foremost (hfore.respelled hplain h) hmem hname]
    exact spelled?_respelled hplain h name
  · have hget := get?_respelled hplain h hname hmem
    rw [find?_eq, find?_eq]
    generalize fields.get? name = found at hget ⊢
    generalize fields'.get? name = found' at hget ⊢
    cases hget with
    | none => exact spelled?_respelled hplain h name
    | some hvalue => exact .some hvalue

end Respelled

end Partitura.Fields

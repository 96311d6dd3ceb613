import Mathlib.Data.List.DropRight
import Mathlib.Tactic.IntervalCases
import Partitura.Document.Reader
import Partitura.Document.Writer
import Partitura.Proofs.Notation.Characters
import Partitura.Proofs.Ordered

/-!
# What is written is read back

Each reader takes off the text what the writer of its kind has put there, and leaves the rest: texts
(§1), whole numbers (§2), lists and mappings (§3). A value is followed by nothing, by a comma or by a
closing bracket, which is where a number ends. How deep values nest is no matter, since the readers
count down from the length of the text.

The whole is put together along the ways in which a value may be written (`Writable`): a mapping has no
field twice, and scalars are the caller's to write so that they are read.
-/

namespace Partitura.Document

open Notation (Begins)

/-- What may follow a value. -/
def closing : List Char :=
  [',', ']', '\x7d']

variable {rest : Chars}

/-! ## §1  Texts -/

theorem hexUnit?_hex {n : Nat} (h : n < 32) (rest : Chars) :
    hexUnit? (Text.hex 4 n ++ rest) = some (n, rest) := by
  interval_cases n <;> rfl

theorem readUnit_hex {c : Char} (h : c.toNat < 32) (rest : Chars) :
    readUnit (Text.hex 4 c.toNat ++ rest) = some (c, rest) := by
  have hlow : (decide (0xD800 ≤ c.toNat) && decide (c.toNat < 0xDC00)) = false := by
    simp only [Bool.and_eq_false_imp, decide_eq_true_eq, decide_eq_false_iff_not]
    omega
  unfold readUnit
  rw [hexUnit?_hex h, Option.bind_eq_bind, Option.bind_some]
  dsimp only
  rw [hlow, if_neg Bool.false_ne_true, Char.ofNat_toNat]

theorem readText_plain {c : Char} (hquote : c ≠ '"') (hslash : c ≠ '\\') (fuel : Nat)
    (done : List Char) (cs : Chars) :
    readText (fuel + 1) done (c :: cs) = readText fuel (c :: done) cs := by
  simp [readText, hquote, hslash]

theorem readText_unit {c : Char} {cs : Chars} (h : readUnit cs = some (c, rest)) (fuel : Nat)
    (done : List Char) :
    readText (fuel + 1) done ('\\' :: 'u' :: cs) = readText fuel (c :: done) rest := by
  simp [readText, h]

theorem readText_escape (cs done : List Char) (rest : Chars) {fuel : Nat} (h : cs.length < fuel) :
    readText fuel done (cs.flatMap escape ++ '"' :: rest) =
      some (String.ofList (done.reverse ++ cs), rest) := by
  induction cs generalizing done fuel with
  | nil =>
      obtain ⟨fuel, rfl⟩ := Nat.exists_eq_add_one_of_ne_zero (Nat.ne_of_gt h)
      simp [readText]
  | cons c cs ih =>
      obtain ⟨fuel, rfl⟩ := Nat.exists_eq_add_one_of_ne_zero (Nat.ne_zero_of_lt h)
      have hfuel : cs.length < fuel := Nat.lt_of_succ_lt_succ h
      have hnext := ih (c :: done) hfuel
      rw [List.reverse_cons, List.append_assoc, List.singleton_append] at hnext
      rw [List.flatMap_cons, List.append_assoc]
      unfold escape
      split
      · next hmark =>
          rcases hmark with rfl | rfl
          all_goals exact hnext
      · next hmark =>
          obtain ⟨hquote, hslash⟩ := not_or.1 hmark
          split
          · next hcontrol =>
              exact (readText_unit (readUnit_hex hcontrol _) fuel done).trans hnext
          · exact (readText_plain hquote hslash fuel done _).trans hnext

theorem length_le_length_flatMap_escape (cs : List Char) :
    cs.length ≤ (cs.flatMap escape).length := by
  induction cs with
  | nil => exact le_rfl
  | cons c cs ih =>
      have hone : 1 ≤ (escape c).length := by
        unfold escape
        split_ifs <;> simp
      rw [List.flatMap_cons, List.length_append, List.length_cons]
      omega

theorem toList_quote (s : String) : (quote s).toList = '"' :: (s.toList.flatMap escape ++ ['"']) :=
  String.toList_ofList

/-- A text is read up to its closing quote. -/
theorem readText_quote (s : String) (rest : Chars) :
    readText ((s.toList.flatMap escape ++ '"' :: rest).length + 1) []
      (s.toList.flatMap escape ++ '"' :: rest) = some (s, rest) := by
  have hlength := length_le_length_flatMap_escape s.toList
  rw [readText_escape _ _ _ (by rw [List.length_append]; omega), List.reverse_nil, List.nil_append,
    String.ofList_toList]

/-! ## §2  Whole numbers -/

section Numbers

variable {α : Type} [Scalar α]

/-- A number ends where nothing goes on with it. -/
theorem readDigits_toDigits (negative : Bool) (n : Nat) (h : Begins closing rest) :
    readDigits negative (Nat.toDigits 10 n ++ rest) =
      some ((.int (if negative then -(n : Int) else n) : Value α), rest) := by
  have hdigits : ∀ c ∈ Nat.toDigits 10 n, c.isDigit = true := fun c hc =>
    Nat.isDigit_of_mem_toDigits (by decide) (by decide) hc
  have hspan : spanDigits (Nat.toDigits 10 n ++ rest) = (Nat.toDigits 10 n, rest) := by
    obtain ⟨htake, hdrop⟩ := Notation.span_append hdigits (h.not_mem (by decide))
    unfold spanDigits
    rw [htake, hdrop]
  unfold readDigits
  rw [hspan]
  cases rest with
  | nil => simp [Nat.toDigits_ne_nil, readExponent, Text.valueOf_toDigits]
  | cons c rest =>
      have hc : c = ',' ∨ c = ']' ∨ c = '\x7d' := by
        simpa [closing] using h c rfl
      rcases hc with rfl | rfl | rfl
      all_goals simp [Nat.toDigits_ne_nil, readExponent, Text.valueOf_toDigits]

theorem dropWord?_of_ne {w c : Char} (h : c ≠ w) (ws cs : Chars) :
    dropWord? (w :: ws) (c :: cs) = none :=
  if_neg h

theorem readNumber_toString (n : Int) (h : Begins closing rest) :
    readNumber ((toString n).toList ++ rest) = some ((.int n : Value α), rest) := by
  rw [Notation.toList_toString, Nat.toString_eq_ofList_toDigits, String.toList_ofList]
  obtain ⟨d, ds, hds⟩ := List.exists_cons_of_ne_nil (Nat.toDigits_ne_nil (n := n.natAbs) (b := 10))
  have hd : d.isDigit = true :=
    Nat.isDigit_of_mem_toDigits (by decide) (by decide) (hds ▸ List.mem_cons_self)
  have hmark : ∀ c : Char, c.isDigit = false → d ≠ c := by
    rintro c hc rfl
    exact Bool.false_ne_true (hc.symm.trans hd)
  have hminus : d ≠ '-' := hmark '-' rfl
  have hword := fun ws cs => dropWord?_of_ne (hmark 'I' rfl) ws cs
  have hread := fun negative => readDigits_toDigits (α := α) negative n.natAbs h
  rw [hds, List.cons_append] at hread
  rw [hds]
  unfold readNumber
  by_cases hneg : n < 0
  · rw [if_pos hneg]
    simp [hword, hread, abs_of_neg hneg]
  · rw [if_neg hneg]
    simp [hminus, hword, hread, abs_of_nonneg (not_lt.1 hneg)]

end Numbers

/-! ## §3  Values -/

section Values

variable {α : Type}

/-- What stands behind the first of several texts with commas between them. -/
def behind (ts : List String) : Chars :=
  ts.flatMap fun t => ',' :: t.toList

theorem behind_cons (t : String) (ts : List String) :
    behind (t :: ts) = ',' :: (t.toList ++ behind ts) := rfl

theorem toList_intercalate (t : String) (ts : List String) :
    (",".intercalate (t :: ts)).toList = t.toList ++ behind ts := by
  induction ts generalizing t with
  | nil => simp [behind]
  | cons u ts ih =>
      rw [String.intercalate_cons_cons, String.toList_append, String.toList_append, ih,
        behind_cons, List.append_assoc]
      rfl

theorem begins_behind (ts : List String) {c : Char} (hc : c ∈ closing) (rest : Chars) :
    Begins closing (behind ts ++ c :: rest) := by
  cases ts with
  | nil => exact .cons hc
  | cons t ts => exact .cons (by decide)

theorem writeItems_eq (scalar : α → String) (vs : List (Value α)) :
    writeItems scalar vs = vs.map (write scalar) := by
  induction vs with
  | nil => rfl
  | cons v vs ih => rw [writeItems, ih, List.map_cons]

/-- A field as it is written. -/
def writeField (scalar : α → String) (field : String × Value α) : String :=
  quote field.1 ++ ":" ++ write scalar field.2

theorem writeFields_eq (scalar : α → String) (fields : Fields α) :
    writeFields scalar fields = fields.map (writeField scalar) := by
  induction fields with
  | nil => rfl
  | cons field fields ih =>
      rw [writeFields, ih, List.map_cons]
      rfl

variable [Scalar α]

theorem skipGap_cons {c : Char} (h : isGap c = false) (cs : Chars) : skipGap (c :: cs) = c :: cs := by
  simp [skipGap, h]

theorem readValue_skipGap (fuel : Nat) (cs : Chars) :
    (readValue fuel (skipGap cs) : Option (Value α × Chars)) = readValue fuel cs := by
  cases fuel with
  | zero => rfl
  | succ fuel =>
      have hskip : skipGap (skipGap cs) = skipGap cs := List.dropWhile_idempotent isGap cs
      rw [readValue, readValue, hskip]

/-- No value begins with a closing bracket. -/
theorem readValue_bracket (fuel : Nat) (cs : Chars) :
    (readValue fuel (']' :: cs) : Option (Value α × Chars)) = none := by
  cases fuel with
  | zero => rfl
  | succ fuel =>
      rw [readValue, skipGap_cons rfl]
      rfl

/-- What is written for a value is read as that value, wherever it stands. -/
def Reads (scalar : α → String) (v : Value α) : Prop :=
  ∀ (fuel : Nat) (rest : Chars), Begins closing rest →
    2 * (write scalar v).toList.length < fuel →
    readValue fuel ((write scalar v).toList ++ rest) = some (v, rest)

variable {scalar : α → String}

/-- A value is read if it is as soon as there is any fuel. -/
theorem Reads.of_succ {v : Value α}
    (h : ∀ (fuel : Nat) (rest : Chars), Begins closing rest →
      readValue (fuel + 1) ((write scalar v).toList ++ rest) = some (v, rest)) : Reads scalar v := by
  intro fuel rest hrest hfuel
  obtain ⟨fuel, rfl⟩ := Nat.exists_eq_add_one_of_ne_zero (Nat.ne_zero_of_lt hfuel)
  exact h fuel rest hrest

theorem reads_null : Reads scalar .null := by
  refine .of_succ fun fuel rest _ => ?_
  rw [write, readValue]
  rfl

theorem reads_bool (b : Bool) : Reads scalar (.bool b) := by
  refine .of_succ fun fuel rest _ => ?_
  rw [write, readValue]
  cases b <;> rfl

theorem reads_text (s : String) : Reads scalar (.text s) := by
  refine .of_succ fun fuel rest _ => ?_
  rw [write, toList_quote, List.cons_append, List.append_assoc, readValue, skipGap_cons rfl]
  exact congrArg (Option.map _) (readText_quote s rest)

theorem readValue_number {c : Char} (h : c.isDigit = true ∨ c = '-') (fuel : Nat) (cs : Chars) :
    (readValue (fuel + 1) (c :: cs) : Option (Value α × Chars)) = readNumber (c :: cs) := by
  have hmark : ∀ d : Char, d.isDigit = false ∧ d ≠ '-' → c ≠ d := by
    rintro d ⟨hdigit, hminus⟩ rfl
    exact h.elim (fun h => Bool.false_ne_true (hdigit.symm.trans h)) hminus
  have hgap : isGap c = false := by
    simp [isGap, hmark ' ' (by decide), hmark '\t' (by decide), hmark '\n' (by decide),
      hmark '\r' (by decide)]
  rw [readValue, skipGap_cons hgap]
  split
  case h_8 => rfl
  all_goals
    next hhead => exact absurd (List.cons.inj hhead).1 (hmark _ (by decide))

theorem reads_int (n : Int) : Reads scalar (.int n) := by
  refine .of_succ fun fuel rest hrest => ?_
  have hne : (toString n).toList ≠ [] := by
    rw [Notation.toList_toString, Nat.toString_eq_ofList_toDigits, String.toList_ofList]
    simp [Nat.toDigits_ne_nil]
  obtain ⟨c, cs, hcs⟩ := List.exists_cons_of_ne_nil hne
  have hc := Notation.mem_toString (n := n) (hcs ▸ List.mem_cons_self : c ∈ (toString n).toList)
  have hread := readNumber_toString (α := α) n hrest
  rw [hcs] at hread
  rw [write, hcs, List.cons_append, readValue_number hc]
  exact hread

theorem readItems_skipGap (fuel : Nat) (done : List (Value α)) (cs : Chars) :
    readItems fuel done (skipGap cs) = readItems fuel done cs := by
  cases fuel with
  | zero => rfl
  | succ fuel => rw [readItems, readItems, readValue_skipGap]

/-- An item is read with what follows it left. -/
theorem readItems_item {v : Value α} (h : Reads scalar v) (done : List (Value α)) {fuel : Nat}
    {cs : Chars} (hcs : Begins closing cs) (hfuel : 2 * (write scalar v).toList.length < fuel) :
    readItems (fuel + 1) done ((write scalar v).toList ++ cs) =
      match skipGap cs with
      | ',' :: r => readItems fuel (v :: done) r
      | ']' :: r => some (.list (v :: done).reverse, r)
      | _ => none := by
  have hitem := h fuel cs hcs hfuel
  rw [readItems]
  exact hitem ▸ rfl

/-- Items are read one after the other, up to the closing bracket. -/
theorem readItems_write {v : Value α} {vs : List (Value α)} (h : ∀ u ∈ v :: vs, Reads scalar u)
    (done : List (Value α)) (rest : Chars) (fuel : Nat)
    (hfuel : 2 * ((write scalar v).toList ++ behind (vs.map (write scalar))).length + 1 < fuel) :
    readItems fuel done ((write scalar v).toList ++ (behind (vs.map (write scalar)) ++ ']' :: rest)) =
      some (.list (done.reverse ++ v :: vs), rest) := by
  induction vs generalizing v done fuel with
  | nil =>
      obtain ⟨fuel, rfl⟩ := Nat.exists_eq_add_one_of_ne_zero (Nat.ne_zero_of_lt hfuel)
      have hend : skipGap (behind [] ++ ']' :: rest) = ']' :: rest := skipGap_cons rfl rest
      rw [List.length_append] at hfuel
      rw [List.map_nil, readItems_item (h v List.mem_cons_self) done
        (begins_behind [] (by decide) rest) (by omega), hend, List.reverse_cons]
      rfl
  | cons u us ih =>
      obtain ⟨fuel, rfl⟩ := Nat.exists_eq_add_one_of_ne_zero (Nat.ne_zero_of_lt hfuel)
      rw [List.length_append, List.map_cons, behind_cons, List.length_cons] at hfuel
      have hnext := ih (fun x hx => h x (List.mem_cons_of_mem v hx)) (v :: done) fuel (by omega)
      rw [List.reverse_cons, List.append_assoc, List.singleton_append] at hnext
      rw [readItems_item (h v List.mem_cons_self) done (begins_behind _ (by decide) rest) (by omega),
        List.map_cons, behind_cons, List.cons_append, List.append_assoc, skipGap_cons rfl]
      exact hnext

theorem readValue_list (fuel : Nat) (cs : Chars) :
    (readValue (fuel + 1) ('[' :: cs) : Option (Value α × Chars)) =
      match skipGap cs with
      | ']' :: r => some (.list [], r)
      | r => readItems fuel [] r := by
  rw [readValue, skipGap_cons rfl]
  rfl

theorem readValue_items {fuel : Nat} {cs : Chars} {vs : List (Value α)}
    (h : readItems fuel [] cs = some (.list vs, rest)) :
    readValue (fuel + 1) ('[' :: cs) = some (.list vs, rest) := by
  rw [← readItems_skipGap] at h
  rw [readValue_list]
  split
  · next r hbracket =>
      -- Nothing is read from a bracket on, but the items are.
      rw [hbracket] at h
      cases fuel with
      | zero => cases h
      | succ fuel =>
          rw [readItems, readValue_bracket] at h
          cases h
  · exact h

omit [Scalar α] in
theorem toList_write_list (v : Value α) (vs : List (Value α)) :
    (write scalar (.list (v :: vs))).toList =
      '[' :: ((write scalar v).toList ++ (behind (vs.map (write scalar)) ++ [']'])) := by
  have hopen : "[".toList = ['['] := rfl
  have hclose : "]".toList = [']'] := rfl
  rw [write, writeItems_eq, String.toList_append, String.toList_append, List.map_cons,
    toList_intercalate, List.append_assoc, List.append_assoc, hopen, hclose, List.singleton_append]

theorem reads_list {vs : List (Value α)} (h : ∀ v ∈ vs, Reads scalar v) :
    Reads scalar (.list vs) := by
  cases vs with
  | nil =>
      have htext : (write scalar (.list [])).toList = ['[', ']'] := by
        simp [write, writeItems]
      refine .of_succ fun fuel rest _ => ?_
      rw [htext]
      exact readValue_list fuel _
  | cons v vs =>
      intro fuel rest hrest hfuel
      obtain ⟨fuel, rfl⟩ := Nat.exists_eq_add_one_of_ne_zero (Nat.ne_zero_of_lt hfuel)
      rw [toList_write_list] at hfuel ⊢
      simp only [List.length_cons, List.length_append, List.length_nil] at hfuel
      simp only [List.cons_append, List.append_assoc, List.nil_append]
      refine readValue_items (readItems_write h [] rest fuel ?_)
      rw [List.length_append]
      omega

omit [Scalar α] in
theorem toList_writeField (field : String × Value α) : (writeField scalar field).toList =
    '"' :: (field.1.toList.flatMap escape ++ '"' :: ':' :: (write scalar field.2).toList) := by
  unfold writeField
  rw [String.toList_append, String.toList_append, toList_quote, List.append_assoc,
    List.cons_append, List.append_assoc]
  rfl

/-- A field is read with its name and its value; it takes the place of one of the same name. -/
theorem readFields_writeField {field : String × Value α} (h : Reads scalar field.2)
    (done : Fields α) {fuel : Nat} {cs : Chars} (hcs : Begins closing cs)
    (hfuel : 2 * (writeField scalar field).toList.length < fuel) :
    readFields (fuel + 1) done ((writeField scalar field).toList ++ cs) =
      match skipGap cs with
      | ',' :: r => readFields fuel (Ordered.put done field.1 field.2) r
      | '\x7d' :: r => some (.mapping (Ordered.put done field.1 field.2), r)
      | _ => none := by
  have hvalue := h fuel cs hcs (by
    rw [toList_writeField] at hfuel
    simp only [List.length_cons, List.length_append] at hfuel
    omega)
  rw [toList_writeField, readFields, List.cons_append, skipGap_cons rfl]
  simp only [List.append_assoc, List.cons_append, readText_quote,
    skipGap_cons (show isGap ':' = false from rfl)]
  exact hvalue ▸ rfl

omit [Scalar α] in
/-- A field under a new name is put behind those that are there. -/
theorem put_field {field : String × Value α} {done fields : Fields α}
    (h : ((done ++ field :: fields).map Prod.fst).Nodup) :
    Ordered.put done field.1 field.2 = done ++ [field] := by
  refine Ordered.put_of_not_mem (fun hmem => ?_) field.2
  rw [List.map_append, List.nodup_append] at h
  exact h.2.2 _ hmem _ List.mem_cons_self rfl

/-- Fields are read one after the other, up to the closing brace. -/
theorem readFields_write {field : String × Value α} {fields : Fields α}
    (h : ∀ f ∈ field :: fields, Reads scalar f.2) (done : Fields α)
    (hkeys : ((done ++ field :: fields).map Prod.fst).Nodup) (rest : Chars) (fuel : Nat)
    (hfuel : 2 * ((writeField scalar field).toList ++
      behind (fields.map (writeField scalar))).length + 1 < fuel) :
    readFields fuel done ((writeField scalar field).toList ++
      (behind (fields.map (writeField scalar)) ++ '\x7d' :: rest)) =
      some (.mapping (done ++ field :: fields), rest) := by
  induction fields generalizing field done fuel with
  | nil =>
      obtain ⟨fuel, rfl⟩ := Nat.exists_eq_add_one_of_ne_zero (Nat.ne_zero_of_lt hfuel)
      have hend : skipGap (behind [] ++ '\x7d' :: rest) = '\x7d' :: rest := skipGap_cons rfl rest
      rw [List.length_append] at hfuel
      rw [List.map_nil, readFields_writeField (h field List.mem_cons_self) done
        (begins_behind [] (by decide) rest) (by omega), hend, put_field hkeys]
      rfl
  | cons next fields ih =>
      obtain ⟨fuel, rfl⟩ := Nat.exists_eq_add_one_of_ne_zero (Nat.ne_zero_of_lt hfuel)
      rw [List.length_append, List.map_cons, behind_cons, List.length_cons] at hfuel
      have hsame : done ++ field :: next :: fields = (done ++ [field]) ++ next :: fields := by
        rw [List.append_assoc, List.singleton_append]
      have hnext := ih (fun f hf => h f (List.mem_cons_of_mem field hf)) (done ++ [field])
        (hsame ▸ hkeys) fuel (by omega)
      rw [readFields_writeField (h field List.mem_cons_self) done (begins_behind _ (by decide) rest)
        (by omega), List.map_cons, behind_cons, List.cons_append, List.append_assoc,
        skipGap_cons rfl, put_field hkeys, hsame]
      exact hnext

theorem readValue_mapping (fuel : Nat) (cs : Chars) :
    (readValue (fuel + 1) ('\x7b' :: cs) : Option (Value α × Chars)) =
      match skipGap cs with
      | '\x7d' :: r => some (.mapping [], r)
      | r => readFields fuel [] r := by
  rw [readValue, skipGap_cons rfl]
  rfl

omit [Scalar α] in
theorem toList_write_mapping (field : String × Value α) (fields : Fields α) :
    (write scalar (.mapping (field :: fields))).toList =
      '\x7b' :: ((writeField scalar field).toList ++
        (behind (fields.map (writeField scalar)) ++ ['\x7d'])) := by
  have hopen : "\x7b".toList = ['\x7b'] := rfl
  have hclose : "\x7d".toList = ['\x7d'] := rfl
  rw [write, writeFields_eq, String.toList_append, String.toList_append, List.map_cons,
    toList_intercalate, List.append_assoc, List.append_assoc, hopen, hclose, List.singleton_append]

theorem reads_mapping {fields : Fields α} (hkeys : (fields.map Prod.fst).Nodup)
    (h : ∀ field ∈ fields, Reads scalar field.2) : Reads scalar (.mapping fields) := by
  cases fields with
  | nil =>
      have htext : (write scalar (.mapping [])).toList = ['\x7b', '\x7d'] := by
        simp [write, writeFields]
      refine .of_succ fun fuel rest _ => ?_
      rw [htext]
      exact readValue_mapping fuel _
  | cons field fields =>
      intro fuel rest hrest hfuel
      obtain ⟨fuel, rfl⟩ := Nat.exists_eq_add_one_of_ne_zero (Nat.ne_zero_of_lt hfuel)
      rw [toList_write_mapping] at hfuel ⊢
      simp only [List.length_cons, List.length_append, List.length_nil] at hfuel
      have hread := readFields_write h [] hkeys rest fuel (by
        rw [List.length_append]
        omega)
      simp only [List.cons_append, List.append_assoc, List.nil_append] at hread ⊢
      rw [toList_writeField] at hread ⊢
      rw [readValue_mapping, List.cons_append, skipGap_cons rfl]
      exact hread

/-! ## §4  Documents -/

/-- Values that a text can hold: no field is written twice, and the caller's scalars are read. -/
inductive Writable (scalar : α → String) : Value α → Prop
  | null : Writable scalar .null
  | bool (b : Bool) : Writable scalar (.bool b)
  | int (n : Int) : Writable scalar (.int n)
  | real {x : α} : Reads scalar (.real x) → Writable scalar (.real x)
  | text (s : String) : Writable scalar (.text s)
  | list {vs : List (Value α)} : (∀ v ∈ vs, Writable scalar v) → Writable scalar (.list vs)
  | mapping {fields : Fields α} : (fields.map Prod.fst).Nodup →
      (∀ field ∈ fields, Writable scalar field.2) → Writable scalar (.mapping fields)

theorem Writable.reads {v : Value α} (h : Writable scalar v) : Reads scalar v := by
  induction h with
  | null => exact reads_null
  | bool b => exact reads_bool b
  | int n => exact reads_int n
  | real hx => exact hx
  | text s => exact reads_text s
  | list _ ih => exact reads_list ih
  | mapping hkeys _ ih => exact reads_mapping hkeys ih

/-- **What is written is read back.** -/
theorem read?_write {v : Value α} (h : Writable scalar v) : read? (write scalar v) = some v := by
  have hread := h.reads (2 * (write scalar v).toList.length + 2) [] .nil (by omega)
  rw [List.append_nil] at hread
  unfold read?
  dsimp only
  rw [hread]
  rfl

/-- Different values are written differently. -/
theorem write_injective {v w : Value α} (hv : Writable scalar v) (hw : Writable scalar w)
    (h : write scalar v = write scalar w) : v = w :=
  Option.some.inj ((read?_write hv).symm.trans (h ▸ read?_write hw))

end Values

end Partitura.Document

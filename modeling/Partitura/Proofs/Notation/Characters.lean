import Partitura.Proofs.Notation.Reading
import Partitura.Proofs.Number.Decimal

/-!
# The characters of a note

Every part of a note has a plain way to be written (§1). Its characters are digits and a few marks
(§2), which tells the parts of a text apart: the mark that begins a velocity or a probability stands
in no part before it, and the colon ends the name of a pitch (§3).
-/

namespace Partitura

namespace Text

theorem exists_zero {c : Char} {n : Nat} (h : digit? c = some n) :
    ∃ z ∈ zeros, c.toNat = z + n ∧ n < 10 := by
  unfold digit? at h
  obtain ⟨z, hz, rfl⟩ := Option.map_eq_some_iff.1 h
  have hbounds := List.find?_some hz
  simp only [Bool.and_eq_true, decide_eq_true_eq] at hbounds
  exact ⟨z, List.mem_of_find?_eq_some hz, by omega, by omega⟩

theorem isBlank_of_isDigit {c : Char} (h : isDigit c = true) : isBlank c = false := by
  obtain ⟨n, hn⟩ := Option.isSome_iff_exists.1 h
  obtain ⟨z, hz, hc, hlt⟩ := exists_zero hn
  have hblank : ∀ z ∈ zeros, ∀ n < 10, isBlank (Char.ofNat (z + n)) = false := by
    decide +kernel
  rw [← Char.ofNat_toNat c, hc]
  exact hblank z hz n hlt

theorem mem_of_mem_stripChars {c : Char} {cs : List Char} (h : c ∈ stripChars cs) : c ∈ cs := by
  unfold stripChars stripEnd at h
  have hreverse := (List.dropWhile_sublist _).mem (List.mem_reverse.1 h)
  exact (List.dropWhile_sublist _).mem (List.mem_reverse.1 hreverse)

theorem stripChars_of_not_blank {cs : List Char} (h : ∀ c ∈ cs, isBlank c = false) :
    stripChars cs = cs := by
  have hdrop : ∀ cs : List Char, (∀ c ∈ cs, isBlank c = false) → cs.dropWhile isBlank = cs := by
    intro cs hcs
    cases cs with
    | nil => rfl
    | cons c cs => rw [List.dropWhile_cons_of_neg (by simp [hcs c List.mem_cons_self])]
  unfold stripChars stripEnd
  rw [hdrop cs h, hdrop cs.reverse fun c hc => h c (List.mem_reverse.1 hc), List.reverse_reverse]

end Text

namespace Notation

/-! ## §1 The plain way to write a part -/

namespace Digits

def ofNat (n : Nat) : Digits where
  chars := Nat.toDigits 10 n
  ne_nil := Nat.toDigits_ne_nil
  isDigit c hc := Text.isDigit_of_isDigit (Nat.isDigit_of_mem_toDigits (by decide) (by decide) hc)

@[simp] theorem value_ofNat (n : Nat) : (ofNat n).value = n :=
  Text.valueOf_toDigits n

@[simp] theorem chars_ofNat (n : Nat) : (ofNat n).chars = (toString n).toList := by
  rw [Nat.toString_eq_ofList_toDigits, String.toList_ofList]
  rfl

end Digits

theorem toList_toString (n : Int) :
    (toString n).toList = (if n < 0 then ['-'] else []) ++ (toString n.natAbs).toList := by
  rw [Int.toString_eq_repr, Int.repr_eq_if]
  split
  · next h =>
      have habs : n.toNat = n.natAbs := by omega
      rw [if_neg (by omega), habs, List.nil_append, Nat.toString_eq_repr]
  · next h =>
      have habs : (-n).toNat = n.natAbs := by omega
      rw [if_pos (by omega), habs, String.toList_append, Nat.toString_eq_repr]
      rfl

theorem mem_toString {n : Int} {c : Char} (h : c ∈ (toString n).toList) :
    c.isDigit = true ∨ c = '-' := by
  rw [toList_toString, Nat.toString_eq_ofList_toDigits, String.toList_ofList] at h
  rcases List.mem_append.1 h with h | h
  · split at h
    · exact .inr (List.mem_singleton.1 h)
    · cases h
  · exact .inl (Nat.isDigit_of_mem_toDigits (by decide) (by decide) h)

theorem signed_natAbs (n : Int) : signed (n < 0) n.natAbs = n := by
  unfold signed
  split
  · next h =>
      have hneg : n < 0 := of_decide_eq_true h
      omega
  · next h =>
      have hnonneg : ¬ n < 0 := fun hneg => h (decide_eq_true hneg)
      omega

namespace Shift

def ofInt (n : Int) : Shift :=
  ⟨n < 0, .ofNat n.natAbs⟩

@[simp] theorem value_ofInt (n : Int) : (ofInt n).value = n := by
  unfold ofInt value
  rw [Digits.value_ofNat, signed_natAbs]

@[simp] theorem chars_ofInt (n : Int) : (ofInt n).chars = (signedText n ++ "ms").toList := by
  unfold ofInt chars signedText
  rw [Digits.chars_ofNat, String.toList_append, String.toList_append, toList_toString]
  by_cases h : n < 0 <;> simp [h]

end Shift

namespace ShortOctave

def ofInt (n : Int) (h : n.natAbs ≤ 9) : ShortOctave where
  negative := n < 0
  digit := n.natAbs.digitChar
  isDigit := Text.isDigit_of_isDigit (by
    have hmem : n.natAbs.digitChar ∈ Nat.toDigits 10 n.natAbs := by
      rw [Nat.toDigits_of_lt_base (by omega)]
      exact List.mem_singleton_self _
    exact Nat.isDigit_of_mem_toDigits (by decide) (by decide) hmem)

variable {n : Int} (h : n.natAbs ≤ 9)

theorem singleton_digit : [(ofInt n h).digit] = Nat.toDigits 10 n.natAbs :=
  (Nat.toDigits_of_lt_base (by omega)).symm

@[simp] theorem value_ofInt : (ofInt n h).value = n := by
  unfold value
  rw [singleton_digit, Text.valueOf_toDigits]
  exact signed_natAbs n

@[simp] theorem chars_ofInt : (ofInt n h).chars = (toString n).toList := by
  have hdigits : (toString n.natAbs).toList = [(ofInt n h).digit] := by
    rw [singleton_digit, Nat.toString_eq_ofList_toDigits, String.toList_ofList]
  rw [toList_toString, hdigits]
  unfold chars
  by_cases hneg : n < 0 <;> simp [ofInt, hneg]

theorem natAbs_value_le (o : ShortOctave) : o.value.natAbs ≤ 9 := by
  obtain ⟨n, hn⟩ := exists_digit o.isDigit
  obtain ⟨_, _, _, hlt⟩ := Text.exists_zero hn
  unfold value signed
  rw [valueOf_singleton hn]
  split <;> omega

end ShortOctave

/-! ## §2 The characters of a spelling -/

section

variable {c : Char}

theorem mem_figure {f : Figure} (h : c ∈ f.chars) : Text.isDigit c = true ∨ c = '.' := by
  rcases List.mem_append.1 h with h | h
  · exact .inl (f.isDigit c h)
  · split at h
    · rcases List.mem_cons.1 h with h | h
      · exact .inr h
      · exact .inl (f.back.isDigit c h)
    · exact .inl (f.back.isDigit c h)

theorem mem_loudness {l : Loudness} (h : c ∈ l.chars) :
    Text.isDigit c = true ∨ c ∈ ['.', 'p', 'm', 'f'] := by
  cases l with
  | figure f =>
      rcases mem_figure h with hdigit | rfl
      · exact .inl hdigit
      · exact .inr (by decide)
  | dynamic d =>
      right
      revert c
      cases d <;> decide

theorem mem_shift {s : Shift} (h : c ∈ s.chars) :
    Text.isDigit c = true ∨ c ∈ ['+', '-', 'm', 's'] := by
  rcases List.mem_cons.1 h with rfl | h
  · right
    split <;> decide
  · rcases List.mem_append.1 h with h | h
    · exact .inl (s.digits.isDigit c h)
    · have hunit : ∀ c ∈ ['m', 's'], c ∈ ['+', '-', 'm', 's'] := by decide
      exact .inr (hunit c h)

theorem mem_octave {o : ShortOctave} (h : c ∈ o.chars) : Text.isDigit c = true ∨ c = '-' := by
  unfold ShortOctave.chars at h
  split at h
  · rcases List.mem_cons.1 h with rfl | h
    · exact .inr rfl
    · exact .inl (List.mem_singleton.1 h ▸ o.isDigit)
  · exact .inl (List.mem_singleton.1 h ▸ o.isDigit)

theorem mem_glideMark {g : Bool} (h : c ∈ glideMark g) : c ∈ ['~', '>'] := by
  cases g with
  | true => exact h
  | false => cases h

theorem mem_ifGiven {β : Type} {f : β → Chars} {o : Option β} (h : c ∈ ifGiven f o) :
    ∃ x, o = some x ∧ c ∈ f x := by
  cases o with
  | none => cases h
  | some x => exact ⟨x, rfl, h⟩

namespace Spelling

/-- The text up to the velocity. -/
def front (s : Spelling) : Chars :=
  [s.letterChar] ++ s.accidental.chars ++ ifGiven ShortOctave.chars s.octave ++ [':'] ++
    s.code.text.toList ++ (if s.dotted then ['.'] else []) ++
    ifGiven (fun ds => 't' :: ds.chars) s.tuplet ++ s.articulation.text.toList ++ glideMark s.early

theorem chars_eq_front (s : Spelling) : s.chars = s.front ++ s.expression := by
  simp [chars, front, expression, delay, chance]

/-- The characters of a note up to the velocity, digits aside. -/
def frontMarks : List Char :=
  "abcdefgABCDEFG#-:whq.t*~>^".toList

theorem letterChar_mem (s : Spelling) : s.letterChar ∈ "abcdefgABCDEFG".toList := by
  unfold letterChar
  cases s.small <;> cases s.letter <;> decide

theorem mem_front {s : Spelling} (h : c ∈ s.front) :
    Text.isDigit c = true ∨ c ∈ frontMarks := by
  unfold front at h
  simp only [List.mem_append] at h
  rcases h with ((((((((hletter | haccidental) | hoctave) | hcolon) | hcode) | hdot) | htuplet) |
    harticulation) | hglide)
  · have hmarks : ∀ c ∈ "abcdefgABCDEFG".toList, c ∈ frontMarks := by decide
    exact .inr (hmarks c (List.mem_singleton.1 hletter ▸ s.letterChar_mem))
  · have hmarks : ∀ a : Accidental, ∀ c ∈ a.chars, c ∈ frontMarks := by
      intro a
      cases a <;> decide
    exact .inr (hmarks _ c haccidental)
  · obtain ⟨o, _, ho⟩ := mem_ifGiven hoctave
    rcases mem_octave ho with hdigit | rfl
    · exact .inl hdigit
    · exact .inr (by decide)
  · exact .inr (List.mem_singleton.1 hcolon ▸ by decide)
  · have hmarks : ∀ code : DurationCode, ∀ c ∈ code.text.toList,
        Text.isDigit c = true ∨ c ∈ frontMarks := by
      intro code
      cases code <;> decide
    exact hmarks _ c hcode
  · split at hdot
    · exact .inr (List.mem_singleton.1 hdot ▸ by decide)
    · cases hdot
  · obtain ⟨ds, _, hds⟩ := mem_ifGiven htuplet
    rcases List.mem_cons.1 hds with rfl | hds
    · exact .inr (by decide)
    · exact .inl (ds.isDigit c hds)
  · have hmarks : ∀ a : Articulation, ∀ c ∈ a.text.toList, c ∈ frontMarks := by
      intro a
      cases a <;> decide
    exact .inr (hmarks _ c harticulation)
  · have hmarks : ∀ c ∈ ['~', '>'], c ∈ frontMarks := by decide
    exact .inr (hmarks c (mem_glideMark hglide))

/-- The characters of a velocity and of a shift, digits aside. -/
def middleMarks : List Char :=
  ['@', '.', 'p', 'm', 'f', '+', '-', 's']

/-- The text of the velocity and of the shift. -/
def middle (s : Spelling) : Chars :=
  ifGiven (fun l => '@' :: l.chars) s.loudness ++ ifGiven Shift.chars s.shift

theorem expression_eq (s : Spelling) : s.expression = s.middle ++ s.chance := by
  simp [expression, middle, delay]

theorem mem_middle {s : Spelling} (h : c ∈ s.middle) :
    Text.isDigit c = true ∨ c ∈ middleMarks := by
  rcases List.mem_append.1 h with h | h
  · obtain ⟨l, _, hl⟩ := mem_ifGiven h
    have hmarks : ∀ c ∈ ['.', 'p', 'm', 'f'], c ∈ middleMarks := by decide
    rcases List.mem_cons.1 hl with rfl | hl
    · exact .inr (by decide)
    · exact (mem_loudness hl).imp_right (hmarks c)
  · obtain ⟨shift, _, hshift⟩ := mem_ifGiven h
    have hmarks : ∀ c ∈ ['+', '-', 'm', 's'], c ∈ middleMarks := by decide
    exact (mem_shift hshift).imp_right (hmarks c)

/-- A note has no blanks. -/
theorem isBlank_of_mem {s : Spelling} (h : c ∈ s.chars) : Text.isBlank c = false := by
  rw [chars_eq_front, expression_eq, List.mem_append, List.mem_append] at h
  have hfront : ∀ c ∈ frontMarks, Text.isBlank c = false := by decide
  have hmiddle : ∀ c ∈ middleMarks, Text.isBlank c = false := by decide
  rcases h with h | h | h
  · exact (mem_front h).elim Text.isBlank_of_isDigit (hfront c)
  · exact (mem_middle h).elim Text.isBlank_of_isDigit (hmiddle c)
  · rcases List.mem_append.1 h with h | h
    · obtain ⟨f, _, hf⟩ := mem_ifGiven h
      rcases List.mem_cons.1 hf with rfl | hf
      · rfl
      · rcases mem_figure hf with hdigit | rfl
        · exact Text.isBlank_of_isDigit hdigit
        · rfl
    · have hglide : ∀ c ∈ ['~', '>'], Text.isBlank c = false := by decide
      exact hglide c (mem_glideMark h)

theorem writes_ofList (s : Spelling) {text : String} (h : text.toList = s.chars) :
    s.Writes text := by
  unfold Writes
  rw [h, Text.stripChars_of_not_blank fun c => isBlank_of_mem]

end Spelling

end

/-! ## §3 Cutting a text at a mark -/

/-- What stands before and after the first of a mark. -/
theorem mark_unique {mark : Char} {xs ys xs' ys' : Chars}
    (h : xs ++ mark :: ys = xs' ++ mark :: ys') (hxs : mark ∉ xs) (hxs' : mark ∉ xs') :
    xs = xs' ∧ ys = ys' := by
  have hspan : ∀ xs ys : Chars, mark ∉ xs →
      (xs ++ mark :: ys).takeWhile (fun c => decide (c ≠ mark)) = xs ∧
      (xs ++ mark :: ys).dropWhile (fun c => decide (c ≠ mark)) = mark :: ys := by
    intro xs ys hxs
    refine span_append (fun c hc => ?_) ?_
    · exact decide_eq_true fun heq => hxs (heq ▸ hc)
    · rintro _ ⟨⟩
      simp
  obtain ⟨htake, hdrop⟩ := hspan xs ys hxs
  obtain ⟨htake', hdrop'⟩ := hspan xs' ys' hxs'
  rw [h] at htake hdrop
  exact ⟨htake.symm.trans htake', (List.cons.inj (hdrop.symm.trans hdrop')).2⟩

/-- A letter and an accidental hold no digit, and no colon. -/
theorem filter_name {l : Char} (hl : l ∈ "abcdefgABCDEFG".toList) (a : Accidental) (cs : Chars) :
    (l :: (a.chars ++ cs)).filter Text.isDigit = cs.filter Text.isDigit := by
  have hletters : ∀ l ∈ "abcdefgABCDEFG".toList, Text.isDigit l = false := by decide
  have ha : a.chars.filter Text.isDigit = [] := by cases a <;> rfl
  rw [List.filter_cons_of_neg (by simp [hletters l hl]), List.filter_append, ha, List.nil_append]

theorem colon_not_mem_name {l : Char} (hl : l ∈ "abcdefgABCDEFG".toList) (a : Accidental)
    {cs : Chars} (hcs : ∀ c ∈ cs, Text.isDigit c = true ∨ c = '-') :
    ':' ∉ l :: (a.chars ++ cs) := by
  have hletters : ∀ l ∈ "abcdefgABCDEFG".toList, ':' ≠ l := by decide
  have ha : ':' ∉ a.chars := by cases a <;> decide
  have hcolon : ':' ∉ cs := fun h => (hcs ':' h).elim (by decide) (by decide)
  simp [hletters l hl, ha, hcolon]

theorem valueOf_filter_octave (o : Int) :
    Text.valueOf ((toString o).toList.filter Text.isDigit) = o.natAbs := by
  have hsign : (if o < 0 then ['-'] else []).filter Text.isDigit = [] := by
    split <;> rfl
  have hdigits : (Nat.toDigits 10 o.natAbs).filter Text.isDigit = Nat.toDigits 10 o.natAbs :=
    List.filter_eq_self.2 fun c hc =>
      Text.isDigit_of_isDigit (Nat.isDigit_of_mem_toDigits (by decide) (by decide) hc)
  rw [toList_toString, List.filter_append, hsign, List.nil_append, Nat.toString_eq_ofList_toDigits,
    String.toList_ofList, hdigits, Text.valueOf_toDigits]

theorem ShortOctave.valueOf_le (o : Option ShortOctave) :
    Text.valueOf ((ifGiven ShortOctave.chars o).filter Text.isDigit) ≤ 9 := by
  cases o with
  | none => decide
  | some o =>
      obtain ⟨n, hn⟩ := exists_digit o.isDigit
      obtain ⟨_, _, _, hlt⟩ := Text.exists_zero hn
      have hminus : Text.isDigit '-' = false := rfl
      have hfilter : o.chars.filter Text.isDigit = [o.digit] := by
        unfold ShortOctave.chars
        split <;> simp [hminus, o.isDigit]
      rw [ifGiven, hfilter, valueOf_singleton hn]
      omega

end Notation

end Partitura

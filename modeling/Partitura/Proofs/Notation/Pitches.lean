import Partitura.Phrase.Context
import Partitura.Proofs.Computation
import Partitura.Proofs.Notation.Characters

/-!
# Pitches and their numbers

A name is read back from its text, and so is a pitch whatever its octave is. Its number determines its
sharp spelling. The pitches whose octave is told in one digit are those of the numbers from -96 to 131
(`natAbs_octave_ofMidi`).

Moving a pitch by octaves and by semitones moves its number by as much, in whatever way the pitch is
spelled (`placePitch_of_parse`). What comes out is a pitch again, so moves add up (`Context.place_adds`).
-/

namespace Partitura

open Notation

/-! ## §1  Names -/

theorem Letter.ofChar?_char (l : Letter) : Letter.ofChar? l.char = some l := by
  cases l <;> rfl

/-- An accidental is told apart from the digits or the minus sign of an octave. -/
theorem Accidental.read_append (a : Accidental) {cs : List Char}
    (h : ∀ c ∈ cs, Text.isDigit c = true ∨ c = '-') : Accidental.read (a.chars ++ cs) = (a, cs) := by
  cases a with
  | natural =>
      cases cs with
      | nil => rfl
      | cons c cs =>
          have hsharp : c ≠ '#' := by
            rintro rfl
            exact (h '#' List.mem_cons_self).elim (by decide) (by decide)
          have hflat : c ≠ 'b' := by
            rintro rfl
            exact (h 'b' List.mem_cons_self).elim (by decide) (by decide)
          simp [Accidental.chars, Accidental.read, hsharp, hflat]
  | sharp => rfl
  | flat => rfl

theorem Letter.char_mem (l : Letter) : l.char ∈ "abcdefgABCDEFG".toList := by
  cases l <;> decide

namespace PitchName

/-- Accidentals lead out of the octave by a semitone at most, and each way from one letter only. -/
theorem semitones_bounds (n : PitchName) : -1 ≤ n.semitones ∧ n.semitones ≤ 12 := by
  rcases n with ⟨letter, accidental⟩
  cases letter <;> cases accidental <;> decide

theorem eq_of_lowest {n : PitchName} (h : n.semitones = -1) : n = ⟨.c, .flat⟩ := by
  rcases n with ⟨letter, accidental⟩
  revert h
  cases letter <;> cases accidental <;> decide

theorem eq_of_highest {n : PitchName} (h : n.semitones = 12) : n = ⟨.b, .sharp⟩ := by
  rcases n with ⟨letter, accidental⟩
  revert h
  cases letter <;> cases accidental <;> decide

theorem ofText?_text (n : PitchName) : ofText? n.text = some n := by
  rcases n with ⟨letter, accidental⟩
  cases letter <;> cases accidental <;> rfl

theorem text_injective {m n : PitchName} (h : m.text = n.text) : m = n := by
  have hread := congrArg ofText? h
  rwa [ofText?_text, ofText?_text, Option.some.injEq] at hread

end PitchName

/-! ## §2  Texts and numbers -/

namespace Pitch

theorem toList_text (p : Pitch) :
    p.text.toList = p.name.letter.char :: (p.name.accidental.chars ++ (toString p.octave).toList) := by
  simp [text, PitchName.text]

theorem colon_not_mem_text (p : Pitch) : ':' ∉ p.text.toList := by
  rw [toList_text]
  exact colon_not_mem_name (Letter.char_mem _) _ fun c hc =>
    (mem_toString hc).imp_left Text.isDigit_of_isDigit

theorem readOctave?_toString (n : Int) : readOctave? (toString n).toList = some n := by
  have hisDigit : ∀ c ∈ Nat.toDigits 10 n.natAbs, Text.isDigit c = true := fun c hc =>
    Text.isDigit_of_isDigit (Nat.isDigit_of_mem_toDigits (by decide) (by decide) hc)
  have hnothing : ∀ c ∈ ([] : Chars).head?, Text.isDigit c = false := nofun
  obtain ⟨htake, hdrop⟩ := span_append hisDigit hnothing
  rw [List.append_nil] at htake hdrop
  obtain ⟨d, ds, hds⟩ := List.exists_cons_of_ne_nil (Nat.toDigits_ne_nil (n := n.natAbs) (b := 10))
  have hminus : d ≠ '-' := by
    rintro rfl
    exact absurd (hisDigit '-' (hds ▸ List.mem_cons_self)) (by decide)
  have hvalue := Text.valueOf_toDigits n.natAbs
  rw [toList_toString, Nat.toString_eq_ofList_toDigits, String.toList_ofList]
  rw [hds] at htake hdrop hvalue ⊢
  split
  · next hneg =>
      have hn : -(Text.valueOf (d :: ds) : Int) = n := by omega
      unfold readOctave?
      simp [htake, hdrop, hn]
  · next hnonneg =>
      have hn : (Text.valueOf (d :: ds) : Int) = n := by omega
      unfold readOctave?
      simp [htake, hdrop, hn, hminus]

theorem ofText?_text (p : Pitch) : ofText? p.text = some p := by
  have hoctave : ∀ c ∈ (toString p.octave).toList, Text.isDigit c = true ∨ c = '-' :=
    fun c hc => (mem_toString hc).imp_left Text.isDigit_of_isDigit
  unfold ofText?
  rw [toList_text]
  simp only [Letter.ofChar?_char, Accidental.read_append _ hoctave, readOctave?_toString,
    Option.bind_eq_bind, Option.bind_some]

theorem parse_text (p : Pitch) : parse p.text = .ok p := by
  unfold parse
  rw [ofText?_text]

theorem midiOf_text (p : Pitch) : midiOf p.text = .ok p.midi := by
  unfold midiOf
  rw [parse_text]
  rfl

theorem mapM_midiOf (ps : List Pitch) : (ps.map text).mapM midiOf = .ok (ps.map midi) := by
  rw [List.mapM_map]
  exact Outcome.mapM_eq_map fun p _ => midiOf_text p

/-- The sharp spelling of a number has that number. -/
theorem midi_ofMidi (n : Int) : (ofMidi n).midi = n := by
  have hsharps : ∀ k < 12, (PitchName.sharps.getD k ⟨.c, .natural⟩).semitones = k := by decide
  have hname := hsharps (n % 12).toNat (by omega)
  unfold midi ofMidi PitchName.ofClass octaveSize
  simp only
  rw [hname, Int.fdiv_eq_ediv_of_nonneg _ (by decide)]
  omega

/-- The octave of a number is told in one digit. -/
theorem natAbs_octave_ofMidi (n : Int) : (ofMidi n).octave.natAbs ≤ 9 ↔ -96 ≤ n ∧ n ≤ 131 := by
  unfold ofMidi octaveSize
  simp only
  rw [Int.fdiv_eq_ediv_of_nonneg _ (by decide)]
  omega

/-- A text that is read as a pitch is no drum. -/
theorem isDrum_of_parse {s : String} {p : Pitch} (h : parse s = .ok p) : Drum.isDrum s = false := by
  have hmarker : Drum.marker.toList = 'd' :: "rum:".toList := rfl
  unfold parse ofText? at h
  unfold Drum.isDrum
  cases hs : s.toList with
  | nil => rfl
  | cons l rest =>
      rw [hs] at h
      have hletter : l ≠ 'd' := by
        rintro rfl
        cases h
      rw [hmarker, List.isPrefixOf, beq_false_of_ne hletter.symm]
      rfl

/-! ## §3  Moving -/

variable {s : String} {p : Pitch}

/-- Octaves leave the name as it is. A spelling that the pitch itself would not choose is given up when it is
moved, and not before. -/
theorem shiftOctaveText_of_parse (h : parse s = .ok p) (octaves : Int) : ∃ s',
    shiftOctaveText s octaves = .ok s' ∧ parse s' = .ok { p with octave := p.octave + octaves } ∧
      (s = p.text → s' = ({ p with octave := p.octave + octaves } : Pitch).text) := by
  unfold shiftOctaveText
  split
  · next hzero =>
      subst hzero
      rw [Int.add_zero]
      exact ⟨s, rfl, h, id⟩
  · rw [h]
    exact ⟨_, rfl, parse_text _, fun _ => rfl⟩

theorem transposeText_of_parse (h : parse s = .ok p) (semitones : Int) : ∃ s' moved,
    transposeText s semitones = .ok s' ∧ parse s' = .ok moved ∧ moved.midi = p.midi + semitones ∧
      (s = p.text → s' = moved.text) := by
  unfold transposeText
  split
  · next hzero =>
      subst hzero
      exact ⟨s, p, rfl, h, (Int.add_zero _).symm, id⟩
  · unfold midiOf
    rw [h]
    exact ⟨_, ofMidi (p.midi + semitones), rfl, parse_text _, midi_ofMidi _, fun _ => rfl⟩

end Pitch

/-- A pitch that is moved by octaves and semitones is moved by their number. -/
theorem placePitch_of_parse {s : String} {p : Pitch} (h : Pitch.parse s = .ok p)
    (octaves semitones : Int) : ∃ s' moved,
      placePitch octaves semitones s = .ok s' ∧ Pitch.parse s' = .ok moved ∧
        moved.midi = p.midi + (semitones + octaveSize * octaves) ∧ (s = p.text → s' = moved.text) := by
  obtain ⟨shifted, hshifted, hparse, htext⟩ := Pitch.shiftOctaveText_of_parse h octaves
  obtain ⟨s', moved, hmoved, hparse', hmidi, htext'⟩ := Pitch.transposeText_of_parse hparse semitones
  refine ⟨s', moved, ?_, hparse', ?_, fun hs => htext' (htext hs)⟩
  · unfold placePitch
    rw [Pitch.isDrum_of_parse h, if_neg Bool.false_ne_true, hshifted]
    exact hmoved
  · rw [hmidi]
    unfold Pitch.midi octaveSize
    dsimp only
    omega

theorem placePitch_text (p : Pitch) (octaves semitones : Int) : ∃ moved : Pitch,
    placePitch octaves semitones p.text = .ok moved.text ∧
      moved.midi = p.midi + (semitones + octaveSize * octaves) := by
  obtain ⟨s', moved, hplaced, -, hmidi, htext⟩ :=
    placePitch_of_parse (Pitch.parse_text p) octaves semitones
  exact ⟨moved, htext rfl ▸ hplaced, hmidi⟩

/-! ## §4  Placing -/

namespace Context

variable {α : Type}

/-- One context within another: their offsets add up. -/
def within (c outer : Context α) : Context α :=
  { c with
    octaveOffset := c.octaveOffset + outer.octaveOffset
    transpose := c.transpose + outer.transpose }

theorem place_of_midiOf (c : Context α) {pitch : String} {n : Int} (h : Pitch.midiOf pitch = .ok n) :
    ∃ placed, c.place pitch = .ok placed ∧
      Pitch.midiOf placed = .ok (n + octaveSize * c.octaveOffset + c.transpose) := by
  obtain ⟨p, hp, hn⟩ := Outcome.bind_ok h
  obtain rfl := Outcome.pure_ok hn
  obtain ⟨placed, moved, hplaced, hmoved, hmidi, -⟩ :=
    placePitch_of_parse hp c.octaveOffset c.transpose
  have hsum : moved.midi = p.midi + octaveSize * c.octaveOffset + c.transpose := by omega
  refine ⟨placed, hplaced, ?_⟩
  unfold Pitch.midiOf
  rw [hmoved, ← hsum]
  rfl

/-- **Placing a pitch adds the offsets of the track to its number.** The text of a number is read back as
that number. Whatever text is read as a pitch, its number is moved by the octaves and the semitones of the
context, and the result is read as a pitch again: placed once more, it has the number that the sum of the
offsets gives. -/
theorem place_adds (α : Type) :
    (∀ m : Int, Pitch.midiOf (Pitch.textOfMidi m) = .ok m) ∧
    ∀ (c : Context α) (pitch : String) (n : Int), Pitch.midiOf pitch = .ok n →
      ∃ placed, c.place pitch = .ok placed ∧
        Pitch.midiOf placed = .ok (n + octaveSize * c.octaveOffset + c.transpose) ∧
        ∀ outer : Context α, ∃ again direct,
          outer.place placed = .ok again ∧ (c.within outer).place pitch = .ok direct ∧
          Pitch.midiOf again = .ok (n + octaveSize * (c.octaveOffset + outer.octaveOffset) +
            (c.transpose + outer.transpose)) ∧
          Pitch.midiOf direct = Pitch.midiOf again := by
  constructor
  · intro m
    exact (Pitch.midiOf_text _).trans (congrArg Except.ok (Pitch.midi_ofMidi m))
  · intro c pitch n h
    obtain ⟨placed, hplaced, hmidi⟩ := c.place_of_midiOf h
    refine ⟨placed, hplaced, hmidi, fun outer => ?_⟩
    obtain ⟨again, hagain, hmidi'⟩ := outer.place_of_midiOf hmidi
    obtain ⟨direct, hdirect, hsum⟩ := (c.within outer).place_of_midiOf h
    have hnumber : n + octaveSize * c.octaveOffset + c.transpose + octaveSize * outer.octaveOffset +
        outer.transpose = n + octaveSize * (c.octaveOffset + outer.octaveOffset) +
          (c.transpose + outer.transpose) := by
      rw [Int.mul_add]
      omega
    rw [hnumber] at hmidi'
    exact ⟨again, direct, hagain, hdirect, hmidi', hsum.trans hmidi'.symm⟩

/-- The theorem at work: B sharp sounds like C of the octave above. Down an octave it keeps its name, and a
semitone below that lies B. -/
theorem bSharp_placed : ∃ c outer : Context Rat, Pitch.midiOf "B#-1" = .ok 12 ∧
    c.place "B#-1" = .ok "B#-2" ∧ Pitch.midiOf "B#-2" = .ok 0 ∧
    outer.place "B#-2" = .ok "B-2" ∧ Pitch.midiOf "B-2" = .ok (-1) := by
  let c : Context Rat := ⟨⟨⟨.c, .natural⟩, .major⟩, 120, [], 1, -1, 0, none, 0⟩
  let outer : Context Rat := ⟨⟨⟨.c, .natural⟩, .major⟩, 120, [], 1, 0, -1, none, 0⟩
  have hread : Pitch.midiOf "B#-1" = .ok 12 := by decide +kernel
  have hplaced : c.place "B#-1" = .ok "B#-2" := by decide +kernel
  have hagain : outer.place "B#-2" = .ok "B-2" := by decide +kernel
  obtain ⟨placed, hplaced', hmidi, hfurther⟩ := (place_adds Rat).2 c "B#-1" 12 hread
  obtain rfl := Except.ok.inj (hplaced.symm.trans hplaced')
  obtain ⟨again, -, hagain', -, hsum, -⟩ := hfurther outer
  obtain rfl := Except.ok.inj (hagain.symm.trans hagain')
  exact ⟨c, outer, hread, hplaced, hmidi, hagain, hsum⟩

end Context

end Partitura

import Mathlib.Order.Hom.Basic
import Partitura.Harmony.Key
import Partitura.Proofs.Notation.Pitches

/-!
# Degrees count the tones of a key

A degree is a place in the scale and a number of whole octaves (`tone_place`, `exists_place`). Within an
octave the steps of a mode ascend from the root and stay below the next one, so a later degree is a higher
tone, also where the scale begins again (`tone_lt_tone`). A number belongs to a key if what it lies above
the root, octaves apart, is a step of the mode (`mem_pitchClasses_iff`), and then its step and its octaves
tell its degree (`exists_tone`).

So the degrees from 1 on are the tones of the key from the root upward, in order and without a gap
(`degrees_orderIso`). The root may lie outside the octave it is written in, as C flat does.
-/

namespace Partitura

namespace Mode

theorem steps_ascend (m : Mode) : m.steps.Pairwise (· < ·) := by
  cases m <;> decide

theorem steps_bounds (m : Mode) : ∀ s ∈ m.steps, 0 ≤ s ∧ s < octaveSize := by
  cases m <;> decide

theorem steps_length_pos (m : Mode) : 0 < m.steps.length := by
  cases m <;> decide

end Mode

namespace Key

variable {k : Key} {octave d e n : Int}

/-- The number of the root in an octave. -/
def rootMidi (k : Key) (octave : Int) : Int :=
  (⟨k.root, octave⟩ : Pitch).midi

/-! ## §1  Places in the scale -/

/-- A place in a lower octave comes before all places of a higher one. -/
theorem place_lt_place {size i : Nat} (hi : i < size) (j : Nat) {octaves octaves' : Int}
    (h : octaves < octaves') : i + octaves * size < j + octaves' * size := by
  have hmul := Int.mul_le_mul_of_nonneg_right (Int.add_one_le_of_lt h) (Int.natCast_nonneg size)
  rw [Int.add_mul] at hmul
  omega

/-- From the root up the scale, and then by whole octaves. -/
theorem tone_place (k : Key) (octave octaves : Int) {i : Nat} (hi : i < k.mode.steps.length) :
    k.tone (i + octaves * k.mode.steps.length + 1) octave =
      k.rootMidi octave + k.mode.steps[i] + octaves * octaveSize := by
  have hsize : (k.mode.steps.length : Int) ≠ 0 := by omega
  have hwraps : (i + octaves * k.mode.steps.length) / (k.mode.steps.length : Int) = octaves := by
    rw [Int.add_mul_ediv_right _ _ hsize, Int.ediv_eq_zero_of_lt (by omega) (by omega),
      Int.zero_add]
  have hindex : (i + octaves * k.mode.steps.length) % (k.mode.steps.length : Int) = i := by
    rw [Int.add_mul_emod_self_right, Int.emod_eq_of_lt (by omega) (by omega)]
  unfold tone rootMidi
  dsimp only
  rw [Int.add_sub_cancel, hwraps, hindex, Int.toNat_natCast, List.getD, List.getElem?_eq_getElem hi,
    Option.getD_some]

theorem exists_place (k : Key) (d : Int) : ∃ (i : Nat) (octaves : Int),
    i < k.mode.steps.length ∧ d = i + octaves * k.mode.steps.length + 1 := by
  have hpos := k.mode.steps_length_pos
  have hnonneg : 0 ≤ (d - 1) % (k.mode.steps.length : Int) := Int.emod_nonneg _ (by omega)
  have hlt : (d - 1) % (k.mode.steps.length : Int) < k.mode.steps.length :=
    Int.emod_lt_of_pos _ (by omega)
  have hdivision := Int.emod_add_ediv_mul (d - 1) k.mode.steps.length
  exact ⟨((d - 1) % (k.mode.steps.length : Int)).toNat, (d - 1) / k.mode.steps.length,
    by omega, by omega⟩

/-- A whole scale further up, the same tone an octave higher. -/
theorem tone_add_length (k : Key) (octave d : Int) :
    k.tone (d + k.mode.steps.length) octave = k.tone d octave + octaveSize := by
  obtain ⟨i, octaves, hi, rfl⟩ := k.exists_place d
  have hnext : i + octaves * k.mode.steps.length + 1 + (k.mode.steps.length : Int) =
      i + (octaves + 1) * k.mode.steps.length + 1 := by
    rw [Int.add_mul]
    omega
  rw [hnext, tone_place k octave _ hi, tone_place k octave _ hi, Int.add_mul]
  omega

/-- A later degree is a higher tone: within an octave the steps ascend, and no step leads out of it. -/
theorem tone_lt_tone (k : Key) (octave : Int) (h : d < e) : k.tone d octave < k.tone e octave := by
  obtain ⟨i, octaves, hi, rfl⟩ := k.exists_place d
  obtain ⟨j, octaves', hj, rfl⟩ := k.exists_place e
  rw [tone_place k octave _ hi, tone_place k octave _ hj]
  obtain ⟨hi0, hi12⟩ := k.mode.steps_bounds _ (List.getElem_mem hi)
  obtain ⟨hj0, hj12⟩ := k.mode.steps_bounds _ (List.getElem_mem hj)
  rcases Int.lt_trichotomy octaves octaves' with hlt | rfl | hgt
  · unfold octaveSize at *
    omega
  · have hascend := List.pairwise_iff_getElem.1 k.mode.steps_ascend i j hi hj (by omega)
    omega
  · have hbefore := place_lt_place hj i hgt
    omega

theorem tone_le_tone_iff (k : Key) (octave : Int) :
    k.tone d octave ≤ k.tone e octave ↔ d ≤ e := by
  constructor
  · intro h
    by_contra hgt
    exact absurd h (Int.not_le.2 (k.tone_lt_tone octave (Int.not_le.1 hgt)))
  · intro h
    rcases Int.le_iff_lt_or_eq.1 h with hlt | rfl
    · exact Int.le_of_lt (k.tone_lt_tone octave hlt)
    · exact Int.le_refl _

/-! ## §2  Tones of the key -/

theorem rootMidi_class (k : Key) (octave : Int) : k.rootMidi octave % octaveSize = k.rootClass :=
  Int.mul_add_emod_self_right ..

/-- A number belongs to a key if it lies a step of the mode above the root, octaves apart. -/
theorem mem_pitchClasses_iff (k : Key) (octave n : Int) :
    n % octaveSize ∈ k.pitchClasses ↔ (n - k.rootMidi octave) % octaveSize ∈ k.mode.steps := by
  have hroot := k.rootMidi_class octave
  unfold pitchClasses
  rw [List.mem_map]
  unfold octaveSize at hroot ⊢
  constructor
  · rintro ⟨s, hs, hclass⟩
    obtain ⟨h0, h12⟩ := k.mode.steps_bounds s hs
    unfold octaveSize at h12
    have hstep : (n - k.rootMidi octave) % 12 = s := by omega
    exact hstep.symm ▸ hs
  · intro hs
    exact ⟨_, hs, by omega⟩

/-- A tone of the key, from the root of an octave upward. -/
def IsTone (k : Key) (octave n : Int) : Prop :=
  k.rootMidi octave ≤ n ∧ n % octaveSize ∈ k.pitchClasses

theorem isTone_tone (k : Key) (octave : Int) (h : 1 ≤ d) : k.IsTone octave (k.tone d octave) := by
  obtain ⟨i, octaves, hi, rfl⟩ := k.exists_place d
  have hoctaves : 0 ≤ octaves := by
    by_contra hneg
    have hbefore := place_lt_place hi 0 (Int.not_le.1 hneg)
    omega
  have hmem := List.getElem_mem hi
  obtain ⟨h0, h12⟩ := k.mode.steps_bounds _ hmem
  rw [tone_place k octave _ hi]
  constructor
  · unfold octaveSize
    omega
  · have hstep : (k.rootMidi octave + k.mode.steps[i] + octaves * octaveSize - k.rootMidi octave) %
        octaveSize = k.mode.steps[i] := by
      unfold octaveSize at *
      omega
    rw [k.mem_pitchClasses_iff octave, hstep]
    exact hmem

/-- Every tone of the key from the root upward has a degree. -/
theorem exists_tone (h : k.IsTone octave n) : ∃ d, 1 ≤ d ∧ k.tone d octave = n := by
  obtain ⟨hroot, hclass⟩ := h
  rw [k.mem_pitchClasses_iff octave] at hclass
  obtain ⟨i, hi, hstep⟩ := List.getElem_of_mem hclass
  have hoctaves : 0 ≤ (n - k.rootMidi octave) / octaveSize :=
    Int.ediv_nonneg (by omega) (by decide)
  refine ⟨i + (n - k.rootMidi octave) / octaveSize * k.mode.steps.length + 1, ?_, ?_⟩
  · have hmul := Int.mul_nonneg hoctaves (Int.natCast_nonneg k.mode.steps.length)
    omega
  · rw [tone_place k octave _ hi, hstep]
    have hdivision := Int.emod_add_ediv_mul (n - k.rootMidi octave) octaveSize
    omega

/-! ## §3  The isomorphism -/

theorem degreeMidi_of_pos (k : Key) (shown : String) (octave : Int) (h : 1 ≤ d) :
    k.degreeMidi shown { number := d } octave = .ok (k.tone d octave) := by
  unfold degreeMidi
  rw [if_neg (Int.not_lt.2 h)]
  simp

theorem midiOf_root (k : Key) (octave : Int) :
    Pitch.midiOf (k.root.text ++ toString octave) = .ok (k.rootMidi octave) :=
  Pitch.midiOf_text ⟨k.root, octave⟩

/-- The tone of each degree from 1 on. -/
def toneFrom (k : Key) (octave : Int) (d : {d : Int // 1 ≤ d}) : {n : Int // k.IsTone octave n} :=
  ⟨k.tone d octave, k.isTone_tone octave d.2⟩

theorem toneFrom_bijective (k : Key) (octave : Int) : Function.Bijective (k.toneFrom octave) := by
  constructor
  · intro d e h
    have htone : k.tone d octave = k.tone e octave := congrArg Subtype.val h
    apply Subtype.ext
    exact Int.le_antisymm ((k.tone_le_tone_iff octave).1 (Int.le_of_eq htone))
      ((k.tone_le_tone_iff octave).1 (Int.le_of_eq htone.symm))
  · rintro ⟨n, hn⟩
    obtain ⟨d, hd, htone⟩ := exists_tone hn
    exact ⟨⟨d, hd⟩, Subtype.ext htone⟩

/-- **The degrees of a key are its tones from the root upward.** In every octave the degrees 1, 2, 3, …
without accidentals and shifts correspond, order and all, to the numbers from that of the root on whose
class belongs to the scale. A whole scale further on lies the same tone, an octave higher. -/
theorem degrees_orderIso (k : Key) (octave : Int) :
    ∃ root, Pitch.midiOf (k.root.text ++ toString octave) = .ok root ∧
      ∃ tones : {d : Int // 1 ≤ d} ≃o {n : Int // root ≤ n ∧ n % octaveSize ∈ k.pitchClasses},
        ∀ (d : {d : Int // 1 ≤ d}) (shown : String),
          k.degreeMidi shown { number := d } octave = .ok (tones d : Int) ∧
          k.degreeMidi shown { number := d + k.mode.steps.length } octave =
            .ok (tones d + octaveSize : Int) := by
  refine ⟨k.rootMidi octave, k.midiOf_root octave,
    ⟨Equiv.ofBijective (k.toneFrom octave) (k.toneFrom_bijective octave),
      k.tone_le_tone_iff octave⟩, ?_⟩
  intro d shown
  have hd : 1 ≤ (d : Int) := d.2
  constructor
  · exact k.degreeMidi_of_pos shown octave hd
  · rw [k.degreeMidi_of_pos shown octave (by omega), k.tone_add_length octave]
    rfl

/-- C flat lies below the octave it is written in, and so does the whole scale. -/
example : (⟨⟨.c, .flat⟩, .major⟩ : Key).degreeMidi "8" { number := 8 } 4 = .ok 71 := rfl

end Key

end Partitura

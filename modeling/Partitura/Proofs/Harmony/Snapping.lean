import Partitura.Harmony.Key
import Partitura.Proofs.Notation.Pitches

/-!
# Snapping pitches to a key

Snapping looks outward from a pitch, one semitone further at a time, and above the pitch before below it.
What such a search comes to is told by `Finds`, and the search of snapping is the one that begins at the
pitch itself (`quantizePitch_finds`). So a snapped number is the nearest one of its classes, the upper one
of two, and a number that is out of reach of all of them stays (`quantizePitch_nearest`).

Every class lies within half an octave of every pitch, so looking six semitones far is enough to find a
tone of any scale (`class_quantizePitch`), and a snapped pitch always belongs to its key
(`Key.inScale_snap`).
-/

namespace Partitura

namespace Snapping

variable {pitch maxDistance : Int} {classes : List Int}

/-! ## §1  Looking outward -/

/-- Nothing is found so far from a pitch, neither above it nor below. -/
def Misses (classes : List Int) (pitch : Int) (d : Nat) : Prop :=
  (pitch + d) % octaveSize ∉ classes ∧ (pitch - d) % octaveSize ∉ classes

/-- What a search comes to that looks at so many distances, from `distance` on. -/
inductive Finds (classes : List Int) (pitch : Int) (distance more : Nat) : Int → Prop
  | above {d : Nat} (hfrom : distance ≤ d) (hto : d < distance + more)
      (hnearer : ∀ e, distance ≤ e → e < d → Misses classes pitch e)
      (hfound : (pitch + d) % octaveSize ∈ classes) : Finds classes pitch distance more (pitch + d)
  | below {d : Nat} (hfrom : distance ≤ d) (hto : d < distance + more)
      (hnearer : ∀ e, distance ≤ e → e < d → Misses classes pitch e)
      (habove : (pitch + d) % octaveSize ∉ classes)
      (hfound : (pitch - d) % octaveSize ∈ classes) : Finds classes pitch distance more (pitch - d)
  | nothing (hmisses : ∀ e, distance ≤ e → e < distance + more → Misses classes pitch e) :
      Finds classes pitch distance more pitch

/-- A search may begin one semitone nearer if nothing is found there. -/
theorem Finds.from_nearer {distance more : Nat} {n : Int} (hmiss : Misses classes pitch distance)
    (h : Finds classes pitch (distance + 1) more n) : Finds classes pitch distance (more + 1) n := by
  have hearlier {d : Nat} (hd : ∀ e, distance + 1 ≤ e → e < d → Misses classes pitch e) :
      ∀ e, distance ≤ e → e < d → Misses classes pitch e := by
    intro e hfrom hto
    rcases hfrom.eq_or_lt with rfl | hlt
    · exact hmiss
    · exact hd e hlt hto
  cases h with
  | above hfrom hto hnearer hfound => exact .above (by omega) (by omega) (hearlier hnearer) hfound
  | below hfrom hto hnearer habove hfound =>
      exact .below (by omega) (by omega) (hearlier hnearer) habove hfound
  | nothing hmisses =>
      exact .nothing fun e hfrom hto => hearlier hmisses e hfrom (by omega)

/-- By induction on how much further the search may go. -/
theorem nearestOutward_finds (pitch : Int) (classes : List Int) (distance more : Nat) :
    Finds classes pitch distance more (nearestOutward pitch classes distance more) := by
  induction more generalizing distance with
  | zero => exact .nothing fun e hfrom hto => by omega
  | succ more ih =>
      have hnearer : ∀ e, distance ≤ e → e < distance → Misses classes pitch e :=
        fun e hfrom hto => absurd hto (Nat.not_lt.2 hfrom)
      unfold nearestOutward
      split
      · next habove => exact .above le_rfl (by omega) hnearer (List.contains_iff_mem.1 habove)
      · next habove =>
          rw [List.contains_iff_mem] at habove
          split
          · next hbelow => exact .below le_rfl (by omega) hnearer habove (List.contains_iff_mem.1 hbelow)
          · next hbelow =>
              rw [List.contains_iff_mem] at hbelow
              exact (ih (distance + 1)).from_nearer ⟨habove, hbelow⟩

/-- A pitch of the scale is what is found no semitone away. -/
theorem quantizePitch_eq (pitch : Int) (classes : List Int) (maxDistance : Int) :
    quantizePitch pitch classes maxDistance =
      nearestOutward pitch classes 0 (maxDistance + 1).toNat := by
  unfold quantizePitch
  cases hmore : (maxDistance + 1).toNat with
  | zero =>
      have hnone : maxDistance.toNat = 0 := by omega
      rw [hnone]
      exact ite_self pitch
  | succ more =>
      have hmore' : maxDistance.toNat = more := by omega
      rw [hmore', nearestOutward]
      simp only [Int.natCast_zero, Int.add_zero, Int.sub_zero, Nat.zero_add]
      split
      · rfl
      · rfl

theorem quantizePitch_finds (pitch : Int) (classes : List Int) (maxDistance : Int) :
    Finds classes pitch 0 (maxDistance + 1).toNat (quantizePitch pitch classes maxDistance) := by
  rw [quantizePitch_eq]
  exact nearestOutward_finds pitch classes 0 _

/-! ## §2  The nearest number -/

/-- A number of one of the classes, no more semitones away from a pitch than allowed. -/
def InReach (classes : List Int) (pitch maxDistance n : Int) : Prop :=
  n % octaveSize ∈ classes ∧ ((n - pitch).natAbs : Int) ≤ maxDistance

/-- Of all numbers in reach none is nearer, and none that is as near lies higher. -/
structure IsNearest (classes : List Int) (pitch maxDistance n : Int) : Prop where
  inReach : InReach classes pitch maxDistance n
  nearest : ∀ m, InReach classes pitch maxDistance m → (n - pitch).natAbs ≤ (m - pitch).natAbs
  upper : ∀ m, InReach classes pitch maxDistance m → (m - pitch).natAbs = (n - pitch).natAbs → m ≤ n

/-- A number of one of the classes is found where it lies, on either side. -/
theorem not_misses {m : Int} (h : m % octaveSize ∈ classes) :
    ¬ Misses classes pitch (m - pitch).natAbs := by
  rintro ⟨habove, hbelow⟩
  rcases Int.le_total pitch m with hle | hle
  · have hm : pitch + ((m - pitch).natAbs : Int) = m := by omega
    exact habove (hm.symm ▸ h)
  · have hm : pitch - ((m - pitch).natAbs : Int) = m := by omega
    exact hbelow (hm.symm ▸ h)

/-- So nothing lies nearer than where a search from the pitch itself ends. -/
theorem le_natAbs_of_misses {d : Nat} (hnearer : ∀ e, 0 ≤ e → e < d → Misses classes pitch e) {m : Int}
    (h : m % octaveSize ∈ classes) : d ≤ (m - pitch).natAbs := by
  by_contra hlt
  exact not_misses h (hnearer _ (Nat.zero_le _) (not_le.1 hlt))

/-- A search from the pitch itself comes to the nearest number, or there is none. -/
theorem Finds.isNearest {n : Int} (h : Finds classes pitch 0 (maxDistance + 1).toNat n) :
    IsNearest classes pitch maxDistance n ∨
      (∀ m, ¬ InReach classes pitch maxDistance m) ∧ n = pitch := by
  cases h with
  | @above d hfrom hto hnearer hfound =>
      left
      refine ⟨⟨hfound, by omega⟩, fun m hm => ?_, fun m hm hsame => by omega⟩
      have hle := le_natAbs_of_misses hnearer hm.1
      omega
  | @below d hfrom hto hnearer habove hfound =>
      left
      refine ⟨⟨hfound, by omega⟩, fun m hm => ?_, fun m hm hsame => ?_⟩
      · have hle := le_natAbs_of_misses hnearer hm.1
        omega
      · -- The number as far above is of no class.
        have hother : m ≠ pitch + d := by
          rintro rfl
          exact habove hm.1
        omega
  | nothing hmisses =>
      right
      refine ⟨fun m hm => ?_, rfl⟩
      have hle := le_natAbs_of_misses hmisses hm.1
      have hreach := hm.2
      omega

theorem quantizePitch_isNearest (pitch : Int) (classes : List Int) (maxDistance : Int) :
    IsNearest classes pitch maxDistance (quantizePitch pitch classes maxDistance) ∨
      (∀ m, ¬ InReach classes pitch maxDistance m) ∧
        quantizePitch pitch classes maxDistance = pitch :=
  (quantizePitch_finds pitch classes maxDistance).isNearest

/-- A number of one of the classes is snapped to itself. -/
theorem quantizePitch_of_mem (h : pitch % octaveSize ∈ classes) :
    quantizePitch pitch classes maxDistance = pitch :=
  if_pos (List.contains_iff_mem.2 h)

/-! ## §3  Half an octave -/

/-- Half an octave either way reaches every class. -/
theorem exists_inReach (pitch : Int) (hfar : 6 ≤ maxDistance) {pc : Int} (hpc : pc ∈ classes)
    (h0 : 0 ≤ pc) (h12 : pc < octaveSize) : ∃ n, InReach classes pitch maxDistance n := by
  unfold InReach
  unfold octaveSize at h12 ⊢
  rcases Int.le_total ((pc - pitch) % 12) 6 with h | h
  · have hclass : (pitch + (pc - pitch) % 12) % 12 = pc := by omega
    exact ⟨pitch + (pc - pitch) % 12, hclass.symm ▸ hpc, by omega⟩
  · have hclass : (pitch - (pitch - pc) % 12) % 12 = pc := by omega
    exact ⟨pitch - (pitch - pc) % 12, hclass.symm ▸ hpc, by omega⟩

/-- **A pitch that may be moved half an octave comes to one of the classes**, if there are any. -/
theorem class_quantizePitch (hfar : 6 ≤ maxDistance) {pc : Int} (hpc : pc ∈ classes) (h0 : 0 ≤ pc)
    (h12 : pc < octaveSize) : quantizePitch pitch classes maxDistance % octaveSize ∈ classes := by
  obtain ⟨m, hm⟩ := exists_inReach pitch hfar hpc h0 h12
  rcases quantizePitch_isNearest pitch classes maxDistance with hnearest | ⟨hnone, -⟩
  · exact hnearest.inReach.1
  · exact absurd hm (hnone m)

/-- **Snapping takes a pitch to the nearest number of the classes within the distance**, to the upper one
of two, and leaves it where it is if there is none. What has been snapped stays. Six semitones are enough
to come to one of the classes, if there are any. -/
theorem quantizePitch_nearest (pitch : Int) (classes : List Int) (maxDistance : Int)
    (hclasses : ∀ pc ∈ classes, 0 ≤ pc ∧ pc < octaveSize) :
    ((∃ n, InReach classes pitch maxDistance n) →
      IsNearest classes pitch maxDistance (quantizePitch pitch classes maxDistance)) ∧
    ((¬ ∃ n, InReach classes pitch maxDistance n) →
      quantizePitch pitch classes maxDistance = pitch) ∧
    quantizePitch (quantizePitch pitch classes maxDistance) classes maxDistance =
      quantizePitch pitch classes maxDistance ∧
    (6 ≤ maxDistance → classes ≠ [] →
      quantizePitch pitch classes maxDistance % octaveSize ∈ classes) := by
  have hsnapped := quantizePitch_isNearest pitch classes maxDistance
  refine ⟨fun ⟨m, hm⟩ => ?_, fun hnone => ?_, ?_, fun hfar hsome => ?_⟩
  · exact hsnapped.resolve_right fun hnone => hnone.1 m hm
  · exact (hsnapped.resolve_left fun hnearest => hnone ⟨_, hnearest.inReach⟩).2
  · rcases hsnapped with hnearest | ⟨-, hstays⟩
    · exact quantizePitch_of_mem hnearest.inReach.1
    · rw [hstays, hstays]
  · obtain ⟨pc, hpc⟩ := List.exists_mem_of_ne_nil classes hsome
    obtain ⟨h0, h12⟩ := hclasses pc hpc
    exact class_quantizePitch hfar hpc h0 h12

/-- The theorem at work: C sharp lies between C and D, and D is taken; G is too far away for it. -/
theorem cSharp_snapped : (∀ pc ∈ [0, 2, 4], 0 ≤ pc ∧ pc < octaveSize) ∧
    (∃ n, InReach [0, 2, 4] (-11) 6 n) ∧ (6 : Int) ≤ 6 ∧ [0, 2, (4 : Int)] ≠ [] ∧
    IsNearest [0, 2, 4] (-11) 6 (-10) ∧ (-10) % octaveSize ∈ [0, 2, (4 : Int)] ∧
    (∀ pc ∈ [7], 0 ≤ pc ∧ pc < octaveSize) ∧ (¬ ∃ n, InReach [7] 61 2 n) ∧
    quantizePitch 61 [7] 2 = 61 := by
  have hclasses : ∀ pc ∈ [0, 2, 4], 0 ≤ pc ∧ pc < octaveSize := by decide
  have hreach : ∃ n, InReach [0, 2, 4] (-11) 6 n := ⟨-12, by decide, by decide⟩
  have hfar : (6 : Int) ≤ 6 := Int.le_refl 6
  have hsome : [0, 2, (4 : Int)] ≠ [] := by decide
  have hclass : ∀ pc ∈ [7], 0 ≤ pc ∧ pc < octaveSize := by decide
  have hnone : ¬ ∃ n, InReach [7] 61 2 n := by
    rintro ⟨n, hn, hnear⟩
    rw [List.mem_singleton, octaveSize] at hn
    omega
  have hsnapped : quantizePitch (-11) [0, 2, 4] 6 = -10 := by decide
  obtain ⟨hnearest, -, -, hinside⟩ := quantizePitch_nearest (-11) [0, 2, 4] 6 hclasses
  rw [hsnapped] at hnearest hinside
  exact ⟨hclasses, hreach, hfar, hsome, hnearest hreach, hinside hfar hsome, hclass, hnone,
    (quantizePitch_nearest 61 [7] 2 hclass).2.1 hnone⟩

end Snapping

/-! ## §4  Keys -/

namespace Key

/-- The root is a tone of every scale. -/
theorem rootClass_mem (k : Key) : k.rootClass ∈ k.pitchClasses := by
  have hroot : ∀ m : Mode, 0 ∈ m.steps := by
    intro m
    cases m <;> decide
  refine List.mem_map.2 ⟨0, hroot k.mode, ?_⟩
  rw [Int.add_zero]
  exact Int.emod_emod_of_dvd _ (Int.dvd_refl _)

/-- A written pitch whose class belongs to the scale of a key. -/
def InScale (k : Key) (pitch : String) : Prop :=
  ∃ midi, Pitch.midiOf pitch = .ok midi ∧ midi % octaveSize ∈ k.pitchClasses

/-- **A snapped pitch belongs to the key.** -/
theorem inScale_snap {k : Key} {pitch snapped : String} (h : k.snap pitch = .ok snapped) :
    k.InScale snapped := by
  obtain ⟨midi, hmidi, h⟩ := Outcome.bind_ok h
  have hclass : quantizePitch midi k.pitchClasses snapDistance % octaveSize ∈ k.pitchClasses :=
    Snapping.class_quantizePitch (Int.le_refl 6) k.rootClass_mem (Int.emod_nonneg _ (by decide))
      (Int.emod_lt_of_pos _ (by decide))
  dsimp only at h
  split at h
  · next hsame =>
      cases h
      exact ⟨midi, hmidi, hsame ▸ hclass⟩
  · cases h
    refine ⟨_, Pitch.midiOf_text _, ?_⟩
    rwa [Pitch.midi_ofMidi]

end Key

end Partitura

import Mathlib.Data.List.Basic
import Partitura.Proofs.Harmony.Chords
import Partitura.Proofs.Notation.Pitches
import Partitura.Proofs.Sorting

/-!
# Chords from the lowest tone up

The tones of a quality ascend from the root, whether they stand in the table or come from alterations:
these move or add tones above the root, and what they leave is sorted (§1). The named layouts ascend as
well, but one begins an octave below the root and one above it (§2).

A bass is put an octave below the octave of the root by its name alone, whatever the layout. So the tones
of a chord rise from the bass exactly if the bass does not lie too high (`ChordToken.parse_rising_iff`):
under the open layout that is any bass above the root, and otherwise B sharp under C flat (§3).
-/

namespace Partitura

namespace ChordQuality

/-! ## §1  Qualities -/

/-- The root is among the tones, and nothing lies below it. -/
def FromRoot (tones : List Int) : Prop :=
  0 ∈ tones ∧ ∀ t ∈ tones, 0 ≤ t

theorem fromRoot_of_lookup {quality : String} {tones : List Int}
    (h : table.lookup quality = some tones) : FromRoot tones ∧ tones.Pairwise (· ≤ ·) := by
  have hall : ∀ entry ∈ table,
      (0 ∈ entry.2 ∧ ∀ t ∈ entry.2, 0 ≤ t) ∧ entry.2.Pairwise (· ≤ ·) := by decide
  exact hall _ (mem_of_lookup h)

/-- The degrees that can be altered lie well above the root. -/
theorem alterable?_pos {degree : Nat} {tone : Int} (h : alterable? degree = some tone) : 7 ≤ tone := by
  unfold alterable? at h
  split_ifs at h <;> cases h <;> decide

/-- Where one member is replaced, the others stay. -/
theorem mem_set_of_ne {β : Type} {xs : List β} {x y new : β} {i : Nat} (hx : x ∈ xs)
    (hi : xs[i]? = some y) (hne : y ≠ x) : x ∈ xs.set i new := by
  obtain ⟨j, hj⟩ := List.mem_iff_getElem?.1 hx
  have hij : i ≠ j := by
    rintro rfl
    exact hne (Option.some.inj (hi.symm.trans hj))
  exact List.mem_iff_getElem?.2 ⟨j, by rw [List.getElem?_set_ne hij, hj]⟩

theorem FromRoot.alter {tones : List Int} (h : FromRoot tones) (a : Alteration) :
    FromRoot (alter tones a) := by
  obtain ⟨hroot, hnone⟩ := h
  unfold ChordQuality.alter
  split
  · exact ⟨hroot, hnone⟩
  · next tone htone =>
      have hpos := alterable?_pos htone
      have hmoved : 0 ≤ tone + (if a.sharp then 1 else -1) := by split <;> omega
      dsimp only
      split
      · next i hi =>
          -- The tone that moves is not the root.
          obtain ⟨hlt, heq, -⟩ := List.idxOf?_eq_some_iff.1 hi
          have hat : tones[i]? = some tone := by rw [List.getElem?_eq_getElem hlt, heq]
          refine ⟨mem_set_of_ne hroot hat (by omega), fun t ht => ?_⟩
          rcases List.mem_or_eq_of_mem_set ht with ht | rfl
          · exact hnone t ht
          · exact hmoved
      · refine ⟨List.mem_append_left _ hroot, fun t ht => ?_⟩
        rcases List.mem_append.1 ht with ht | ht
        · exact hnone t ht
        · rw [List.mem_singleton.1 ht]
          exact hmoved

theorem FromRoot.foldl_alter {tones : List Int} (h : FromRoot tones) (alterations : List Alteration) :
    FromRoot (alterations.foldl ChordQuality.alter tones) := by
  induction alterations generalizing tones with
  | nil => exact h
  | cons a alterations ih => exact ih (h.alter a)

/-- The tones of every quality ascend from the root. -/
theorem tones_ascend (quality : String) :
    FromRoot (tones quality) ∧ (tones quality).Pairwise (· ≤ ·) := by
  unfold tones
  split
  · next h => exact fromRoot_of_lookup h
  · have hstart (base : String) : FromRoot ((table.lookup base).getD triad) := by
      cases h : table.lookup base with
      | none => exact ⟨List.mem_cons_self, by decide⟩
      | some tones => exact (fromRoot_of_lookup h).1
    have hsorted (xs : List Int) : StablySorted (fun t => t) xs (xs.mergeSort (· ≤ ·)) :=
      stablySorted_mergeSort (fun a b => decide_eq_true_iff) xs
    obtain ⟨hroot, hnone⟩ := (hstart _).foldl_alter (splitAlterations quality.toList).2
    refine ⟨⟨(hsorted _).mem_iff.2 hroot, ?_⟩, (hsorted _).ascending⟩
    intro t ht
    exact hnone t ((hsorted _).mem_iff.1 ht)

/-! ## §2  Layouts -/

/-- Where a named layout begins, in semitones above the root. -/
def beginning (voicing : String) : Int :=
  if voicing = "open" then -12 else if voicing = "rootless_a" then 3 else 0

theorem voiced?_ascends {quality voicing : String} {tones : List Int}
    (h : voiced? quality voicing = some tones) :
    tones.head? = some (beginning voicing) ∧ tones.Pairwise (· ≤ ·) := by
  have hall : ∀ entry ∈ voicings, ∀ layout ∈ entry.2,
      layout.2.head? = some (beginning layout.1) ∧ layout.2.Pairwise (· ≤ ·) := by decide
  obtain ⟨layouts, hlayouts, hlayout⟩ := Option.bind_eq_some_iff.1 h
  exact hall _ (mem_of_lookup hlayouts) _ (mem_of_lookup hlayout)

/-- What stands first in an ascending list is the least. -/
theorem head?_of_least {tones : List Int} {least : Int} (hascending : tones.Pairwise (· ≤ ·))
    (hmem : least ∈ tones) (hleast : ∀ t ∈ tones, least ≤ t) : tones.head? = some least := by
  cases tones with
  | nil => cases hmem
  | cons t tones =>
      have hle : t ≤ least := by
        rcases List.mem_cons.1 hmem with rfl | hmem
        · exact le_rfl
        · exact (List.pairwise_cons.1 hascending).1 least hmem
      rw [List.head?_cons, le_antisymm hle (hleast t List.mem_cons_self)]

end ChordQuality

namespace ChordToken

/-! ## §3  Chords -/

/-- The numbers of the tones, in the order in which they are listed. -/
def numbers (t : ChordToken) : Outcome (List Int) :=
  t.notes.mapM Pitch.midiOf

/-- The tones never fall, and a bass, an octave below that of the root, is the lowest of them. -/
def Rising (octave : Int) (t : ChordToken) : Prop :=
  ∃ ns, t.numbers = .ok ns ∧ ns.Pairwise (· ≤ ·) ∧
    ∀ bass ∈ t.bass, ∃ n, Pitch.midiOf (bass ++ toString (octave - 1)) = .ok n ∧
      ns.head? = some n ∧ ∀ m ∈ ns, n ≤ m

/-- A voicing is asked for that the quality has. -/
def Laid (t : ChordToken) (voicing : String) : Prop :=
  t.voicing = some voicing ∧ t.voiced = true

/-- The bass lies too high: under an open layout, above the root; under any other that begins at the
root, as B sharp under C flat. -/
def BassTooHigh (t : ChordToken) : Prop :=
  ∃ root bass : PitchName, t.root = root.text ∧ t.bass = some bass.text ∧
    (t.Laid "open" ∧ root.semitones < bass.semitones ∨
      ¬ t.Laid "rootless_a" ∧ root = ⟨.c, .flat⟩ ∧ bass = ⟨.b, .sharp⟩)

namespace Written

/-- The layout that a chord asks for, if its quality has it. -/
def layout? (w : Written) : Option (List Int) :=
  w.voicing.bind (ChordQuality.voiced? w.quality)

def tones (w : Written) : List Int :=
  w.layout?.getD (ChordQuality.tones w.quality)

/-- The lowest tone in semitones above the root, without the bass. -/
def lowest (w : Written) : Int :=
  if w.layout?.isSome then (w.voicing.map ChordQuality.beginning).getD 0 else 0

theorem tones_rise (w : Written) :
    w.tones.head? = some w.lowest ∧ w.tones.Pairwise (· ≤ ·) := by
  unfold tones lowest
  cases hlayout : w.layout? with
  | none =>
      obtain ⟨⟨hroot, hnone⟩, hascending⟩ := ChordQuality.tones_ascend w.quality
      exact ⟨ChordQuality.head?_of_least hascending hroot hnone, hascending⟩
  | some layout =>
      obtain ⟨voicing, hvoicing, hvoiced⟩ := Option.bind_eq_some_iff.1 hlayout
      rw [hvoicing]
      exact ChordQuality.voiced?_ascends hvoiced

theorem lowest_le (w : Written) : ∀ tone ∈ w.tones, w.lowest ≤ tone := by
  obtain ⟨hhead, hascending⟩ := w.tones_rise
  obtain ⟨more, hmore⟩ := List.head?_eq_some_iff.1 hhead
  rw [hmore] at hascending ⊢
  exact List.forall_mem_cons.2 ⟨le_rfl, (List.pairwise_cons.1 hascending).1⟩

/-- The pitches of a chord with its root in an octave, the bass first. -/
def pitches (w : Written) (octave : Int) : List Pitch :=
  w.bass.toList.map (fun b => ⟨b, octave - 1⟩) ++
    w.tones.map fun t => Pitch.ofMidi ((⟨w.root, octave⟩ : Pitch).midi + t)

end Written

section

variable {w : Written} {octave : Int} {t : ChordToken}

theorem notes_of_ofWritten (h : ofWritten w octave = .ok t) :
    t.notes = (w.pitches octave).map Pitch.text := by
  obtain ⟨length, -, h⟩ := Outcome.bind_ok h
  rw [← Outcome.pure_ok h]
  simp [Written.pitches, Written.tones, Written.layout?, Pitch.textOfMidi, Function.comp_def]

theorem names_of_ofWritten (h : ofWritten w octave = .ok t) :
    t.root = w.root.text ∧ t.bass = w.bass.map PitchName.text := by
  obtain ⟨length, -, h⟩ := Outcome.bind_ok h
  rw [← Outcome.pure_ok h]
  exact ⟨rfl, rfl⟩

theorem laid_iff (h : ofWritten w octave = .ok t) (voicing : String) :
    t.Laid voicing ↔ w.voicing = some voicing ∧ w.layout?.isSome = true := by
  obtain ⟨length, -, h⟩ := Outcome.bind_ok h
  rw [← Outcome.pure_ok h]
  constructor
  · rintro ⟨hvoicing, hvoiced⟩
    refine ⟨hvoicing, ?_⟩
    dsimp only at hvoicing hvoiced
    simpa [Written.layout?, hvoicing] using hvoiced
  · rintro ⟨hvoicing, hlayout⟩
    refine ⟨hvoicing, ?_⟩
    dsimp only
    rw [Bool.or_eq_true]
    exact .inr hlayout

/-- An open layout begins an octave below the root, the rootless one above it, all else at the root. -/
theorem lowest_of_ofWritten (h : ofWritten w octave = .ok t) :
    t.Laid "open" ∧ w.lowest = -12 ∨ t.Laid "rootless_a" ∧ w.lowest = 3 ∨
      ¬ t.Laid "open" ∧ ¬ t.Laid "rootless_a" ∧ w.lowest = 0 := by
  rw [laid_iff h, laid_iff h]
  unfold Written.lowest
  by_cases hlayout : w.layout?.isSome = true
  · obtain ⟨layout, hsome⟩ := Option.isSome_iff_exists.1 hlayout
    obtain ⟨voicing, hvoicing, -⟩ := Option.bind_eq_some_iff.1 hsome
    by_cases hopen : voicing = "open"
    · left
      simp [hvoicing, hlayout, hopen, ChordQuality.beginning]
    · right
      by_cases hrootless : voicing = "rootless_a"
      · left
        simp [hvoicing, hlayout, hrootless, ChordQuality.beginning]
      · right
        simp [hvoicing, hopen, hrootless, ChordQuality.beginning]
  · right
    right
    simp [hlayout]

theorem bassTooHigh_iff (h : ofWritten w octave = .ok t) :
    t.BassTooHigh ↔ ∃ b ∈ w.bass, w.root.semitones + 12 + w.lowest < b.semitones := by
  obtain ⟨hroot, hbass⟩ := names_of_ofWritten h
  have hlowest := lowest_of_ofWritten h
  constructor
  · rintro ⟨root, bass, hr, hb, hhigh⟩
    obtain rfl : root = w.root := PitchName.text_injective (hr.symm.trans hroot)
    obtain ⟨b, hmem, htext⟩ := Option.map_eq_some_iff.1 (hbass.symm.trans hb)
    obtain rfl : b = bass := PitchName.text_injective htext
    refine ⟨b, hmem, ?_⟩
    rcases hhigh with ⟨hopen, hlt⟩ | ⟨hrootless, hlow, hhigh⟩
    · rcases hlowest with ⟨-, hlow⟩ | ⟨hrootless, -⟩ | ⟨hnot, -⟩
      · omega
      · exact absurd (Option.some.inj (hopen.1.symm.trans hrootless.1)) (by decide)
      · exact absurd hopen hnot
    · have hr : w.root.semitones = -1 := by rw [hlow]; rfl
      have hb : b.semitones = 12 := by rw [hhigh]; rfl
      rcases hlowest with ⟨-, hlow⟩ | ⟨hnot, -⟩ | ⟨-, -, hlow⟩
      · omega
      · exact absurd hnot hrootless
      · omega
  · rintro ⟨b, hmem, hlt⟩
    refine ⟨w.root, b, hroot, by rw [hbass, hmem]; rfl, ?_⟩
    have hr := w.root.semitones_bounds
    have hb := b.semitones_bounds
    rcases hlowest with ⟨hopen, hlow⟩ | ⟨-, hlow⟩ | ⟨hopen, hrootless, hlow⟩
    · left
      exact ⟨hopen, by omega⟩
    · omega
    · right
      exact ⟨hrootless, PitchName.eq_of_lowest (by omega), PitchName.eq_of_highest (by omega)⟩

/-- The numbers of a chord: its bass, if there is one, and the tones above the root. -/
theorem numbers_of_ofWritten (h : ofWritten w octave = .ok t) :
    t.numbers = .ok (w.bass.toList.map (fun b => (⟨b, octave - 1⟩ : Pitch).midi) ++
      w.tones.map fun tone => (⟨w.root, octave⟩ : Pitch).midi + tone) := by
  unfold numbers
  rw [notes_of_ofWritten h, Pitch.mapM_midiOf]
  simp [Written.pitches, Pitch.midi_ofMidi, Function.comp_def]

/-- A bass is an octave below its name in the octave of the root. -/
theorem bass_le_iff (b root : PitchName) (octave tone : Int) :
    (⟨b, octave - 1⟩ : Pitch).midi ≤ (⟨root, octave⟩ : Pitch).midi + tone ↔
      b.semitones ≤ root.semitones + 12 + tone := by
  unfold Pitch.midi octaveSize
  dsimp only
  omega

/-- A chord rises if its bass does not lie above its lowest tone, and only then. -/
theorem ofWritten_rising_iff (h : ofWritten w octave = .ok t) :
    t.Rising octave ↔ ∀ b ∈ w.bass, b.semitones ≤ w.root.semitones + 12 + w.lowest := by
  obtain ⟨-, hbass⟩ := names_of_ofWritten h
  obtain ⟨hhead, hascending⟩ := w.tones_rise
  -- The tones above the bass ascend whatever the bass is.
  have hupper : (w.tones.map fun tone => (⟨w.root, octave⟩ : Pitch).midi + tone).Pairwise (· ≤ ·) := by
    rw [List.pairwise_map]
    exact hascending.imp fun hle => Int.add_le_add_left hle _
  unfold Rising
  rw [numbers_of_ofWritten h, hbass]
  cases w.bass with
  | none =>
      refine ⟨fun _ => nofun, fun _ => ⟨_, rfl, hupper, nofun⟩⟩
  | some b =>
      constructor
      · rintro ⟨ns, hns, hrise, -⟩
        obtain rfl := Except.ok.inj hns
        rintro _ ⟨⟩
        have hfirst := (List.pairwise_cons.1 hrise).1 _
          (List.mem_map_of_mem (List.mem_of_head? hhead))
        exact (bass_le_iff ..).1 hfirst
      · intro hle
        have hbelow : ∀ m ∈ w.tones.map fun tone => (⟨w.root, octave⟩ : Pitch).midi + tone,
            (⟨b, octave - 1⟩ : Pitch).midi ≤ m := by
          intro m hm
          obtain ⟨tone, htone, rfl⟩ := List.mem_map.1 hm
          have htone := hle b rfl |>.trans (Int.add_le_add_left (w.lowest_le tone htone) _)
          exact (bass_le_iff ..).2 htone
        refine ⟨_, rfl, List.pairwise_cons.2 ⟨hbelow, hupper⟩, ?_⟩
        rintro _ ⟨⟩
        exact ⟨_, Pitch.midiOf_text ⟨b, octave - 1⟩, rfl,
          List.forall_mem_cons.2 ⟨le_rfl, hbelow⟩⟩

end

/-- **The tones of a chord rise exactly if its bass does not lie too high.** Without a bass they always do,
in every octave. -/
theorem parse_rising_iff {text : String} {octave : Int} {t : ChordToken}
    (h : parse text octave = .ok t) : t.Rising octave ↔ ¬ t.BassTooHigh := by
  unfold parse at h
  split at h
  · obtain ⟨length, -, h⟩ := Outcome.bind_ok h
    cases h
    constructor
    · rintro - ⟨_, _, _, hbass, _⟩
      cases hbass
    · intro _
      exact ⟨[], rfl, .nil, nofun⟩
  · split at h
    · rw [ofWritten_rising_iff h, bassTooHigh_iff h]
      push Not
      rfl
    · cases h

/-- The theorem at work: the bass lies a fifth above the name of the root, and an octave lower. -/
theorem fifth_below_rises : ∃ t : ChordToken, parse "Am7@drop2/E:h" 3 = .ok t ∧
    t.notes = ["E2", "A3", "E4", "G4", "C5"] ∧ t.Rising 3 := by
  obtain ⟨t, ht, hparts⟩ := Outcome.exists_of_any (r := parse "Am7@drop2/E:h" 3)
    (p := fun t => t.notes = ["E2", "A3", "E4", "G4", "C5"] ∧ t.root = "A" ∧
      t.voicing = some "drop2") (by decide +kernel)
  obtain ⟨hnotes, hroot, hvoicing⟩ := of_decide_eq_true hparts
  refine ⟨t, ht, hnotes, (parse_rising_iff ht).2 ?_⟩
  rintro ⟨root, bass, hname, -, ⟨hopen, -⟩ | ⟨-, hflat, -⟩⟩
  · exact absurd (Option.some.inj (hvoicing.symm.trans hopen.1)) (by decide)
  · rw [hroot, hflat] at hname
    exact absurd hname (by decide)

/-- The open layout of a chord on C begins with C2, and the bass stays where its name is in that octave:
the tones fall from E2 to C2. -/
theorem third_above_falls : ∃ t : ChordToken, parse "Cmaj7@open/E:q" 3 = .ok t ∧
    t.bass = some "E" ∧ t.notes = ["E2", "C2", "C3", "G3", "E4"] ∧
    t.numbers = .ok [40, 36, 48, 55, 64] ∧ ¬ t.Rising 3 := by
  obtain ⟨t, ht, hparts⟩ := Outcome.exists_of_any (r := parse "Cmaj7@open/E:q" 3)
    (p := fun t => t.notes = ["E2", "C2", "C3", "G3", "E4"] ∧ t.bass = some "E") (by decide +kernel)
  obtain ⟨hnotes, hbass⟩ := of_decide_eq_true hparts
  have hnumbers : t.numbers = .ok [40, 36, 48, 55, 64] := by
    unfold numbers
    rw [hnotes]
    decide +kernel
  refine ⟨t, ht, hbass, hnotes, hnumbers, ?_⟩
  rintro ⟨ns, hns, hrise, -⟩
  obtain rfl := Except.ok.inj (hnumbers.symm.trans hns)
  exact absurd hrise (by decide)

end ChordToken

end Partitura

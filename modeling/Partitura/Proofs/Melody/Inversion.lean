import Partitura.Proofs.Pattern.Moving

/-!
# A melody mirrored twice

A mirrored melody is written with sharps and read again, so what comes back when it is mirrored a second
time is not the text, but the sound (`reflect_reflect`). The second mirror stands where the first one
stood: a named axis is the same, and the first note is its own mirror image (`centerOf_reflect`). As
for a melody that is moved, the one thing that can go wrong is an octave that one digit does not tell,
so all notes and their mirror images must be within reach (`invert_twice`).
-/

namespace Partitura

variable {α : Type} [Scalar α]

namespace Melody

/-! ## §1  The center -/

/-- The number that a melody is mirrored around: that of the axis if one is named, or else that of the
first note. Rests alone have none, and to them it does not matter. -/
def centerOf (axis : Option String) (ts : List (Token α)) : Outcome Int :=
  match axis with
  | some text => Pitch.midiOf text
  | none => .ok ((firstMidi? ts).getD 0)

omit [Scalar α] in
theorem reflect_of_rests {ts : List (Token α)} (h : firstMidi? ts = none) (center : Int) :
    reflect center ts = ts := by
  have hrests : ∀ t ∈ ts, mapMidi (fun m => 2 * center - m) t = id t := by
    intro t ht
    cases t with
    | rest l => rfl
    | note n => cases List.findSome?_eq_none_iff.1 h _ ht
  unfold reflect
  rw [List.map_congr_left hrests, List.map_id]

theorem invert_eq {notes : List String} {axis : Option String} {ts : List (Token α)} {center : Int}
    (hread : tokens α notes = .ok ts) (hcenter : centerOf axis ts = .ok center) :
    invert α notes axis = .ok (write (reflect center ts)) := by
  unfold invert
  rw [hread, Outcome.ok_bind]
  cases axis with
  | some text =>
      change Pitch.midiOf text = .ok center at hcenter
      dsimp only
      rw [hcenter]
      rfl
  | none =>
      cases hfirst : firstMidi? ts with
      | none =>
          rw [reflect_of_rests hfirst]
          rfl
      | some m =>
          unfold centerOf at hcenter
          rw [hfirst] at hcenter
          cases hcenter
          rfl

omit [Scalar α] in
/-- The first note stays the first one. -/
theorem firstMidi?_reflect (center : Int) (ts : List (Token α)) :
    firstMidi? (reflect center ts) = (firstMidi? ts).map fun m => 2 * center - m := by
  induction ts with
  | nil => rfl
  | cons t ts ih =>
      cases t with
      | rest l => exact ih
      | note n => exact congrArg some (Pitch.midi_ofMidi _)

omit [Scalar α] in
/-- A mirrored melody has the center of the melody. -/
theorem centerOf_reflect {axis : Option String} {ts : List (Token α)} {center : Int}
    (h : centerOf axis ts = .ok center) : centerOf axis (reflect center ts) = .ok center := by
  cases axis with
  | some text => exact h
  | none =>
      unfold centerOf at h ⊢
      rw [firstMidi?_reflect]
      cases hfirst : firstMidi? ts with
      | none =>
          rw [hfirst] at h
          exact h
      | some m =>
          rw [hfirst] at h
          cases h
          change Except.ok (2 * m - m) = Except.ok m
          congr 1
          omega

/-! ## §2  Mirror images -/

omit [Scalar α] in
theorem getElem?_reflect {center : Int} {ts : List (Token α)} {i : Nat} {n : NoteToken α}
    (h : ts[i]? = some (.note n)) :
    (reflect center ts)[i]? = some (.note (n.withMidi (2 * center - n.pitch.midi))) := by
  unfold reflect
  rw [List.getElem?_map, h]
  rfl

omit [Scalar α] in
/-- Mirrored twice, every note sounds as before and every rest is in its place. -/
theorem reflect_reflect (center : Int) (ts : List (Token α)) :
    List.Forall₂ (Token.SameSound 0 0) (reflect center (reflect center ts)) ts := by
  unfold reflect
  rw [List.map_map, List.forall₂_map_left_iff, List.forall₂_same]
  intro t _
  cases t with
  | rest l => exact .rest l
  | note n =>
      refine .note n _ ?_
      simp only [NoteToken.withMidi, Pitch.midi_ofMidi]
      omega

/-- Every note and its mirror image have a number whose octave one digit tells. -/
def MirrorsInReach (center : Int) (ts : List (Token α)) : Prop :=
  ∀ n, Token.note n ∈ ts → (-96 ≤ n.pitch.midi ∧ n.pitch.midi ≤ 131) ∧
    (-96 ≤ 2 * center - n.pitch.midi ∧ 2 * center - n.pitch.midi ≤ 131)

omit [Scalar α] in
/-- The mirror image of a melody has the melody for its own. -/
theorem MirrorsInReach.reflect {center : Int} {ts : List (Token α)} (h : MirrorsInReach center ts) :
    MirrorsInReach center (reflect center ts) := by
  intro n hn
  obtain ⟨t, ht, hmirror⟩ := List.mem_map.1 hn
  cases t with
  | rest l => cases hmirror
  | note m =>
      cases hmirror
      obtain ⟨hplain, himage⟩ := h m ht
      simp only [NoteToken.withMidi, Pitch.midi_ofMidi]
      omega

/-- What is written of a mirrored melody is read back. -/
theorem tokens_reflect {center : Int} {ts : List (Token α)} (hreadable : ∀ t ∈ ts, t.Readable)
    (hrestorable : ∀ t ∈ ts, t.Restorable) (hreach : MirrorsInReach center ts) :
    tokens α (write (reflect center ts)) = .ok (reflect center ts) := by
  refine tokens_write_of_readable (List.forall_mem_map.2 fun t ht => ?_)
    (List.forall_mem_map.2 fun t ht => (hrestorable t ht).mapMidi _)
  refine (hreadable t ht).mapMidi ?_
  rintro n rfl
  exact (hreach n ht).2

/-! ## §3  Mirroring -/

/-- **Inversion is an involution, and turns every interval round.** Notes that can be read, whose numbers
are read back and which stay within reach, can be mirrored around any axis or their first note, and
again. The first mirror image has the interval between any two notes with the other sign; the second
one sounds like the notes. -/
theorem invert_twice {notes : List String} {axis : Option String} {ts : List (Token α)}
    {center : Int} (hread : tokens α notes = .ok ts) (hrestorable : ∀ t ∈ ts, t.Restorable)
    (hcenter : centerOf axis ts = .ok center) (hreach : MirrorsInReach center ts) :
    ∃ (once twice : List String) (ts' ts'' : List (Token α)),
      (invert α notes axis = .ok once ∧ tokens α once = .ok ts') ∧
      (invert α once axis = .ok twice ∧ tokens α twice = .ok ts'') ∧
      List.Forall₂ (Token.SameSound 0 0) ts'' ts ∧
      ∀ (i j : Nat) (n m : NoteToken α), ts[i]? = some (.note n) → ts[j]? = some (.note m) →
        ∃ n' m' : NoteToken α, ts'[i]? = some (.note n') ∧ ts'[j]? = some (.note m') ∧
          m'.pitch.midi - n'.pitch.midi = -(m.pitch.midi - n.pitch.midi) := by
  have hreadable := readable_of_tokens hread
  have honce := tokens_reflect hreadable hrestorable hreach
  have htwice : tokens α (write (reflect center (reflect center ts))) =
      .ok (reflect center (reflect center ts)) := by
    refine tokens_reflect (readable_of_tokens honce) ?_ hreach.reflect
    exact List.forall_mem_map.2 fun t ht => (hrestorable t ht).mapMidi _
  refine ⟨_, _, _, _, ⟨invert_eq hread hcenter, honce⟩,
    ⟨invert_eq honce (centerOf_reflect hcenter), htwice⟩, reflect_reflect center ts, ?_⟩
  intro i j n m hn hm
  refine ⟨_, _, getElem?_reflect hn, getElem?_reflect hm, ?_⟩
  simp only [NoteToken.withMidi, Pitch.midi_ofMidi]
  omega

/-- A rest, a flat with a velocity of its own at the edge of an octave, a gliding triplet and a sharp. -/
def call : List (Token Rat) :=
  [.rest ⟨.eighth, false⟩,
   .note { pitch := ⟨⟨.c, .flat⟩, 5⟩, length := ⟨.quarter, false⟩, velocity := some (1 / 2) },
   .note { pitch := ⟨⟨.e, .natural⟩, 4⟩, length := ⟨.eighth, false⟩, tuplet := some 3, glide := true },
   .note { pitch := ⟨⟨.g, .sharp⟩, 4⟩, length := ⟨.half, true⟩ }]

/-- The theorem at work: the call is mirrored around its first note, which comes after a rest. -/
theorem call_inverted : ∃ _ : Elementary,
    write call = ["r:8", "Cb5:q@0.5", "E4:8t3~>", "G#4:h."] ∧
    tokens Rat (write call) = .ok call ∧ (∀ t ∈ call, t.Restorable) ∧
    centerOf none call = .ok 71 ∧ MirrorsInReach 71 call ∧
    ∃ (once twice : List String) (ts'' : List (Token Rat)),
      invert Rat (write call) none = .ok once ∧ invert Rat once none = .ok twice ∧
      tokens Rat twice = .ok ts'' ∧ List.Forall₂ (Token.SameSound 0 0) ts'' call := by
  let _ := Elementary.coarse
  have hrestorable : ∀ t ∈ call, t.Restorable := by
    have hhalf : ∀ v ∈ some (1 / 2 : Rat), Notation.ReadsBack v := by
      rintro _ ⟨⟩
      exact Moving.readsBack_half
    have hnone : ∀ v ∈ (none : Option Rat), Notation.ReadsBack v := by
      simp
    unfold call
    simp only [List.forall_mem_cons]
    exact ⟨trivial, ⟨hhalf, hnone⟩, ⟨hnone, hnone⟩, ⟨hnone, hnone⟩, by simp⟩
  have hreadable : ∀ t ∈ call, t.Readable := by
    unfold call
    simp only [List.forall_mem_cons]
    exact ⟨trivial, ⟨by decide, by simp⟩, ⟨by decide, by simp⟩, ⟨by decide, by simp⟩, by simp⟩
  have hread := tokens_write_of_readable hreadable hrestorable
  have hreach : MirrorsInReach 71 call := by
    unfold MirrorsInReach call
    simp [Pitch.midi, PitchName.semitones, Letter.semitones, Accidental.shift, octaveSize]
  have hcenter : centerOf none call = .ok 71 := by
    rfl
  have hwritten : write call = ["r:8", "Cb5:q@0.5", "E4:8t3~>", "G#4:h."] := by
    decide +kernel
  obtain ⟨once, twice, _, ts'', ⟨honce, _⟩, ⟨htwice, hts''⟩, hsame, _⟩ :=
    invert_twice hread hrestorable hcenter hreach
  exact ⟨inferInstance, hwritten, hread, hrestorable, hcenter, hreach, once, twice, ts'', honce,
    htwice, hts'', hsame⟩

end Melody

end Partitura

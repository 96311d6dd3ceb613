import Partitura.Melody.Continuation
import Partitura.Proofs.Melody.Retrograde

/-!
# A motif that goes on

An extension adds notes one by one, each a step away from the one before it; the steps are the intervals
of the motif, taken from the last one back, over and over (`stepAt`). The note that is added is written,
and read again for the next one. So what is added climbs as it should as long as there is a note to
start from (`extendFrom_note`), and a rest is only followed by rests (`extendFrom_rest`).

The start is the last text of the motif, not its last note. An extension sounds exactly if the motif
ends with a note (`extend_goesOn_iff`).
-/

namespace Partitura.Melody

variable {α : Type} [Scalar α]

/-! ## §1  The steps of an extension -/

/-- The `k`-th step of an extension: with `m` steps it is the one of number `m - 1 - k`, round and
round. -/
def stepAt (steps : List Int) (k : Nat) : Int :=
  steps.getD ((steps.length - 1 - k : Int) % steps.length).toNat 0

theorem getD_eq_stepAt {steps : List Int} (hsteps : steps ≠ []) (k : Nat) :
    steps.getD (steps.length - 1 - k % steps.length) 0 = stepAt steps k := by
  have hpos : 0 < steps.length := List.length_pos_iff.2 hsteps
  have hlt : k % steps.length < steps.length := Nat.mod_lt k hpos
  -- Going `k` steps back is going back what is left of `k` after whole rounds.
  have hround : (steps.length - 1 - k : Int) =
      (steps.length - 1 - (k % steps.length : Nat) : Int) + steps.length * (-(k / steps.length : Nat)) := by
    have hsplit : ((steps.length * (k / steps.length) + k % steps.length : Nat) : Int) = k :=
      congrArg Nat.cast (Nat.div_add_mod k steps.length)
    push_cast at hsplit ⊢
    linarith
  unfold stepAt
  rw [hround, Int.add_mul_emod_self_left, Int.emod_eq_of_lt (by omega) (by omega)]
  congr 1
  omega

/-- The numbers of `more` notes, each a step above the one before it; the first is the step of number
`index` above `m`. -/
def climb (steps : List Int) (m : Int) (index : Nat) : Nat → List Int
  | 0 => []
  | more + 1 =>
    (m + stepAt steps index) :: climb steps (m + stepAt steps index) (index + 1) more

theorem length_climb (steps : List Int) (m : Int) (index more : Nat) :
    (climb steps m index more).length = more := by
  induction more generalizing m index with
  | zero => rfl
  | succ more ih => rw [climb, List.length_cons, ih]

/-- Each number is a step above the one before it. -/
theorem climb_step {steps : List Int} {m : Int} {index more k : Nat} {before next : Int}
    (hbefore : (m :: climb steps m index more)[k]? = some before)
    (hnext : (climb steps m index more)[k]? = some next) :
    next = before + stepAt steps (index + k) := by
  induction more generalizing m index k with
  | zero => cases hnext
  | succ more ih =>
      cases k with
      | zero =>
          cases hbefore
          exact (Option.some.inj hnext).symm
      | succ k =>
          rw [climb] at hbefore hnext
          rw [List.getElem?_cons_succ] at hbefore hnext
          rw [ih hbefore hnext, Nat.add_right_comm, Nat.add_assoc]

/-! ## §2  One text after the other -/

theorem transpose_single {text : String} {t : Token α} (hread : tokens α [text] = .ok [t])
    (semitones : Int) :
    transpose α [text] semitones = .ok [(transposeToken semitones t).text] := by
  unfold transpose
  rw [hread]
  rfl

/-- A token that is written is read again on its own. -/
theorem tokens_text {t : Token α} (hreadable : t.Readable) (hrestorable : t.Restorable) :
    tokens α [t.text] = .ok [t] :=
  tokens_write_of_readable (List.forall_mem_singleton.2 hreadable)
    (List.forall_mem_singleton.2 hrestorable)

omit [Scalar α] in
theorem midi_transposeToken (semitones : Int) (n : NoteToken α) :
    ∃ n' : NoteToken α, transposeToken semitones (.note n) = .note n' ∧
      n'.pitch.midi = n.pitch.midi + semitones := by
  unfold transposeToken
  split
  · next hzero => exact ⟨n, rfl, by rw [hzero, add_zero]⟩
  · exact ⟨n.withMidi (n.pitch.midi + semitones), rfl, Pitch.midi_ofMidi _⟩

omit [Scalar α] in
theorem readable_transposeToken {semitones : Int} {t : Token α} (hreadable : t.Readable)
    (hreach : t.InReach semitones) : (transposeToken semitones t).Readable := by
  unfold transposeToken
  split
  · exact hreadable
  · exact hreadable.moved hreach

theorem restorable_transposeToken {semitones : Int} {t : Token α} (h : t.Restorable) :
    (transposeToken semitones t).Restorable := by
  unfold transposeToken
  split
  · exact h
  · exact h.moved semitones

variable {steps : List Int} {text : String}

theorem extendFrom_succ (hsteps : steps ≠ []) {t : Token α} (hread : tokens α [text] = .ok [t])
    (index more : Nat) : extendFrom α steps text index (more + 1) =
      (extendFrom α steps (transposeToken (stepAt steps index) t).text (index + 1) more >>=
        fun rest => .ok ((transposeToken (stepAt steps index) t).text :: rest)) := by
  rw [extendFrom, getD_eq_stepAt hsteps, transpose_single hread]
  rfl

/-- After a note come notes that climb by the steps. By induction on the notes that are to come: the
note that is added is read again, and the next one starts from it. -/
theorem extendFrom_note (hsteps : steps ≠ []) {n : NoteToken α} {index more : Nat}
    (hread : tokens α [text] = .ok [.note n]) (hrestorable : (Token.note n).Restorable)
    (hreach : ∀ m ∈ climb steps n.pitch.midi index more, -96 ≤ m ∧ m ≤ 131) :
    ∃ (added : List (NoteToken α)),
      extendFrom α steps text index more = .ok (write (added.map Token.note)) ∧
      (write (added.map Token.note)).mapM Token.parse = .ok (added.map Token.note) ∧
      added.map (·.pitch.midi) = climb steps n.pitch.midi index more := by
  induction more generalizing text n index with
  | zero => exact ⟨[], rfl, rfl, rfl⟩
  | succ more ih =>
      obtain ⟨next, hnext, hmidi⟩ := midi_transposeToken (stepAt steps index) n
      rw [climb, ← hmidi] at hreach ⊢
      obtain ⟨hfirst, hlater⟩ := List.forall_mem_cons.1 hreach
      have hreadable : (Token.note next).Readable := by
        rw [← hnext]
        refine readable_transposeToken (readable_of_tokens hread _ List.mem_cons_self) ?_
        show -96 ≤ n.pitch.midi + stepAt steps index ∧ n.pitch.midi + stepAt steps index ≤ 131
        rw [← hmidi]
        exact hfirst
      have hrestorable' : (Token.note next).Restorable := by
        rw [← hnext]
        exact restorable_transposeToken hrestorable
      obtain ⟨added, hadded, hback, hclimb⟩ :=
        ih (tokens_text hreadable hrestorable') hrestorable' hlater
      refine ⟨next :: added, ?_, ?_, ?_⟩
      · rw [extendFrom_succ hsteps hread, hnext, hadded]
        rfl
      · change ((Token.note next).text :: write (added.map Token.note)).mapM Token.parse = _
        rw [List.mapM_cons, Token.parse_text hreadable hrestorable', hback]
        rfl
      · rw [List.map_cons, hclimb]

/-- After a rest come rests. -/
theorem extendFrom_rest (hsteps : steps ≠ []) {l : Length} (hread : tokens α [text] = .ok [.rest l])
    (index more : Nat) : extendFrom α steps text index more =
      .ok (List.replicate more (Token.rest l : Token α).text) := by
  induction more generalizing text index with
  | zero => rfl
  | succ more ih =>
      have hstays : transposeToken (stepAt steps index) (.rest l : Token α) = .rest l := by
        unfold transposeToken
        split <;> rfl
      rw [extendFrom_succ hsteps hread, hstays, ih (tokens_text trivial trivial)]
      rfl

/-! ## §3  Motifs -/

/-- The last note of a melody; rests may follow it. -/
def lastNote? (ts : List (Token α)) : Option (NoteToken α) :=
  ts.reverse.findSome? fun
    | .note n => some n
    | .rest _ => none

omit [Scalar α] in
theorem length_of_intervals {ts : List (Token α)} (h : intervalsBetween ts ≠ []) : 2 ≤ ts.length := by
  rcases ts with _ | ⟨a, _ | ⟨b, rest⟩⟩
  · exact absurd rfl h
  · cases a <;> exact absurd rfl h
  · simp

/-- What is left of an extension when the motif has been read: the notes after its last text. -/
theorem extend_eq {motif : List String} {ts : List (Token α)} {last : String}
    (hread : motif.mapM Token.parse = .ok ts) (hsteps : intervalsBetween ts ≠ [])
    (hlast : motif.getLast? = some last) (n : Nat) :
    extend α motif n =
      (extendFrom α (intervalsBetween ts) last 0 n >>= fun more => .ok (motif ++ more)) := by
  have hlength : ¬ motif.length < 2 := by
    rw [(Outcome.mapM_ok hread).length_eq]
    exact not_lt.2 (length_of_intervals hsteps)
  have hintervals : intervals α motif = .ok (intervalsBetween ts) := by
    unfold intervals
    rw [hread]
    rfl
  unfold extend
  rw [if_neg hlength, hintervals, hlast, Outcome.ok_bind]
  dsimp only
  rw [if_neg (by simpa using hsteps)]
  rfl

omit [Scalar α] in
theorem lastNote?_of_note {ts : List (Token α)} {n : NoteToken α}
    (h : ts.getLast? = some (.note n)) : lastNote? ts = some n := by
  obtain ⟨before, rfl⟩ := List.getLast?_eq_some_iff.1 h
  unfold lastNote?
  rw [List.reverse_concat, List.findSome?_cons]

/-- The last text of a motif is read as its last token. -/
theorem exists_last {notes : List String} {ts : List (Token α)} (hread : tokens α notes = .ok ts)
    (hts : ts ≠ []) : ∃ (text : String) (t : Token α),
      (Compact.expand notes).getLast? = some text ∧ ts.getLast? = some t ∧
      tokens α [text] = .ok [t] := by
  have hpairs := List.forall₂_reverse_iff.2 (Outcome.mapM_ok hread)
  cases hreversed : ts.reverse with
  | nil => exact absurd (List.reverse_eq_nil_iff.1 hreversed) hts
  | cons t before =>
      rw [hreversed] at hpairs
      obtain ⟨text, texts, hparse, _, htexts⟩ := List.forall₂_cons_right_iff.1 hpairs
      have hlast : (Compact.expand notes).getLast? = some text := by
        rw [← List.head?_reverse, htexts, List.head?_cons]
      have hsingle : Compact.expand [text] = [text] := by
        rw [Compact.expand, List.flatMap_singleton]
        exact Compact.notesOf_of_mem_expand (List.mem_of_getLast? hlast)
      refine ⟨text, t, hlast, ?_, ?_⟩
      · rw [← List.head?_reverse, hreversed, List.head?_cons]
      · unfold tokens
        rw [hsingle, List.mapM_cons, hparse]
        rfl

omit [Scalar α] in
/-- Notes that climb lie steps above each other, the first one above where they start. -/
theorem midi_of_climb {steps : List Int} {start : NoteToken α} {added : List (NoteToken α)} {n : Nat}
    (hclimb : added.map (fun a => a.pitch.midi) = climb steps start.pitch.midi 0 n) {k : Nat}
    {before next : NoteToken α} (hbefore : (start :: added)[k]? = some before)
    (hnext : added[k]? = some next) :
    next.pitch.midi = before.pitch.midi + stepAt steps k := by
  have hbefore' : (start.pitch.midi :: climb steps start.pitch.midi 0 n)[k]? =
      some before.pitch.midi := by
    rw [← hclimb, ← List.map_cons (f := fun a : NoteToken α => a.pitch.midi),
      List.getElem?_map, hbefore]
    rfl
  have hnext' : (climb steps start.pitch.midi 0 n)[k]? = some next.pitch.midi := by
    rw [← hclimb, List.getElem?_map, hnext]
    rfl
  rw [climb_step hbefore' hnext', Nat.zero_add]

/-- A rest is not read as a note. -/
theorem eq_zero_of_rests {l : Length} {n : Nat} {added : List (NoteToken α)}
    (h : (List.replicate n (Token.rest l : Token α).text).mapM Token.parse =
      .ok (added.map Token.note)) : n = 0 := by
  have hpairs := Outcome.mapM_ok h
  cases n with
  | zero => rfl
  | succ n =>
      rw [List.replicate_succ] at hpairs
      obtain ⟨t, _, hparse, _, hadded⟩ := List.forall₂_cons_left_iff.1 hpairs
      rw [show Token.parse (Token.rest l : Token α).text = .ok (Token.rest l : Token α) from
        Token.parse_rest_text l] at hparse
      obtain ⟨a, _, _, ha, _⟩ := List.map_eq_cons_iff.1 hadded
      cases hparse
      cases ha

/-- A motif goes on from a note: the motif is followed by `n` texts that are read as notes, each of
them lying a step above the note before it, and the first one above `start`. -/
def GoesOn (motif : List String) (steps : List Int) (start : NoteToken α) (n : Nat) : Prop :=
  ∃ (more : List String) (added : List (NoteToken α)),
    extend α motif n = .ok (motif ++ more) ∧ more.mapM Token.parse = .ok (added.map Token.note) ∧
    added.length = n ∧
    ∀ (k : Nat) (before next : NoteToken α), (start :: added)[k]? = some before →
      added[k]? = some next → next.pitch.midi = before.pitch.midi + stepAt steps k

/-- **An extension sounds exactly if the motif ends with a note.** A motif that can be read has two
notes next to each other, `start` is its last note, whose numbers are read back, and all notes that are
to come lie within reach. Then the motif is followed by `n` notes that repeat its intervals backwards
from `start` if and only if no rest comes after `start`, or nothing is to follow. -/
theorem extend_goesOn_iff {notes : List String} {ts : List (Token α)} {start : NoteToken α} {n : Nat}
    (hread : tokens α notes = .ok ts) (hsteps : intervalsBetween ts ≠ [])
    (hstart : lastNote? ts = some start) (hrestorable : (Token.note start).Restorable)
    (hreach : ∀ m ∈ climb (intervalsBetween ts) start.pitch.midi 0 n, -96 ≤ m ∧ m ≤ 131) :
    GoesOn (Compact.expand notes) (intervalsBetween ts) start n ↔
      n = 0 ∨ ts.getLast? = some (.note start) := by
  have hts : ts ≠ [] := by
    rintro rfl
    cases hstart
  obtain ⟨text, t, htext, ht, hsingle⟩ := exists_last hread hts
  have hextend := extend_eq hread hsteps htext n
  cases t with
  | note last =>
      obtain rfl : last = start := Option.some.inj ((lastNote?_of_note ht).symm.trans hstart)
      refine ⟨fun _ => .inr ht, fun _ => ?_⟩
      obtain ⟨added, hadded, hback, hclimb⟩ :=
        extendFrom_note hsteps hsingle hrestorable hreach
      refine ⟨_, added, by rw [hextend, hadded]; rfl, hback, ?_, ?_⟩
      · rw [← List.length_map (f := fun a : NoteToken α => a.pitch.midi), hclimb, length_climb]
      · exact fun k before next hbefore hnext => midi_of_climb hclimb hbefore hnext
  | rest l =>
      rw [extendFrom_rest hsteps hsingle, Outcome.ok_bind] at hextend
      constructor
      · rintro ⟨more, added, hmore, hback, _⟩
        rw [hextend] at hmore
        obtain rfl := List.append_cancel_left (Except.ok.inj hmore)
        exact .inl (eq_zero_of_rests hback)
      · rintro (rfl | hnote)
        · refine ⟨[], [], hextend, rfl, rfl, ?_⟩
          intro k before next _ hnext
          cases hnext
        · rw [ht] at hnote
          cases hnote

/-- A rest stands inside this motif, and the intervals around it do not count. -/
def question : List String :=
  ["C4:q E4:q D4:8 r:8", "G4:h"]

def questionTokens : List (Token Rat) :=
  [.note { pitch := ⟨⟨.c, .natural⟩, 4⟩, length := ⟨.quarter, false⟩ },
   .note { pitch := ⟨⟨.e, .natural⟩, 4⟩, length := ⟨.quarter, false⟩ },
   .note { pitch := ⟨⟨.d, .natural⟩, 4⟩, length := ⟨.eighth, false⟩ },
   .rest ⟨.eighth, false⟩,
   .note { pitch := ⟨⟨.g, .natural⟩, 4⟩, length := ⟨.half, false⟩ }]

def answer : NoteToken Rat :=
  { pitch := ⟨⟨.g, .natural⟩, 4⟩, length := ⟨.half, false⟩ }

/-- The theorem at work: from the last note the motif goes a tone down, a third up, and a tone down. -/
theorem question_goesOn : ∃ _ : Elementary, tokens Rat question = .ok questionTokens ∧
    intervalsBetween questionTokens = [4, -2] ∧ intervalsBetween questionTokens ≠ [] ∧
    lastNote? questionTokens = some answer ∧ (Token.note answer).Restorable ∧
    climb [4, -2] 67 0 3 = [65, 69, 67] ∧
    (∀ m ∈ climb (intervalsBetween questionTokens) answer.pitch.midi 0 3, -96 ≤ m ∧ m ≤ 131) ∧
    GoesOn (Compact.expand question) (intervalsBetween questionTokens) answer 3 := by
  let _ := Elementary.coarse
  have hread : tokens Rat question = .ok questionTokens := rfl
  have hsteps : intervalsBetween questionTokens ≠ [] := by decide
  have hrestorable : (Token.note answer).Restorable := ⟨nofun, nofun⟩
  have hreach : ∀ m ∈ climb (intervalsBetween questionTokens) answer.pitch.midi 0 3,
      -96 ≤ m ∧ m ≤ 131 := by decide
  exact ⟨inferInstance, hread, by decide, hsteps, rfl, hrestorable, by decide, hreach,
    (extend_goesOn_iff hread hsteps rfl hrestorable hreach).2 (.inr rfl)⟩

/-- This motif ends with a rest. -/
def sighing : List String :=
  ["C4:q", "E4:q", "r:q"]

def sighingTokens : List (Token Rat) :=
  [.note { pitch := ⟨⟨.c, .natural⟩, 4⟩, length := ⟨.quarter, false⟩ },
   .note { pitch := ⟨⟨.e, .natural⟩, 4⟩, length := ⟨.quarter, false⟩ },
   .rest ⟨.quarter, false⟩]

def sighed : NoteToken Rat :=
  { pitch := ⟨⟨.e, .natural⟩, 4⟩, length := ⟨.quarter, false⟩ }

/-- Everything that the theorem asks for holds here but the note at the end, and two rests follow where
two notes should. -/
theorem sighing_falls_silent : ∃ _ : Elementary, tokens Rat sighing = .ok sighingTokens ∧
    Compact.expand sighing = sighing ∧ intervalsBetween sighingTokens = [4] ∧
    lastNote? sighingTokens = some sighed ∧ (∀ t ∈ sighingTokens, t.Restorable) ∧
    (∀ m ∈ climb (intervalsBetween sighingTokens) sighed.pitch.midi 0 2, -96 ≤ m ∧ m ≤ 131) ∧
    extend Rat sighing 2 = .ok (sighing ++ ["r:q", "r:q"]) ∧
    ¬ GoesOn sighing (intervalsBetween sighingTokens) sighed 2 := by
  let _ := Elementary.coarse
  have hextend : extend Rat sighing 2 = .ok (sighing ++ ["r:q", "r:q"]) := by
    have hread : sighing.mapM Token.parse = .ok sighingTokens := rfl
    have hend : sighing.getLast? = some "r:q" := rfl
    have hsteps : intervalsBetween sighingTokens ≠ [] := by decide
    have hlast : tokens Rat ["r:q"] = .ok [.rest ⟨.quarter, false⟩] := rfl
    have hmore := extendFrom_rest hsteps hlast 0 2
    rw [show (2 : Int) = (2 : Nat) from rfl, extend_eq hread hsteps hend, hmore]
    rfl
  have hrestorable : ∀ t ∈ sighingTokens, t.Restorable := by
    unfold sighingTokens
    simp only [List.forall_mem_cons]
    exact ⟨⟨nofun, nofun⟩, ⟨nofun, nofun⟩, trivial, by simp⟩
  refine ⟨inferInstance, rfl, by decide +kernel, by decide, rfl, hrestorable, by decide, hextend, ?_⟩
  rintro ⟨more, added, hmore, hback, hlength, _⟩
  obtain rfl := List.append_cancel_left (Except.ok.inj (hextend.symm.trans hmore))
  have hrests : ["r:q", "r:q"].mapM (Token.parse (α := Rat)) =
      .ok [.rest ⟨.quarter, false⟩, .rest ⟨.quarter, false⟩] := rfl
  rw [hrests] at hback
  cases added with
  | nil => cases hlength
  | cons a added => cases hback

end Partitura.Melody

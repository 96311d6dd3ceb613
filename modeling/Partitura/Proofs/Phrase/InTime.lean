import Mathlib.Tactic.NormNum
import Mathlib.Tactic.Positivity
import Partitura.Number.Exact
import Partitura.Proofs.Notation.Writing
import Partitura.Proofs.Pattern.Origin
import Partitura.Proofs.Phrase.Finish
import Partitura.Proofs.Phrase.Walk
import Partitura.Proofs.Rhythm.Length

/-!
# Notes begin within their phrase, and sound

Written lengths are positive (§1), so a generator that lays notes one behind the other never goes back:
each note begins before the phrase ends (§2). Drums are placed freely and may begin after the end of
their pattern, but not before its start (§3). Whatever leads to a base pattern changes its notes to
others that can be read, and its finish leaves their times alone, so all this holds of any pattern
(`Pattern.expand_inTime`), as long as arpeggios have a positive gate and drums are placed forward.

Beats are counted exactly.
-/

namespace Partitura

variable [Elementary]

/-! ## §1  Lengths are positive -/

theorem DurationCode.beats_pos (code : DurationCode) : 0 < (code.beats : Rat) := by
  cases code <;> norm_num [DurationCode.beats]

theorem Length.beats_pos (l : Length) : 0 < (l.beats : Rat) := by
  have hdot : (0 : Rat) < dotFactor := by norm_num [dotFactor]
  have hcode := l.code.beats_pos
  unfold Length.beats
  split
  · exact mul_pos hcode hdot
  · exact hcode

theorem Articulation.gate_pos (a : Articulation) : 0 < (a.gate : Rat) := by
  cases a <;> norm_num [Articulation.gate]

theorem tupletBeats_pos (l : Length) {tuplet : Option Nat} (h : ∀ n ∈ tuplet, 2 ≤ n) :
    0 < (tupletBeats l tuplet : Rat) := by
  cases tuplet with
  | none => exact l.beats_pos
  | some n =>
      have hn : 2 ≤ n := h n rfl
      have hspan : 0 < tupletSpan n := by
        unfold tupletSpan
        split <;> omega
      have hspan' : (0 : Rat) < tupletSpan n := by exact_mod_cast hspan
      have hn' : (0 : Rat) < n := by exact_mod_cast (by omega : 0 < n)
      exact div_pos (mul_pos l.beats_pos hspan') hn'

/-- What can be read takes time. -/
theorem Token.beats_pos {text : String} {t : Token Rat} (h : Token.parse text = .ok t) :
    0 < t.beats := by
  cases t with
  | rest l => exact l.beats_pos
  | note n =>
      obtain ⟨s, _, hallowed, rfl⟩ := (NoteToken.parse_ok_iff n).1 (parse_note_iff.1 h)
      refine tupletBeats_pos _ fun count hcount => ?_
      obtain ⟨digits, hdigits, rfl⟩ := Option.map_eq_some_iff.1 hcount
      exact (hallowed.tuplet digits hdigits).1

/-! ## §2  One behind the other -/

/-- Notes that sound and begin between two beats. -/
structure Between (start finish : Rat) (notes : List (Note Rat)) : Prop where
  forward : start ≤ finish
  sound : ∀ n ∈ notes, start ≤ n.start ∧ n.start < finish ∧ 0 < n.duration

namespace Between

variable {start middle finish : Rat} {notes more : List (Note Rat)}

omit [Elementary] in
theorem nil (start : Rat) : Between start start [] :=
  ⟨le_refl start, nofun⟩

omit [Elementary] in
/-- Notes that begin at once, and what comes later. -/
theorem step (hlater : start < middle) (hmore : Between middle finish more)
    (hnotes : ∀ n ∈ notes, n.start = start ∧ 0 < n.duration) :
    Between start finish (notes ++ more) := by
  refine ⟨hlater.le.trans hmore.forward, fun n hn => ?_⟩
  rcases List.mem_append.1 hn with hn | hn
  · obtain ⟨hstart, hduration⟩ := hnotes n hn
    exact ⟨hstart.ge, hstart.trans_lt (hlater.trans_le hmore.forward), hduration⟩
  · obtain ⟨hstart, hfinish, hduration⟩ := hmore.sound n hn
    exact ⟨hlater.le.trans hstart, hfinish, hduration⟩

omit [Elementary] in
theorem cons {n : Note Rat} (hlater : start < middle) (hmore : Between middle finish more)
    (hstart : n.start = start) (hduration : 0 < n.duration) : Between start finish (n :: more) := by
  change Between start finish ([n] ++ more)
  exact step hlater hmore fun _ hn => List.mem_singleton.1 hn ▸ ⟨hstart, hduration⟩

omit [Elementary] in
theorem rest (hlater : start < middle) (hmore : Between middle finish more) :
    Between start finish more := by
  rw [← List.nil_append more]
  exact step hlater hmore nofun

end Between

/-- Every note sounds and begins within the phrase. -/
def Phrase.InTime (p : Phrase Rat) : Prop :=
  Between 0 p.beats p.notes

namespace Phrase

variable {c : Context Rat} {start finish : Rat} {notes : List (Note Rat)}

theorem inTime_silence : (silence : Phrase Rat).InTime := by
  change Between 0 (0.0 : Rat) []
  rw [Exact.start_eq]
  exact .nil 0

theorem between_ofTokensFrom {scale : Rat} (hscale : 0 < scale) {useOwn : Bool}
    {ts : List (Token Rat)} (hts : ∀ t ∈ ts, 0 < t.beats)
    (h : ofTokensFrom c scale useOwn start ts = .ok (notes, finish)) : Between start finish notes := by
  induction ts generalizing start notes with
  | nil =>
      cases h
      exact .nil _
  | cons t ts ih =>
      obtain ⟨ht, hrest⟩ := List.forall_mem_cons.1 hts
      have hlength : 0 < t.beats * scale := mul_pos ht hscale
      have hlater : start < start + t.beats * scale := lt_add_of_pos_right _ hlength
      cases t with
      | rest l => exact .rest hlater (ih hrest h)
      | note token =>
          obtain ⟨note, hnote, h⟩ := Outcome.bind_ok h
          obtain ⟨⟨more, last⟩, hmore, h⟩ := Outcome.bind_ok h
          obtain ⟨pitch, _, hnote⟩ := Outcome.bind_ok hnote
          cases h
          cases hnote
          exact .cons hlater (ih hrest hmore) rfl (mul_pos hlength token.articulation.gate_pos)

theorem inTime_ofNotes {scale : Rat} (hscale : 0 < scale) {useOwn : Bool} {texts : List String}
    {p : Phrase Rat} (h : ofNotes c scale useOwn texts = .ok p) : p.InTime := by
  obtain ⟨ts, hts, h⟩ := Outcome.bind_ok h
  obtain ⟨⟨notes, finish⟩, hnotes, h⟩ := Outcome.bind_ok h
  cases h
  rw [Exact.start_eq] at hnotes
  refine between_ofTokensFrom hscale (fun t ht => ?_) hnotes
  obtain ⟨text, _, hparse⟩ := exists_of_mem_right (Outcome.mapM_ok hts) ht
  exact Token.beats_pos hparse

theorem between_ofChordsFrom {chords : List String}
    (h : (ofChordsFrom c start chords).Yields (notes, finish)) : Between start finish notes := by
  induction chords generalizing start notes with
  | nil =>
      cases h.of_pure
      exact .nil _
  | cons text rest ih =>
      obtain ⟨token, _, h⟩ := h.of_bind
      obtain ⟨_, _, h⟩ := h.of_bind
      obtain ⟨tones, htones, h⟩ := h.of_bind
      obtain ⟨⟨more, last⟩, hmore, h⟩ := h.of_bind
      cases h.of_pure
      refine .step (lt_add_of_pos_right _ token.length.beats_pos) (ih hmore) fun n hn => ?_
      obtain ⟨pitch, _, hn⟩ := exists_of_mem_right (Outcome.mapM_ok htones.of_lift) hn
      obtain ⟨placed, _, hn⟩ := Outcome.bind_ok hn
      cases hn
      exact ⟨rfl, mul_pos token.length.beats_pos token.articulation.gate_pos⟩

theorem between_ofDegreesFrom {rhythm : List String} {index : Nat} {degrees : List (Value Rat)}
    (h : ofDegreesFrom c rhythm start index degrees = .ok (notes, finish)) :
    Between start finish notes := by
  induction degrees generalizing start index notes with
  | nil =>
      cases h
      exact .nil _
  | cons v rest ih =>
      obtain ⟨entry, _, h⟩ := Outcome.bind_ok h
      obtain ⟨length, hlength, h⟩ := Outcome.bind_ok h
      obtain ⟨note?, hnote, h⟩ := Outcome.bind_ok h
      obtain ⟨⟨more, last⟩, hmore, h⟩ := Outcome.bind_ok h
      cases h
      have hpositive : 0 < length := by
        obtain ⟨written, _, hlength⟩ := Outcome.bind_ok hlength
        cases hlength
        exact written.beats_pos
      refine .step (lt_add_of_pos_right _ hpositive) (ih hmore) fun n hn => ?_
      cases Option.mem_toList.1 hn
      unfold entryNote? at hnote
      split at hnote
      · cases hnote
      · obtain ⟨midi, _, hnote⟩ := Outcome.bind_ok hnote
        obtain ⟨pitch, _, hnote⟩ := Outcome.bind_ok hnote
        cases hnote
        exact ⟨rfl, hpositive⟩

theorem between_ofTonesFrom {tones : List String} {length gate : Rat} (hlength : 0 < length)
    (hgate : 0 < gate) {order : List Int}
    (h : ofTonesFrom c tones length gate start order = .ok (notes, finish)) :
    Between start finish notes := by
  induction order generalizing start notes with
  | nil =>
      cases h
      exact .nil _
  | cons number rest ih =>
      obtain ⟨tone, _, h⟩ := Outcome.bind_ok h
      obtain ⟨pitch, _, h⟩ := Outcome.bind_ok h
      obtain ⟨⟨more, last⟩, hmore, h⟩ := Outcome.bind_ok h
      cases h
      exact .cons (lt_add_of_pos_right _ hlength) (ih hmore) rfl (mul_pos hlength hgate)

theorem inTime_ofArpeggio {a : ArpeggioContent Rat} (hgate : 0 < a.gate) {p : Phrase Rat}
    (h : (ofArpeggio c a).Yields p) : p.InTime := by
  obtain ⟨tones, _, h⟩ := h.of_bind
  obtain ⟨length, _, h⟩ := h.of_bind
  obtain ⟨order, _, h⟩ := h.of_bind
  obtain ⟨⟨notes, finish⟩, hnotes, h⟩ := h.of_bind
  cases h.of_pure
  have hnotes := hnotes.of_lift
  rw [Exact.start_eq] at hnotes
  exact between_ofTonesFrom length.beats_pos hgate hnotes

/-- Hits are played on slots of the rhythm, and there are as many slots as steps. -/
theorem inTime_ofEuclidean {e : EuclideanContent Rat} {p : Phrase Rat}
    (h : ofEuclidean c e = .ok p) : p.InTime := by
  obtain ⟨length, _, h⟩ := Outcome.bind_ok h
  obtain ⟨pitch, _, h⟩ := Outcome.bind_ok h
  cases h
  have hlength : 0 < (length.beats : Rat) := length.beats_pos
  have hbeats : (0 : Rat) ≤ ((max e.steps 0 : Int) : Rat) := by exact_mod_cast le_max_right _ _
  refine ⟨mul_nonneg hbeats hlength.le, fun n hn => ?_⟩
  obtain ⟨i, hi, rfl⟩ := List.mem_map.1 hn
  have hslot := Rhythm.mem_pulsePositions hi
  rw [Rhythm.length_euclidean] at hslot
  have hstep : (i : Rat) < ((max e.steps 0 : Int) : Rat) := by
    exact_mod_cast (by omega : (i : Int) < max e.steps 0)
  exact ⟨mul_nonneg (Nat.cast_nonneg i) hlength.le, mul_lt_mul_of_pos_right hstep hlength, hlength⟩

theorem between_ofStatesFrom {k : Key} {m : MarkovContent Rat} {durations : List String} {index : Nat}
    {states : List String}
    (h : (ofStatesFrom k m durations start index states).Yields (notes, finish)) :
    Between start finish notes := by
  induction states generalizing start index notes with
  | nil =>
      unfold ofStatesFrom at h
      cases h.of_pure
      exact .nil _
  | cons state rest ih =>
      unfold ofStatesFrom at h
      obtain ⟨length, _, h⟩ := h.of_bind
      have hlater : start < start + length.beats := lt_add_of_pos_right _ length.beats_pos
      dsimp only at h
      split at h
      all_goals
        obtain ⟨next, _, h⟩ := h.of_bind
        obtain ⟨pitch?, _, h⟩ := h.of_bind
        cases pitch? with
        | none => exact .rest hlater (ih h)
        | some pitch =>
            obtain ⟨snapped, _, h⟩ := h.of_bind
            obtain ⟨roll, _, h⟩ := h.of_bind
            obtain ⟨⟨more, last⟩, hmore, h⟩ := h.of_bind
            cases h.of_pure
            exact .cons hlater (ih hmore) rfl length.beats_pos

theorem inTime_ofMarkov {m : MarkovContent Rat} {p : Phrase Rat} (h : (ofMarkov c m).Yields p) :
    p.InTime := by
  rcases yields_ofMarkov h with ⟨_, rfl⟩ | ⟨_, k, table, walked, hwalked, hnotes⟩
  · exact inTime_silence
  · obtain ⟨states, _, hstates⟩ := yields_walkNotes hwalked
    rw [Exact.start_eq] at hstates
    have hwalk := between_ofStatesFrom hstates
    refine ⟨hwalk.forward, fun n hn => ?_⟩
    obtain ⟨before, hbefore, hplaced⟩ := exists_of_mem_right (Outcome.mapM_ok hnotes) hn
    obtain ⟨pitch, _, hplaced⟩ := Outcome.bind_ok hplaced
    cases hplaced
    exact hwalk.sound before hbefore

theorem between_ofVoicingsFrom {voicings : List (List String)}
    (h : ofVoicingsFrom c start voicings = .ok (notes, finish)) : Between start finish notes := by
  have hchord : (0 : Rat) < chordBeats := by norm_num [chordBeats]
  induction voicings generalizing start notes with
  | nil =>
      cases h
      exact .nil _
  | cons voicing rest ih =>
      obtain ⟨tones, htones, h⟩ := Outcome.bind_ok h
      obtain ⟨⟨more, last⟩, hmore, h⟩ := Outcome.bind_ok h
      cases h
      refine .step (lt_add_of_pos_right _ hchord) (ih hmore) fun n hn => ?_
      obtain ⟨pitch, _, hn⟩ := exists_of_mem_right (Outcome.mapM_ok htones) hn
      obtain ⟨placed, _, hn⟩ := Outcome.bind_ok hn
      cases hn
      exact ⟨rfl, hchord⟩

theorem inTime_ofVoiceLead {v : VoiceLeadContent Rat} {p : Phrase Rat}
    (h : (ofVoiceLead c v).Yields p) : p.InTime := by
  obtain ⟨_, _, h⟩ := h.of_bind
  obtain ⟨led, _, h⟩ := h.of_bind
  obtain ⟨_, _, h⟩ := h.of_bind
  obtain ⟨⟨notes, finish⟩, hnotes, h⟩ := h.of_bind
  cases h.of_pure
  have hnotes := hnotes.of_lift
  rw [Exact.start_eq] at hnotes
  exact between_ofVoicingsFrom hnotes

/-- Fitting notes into another time leaves them some. -/
theorem inTime_ofTuplet {ratio : List (Value Rat)} {texts : List String} {p : Phrase Rat}
    (h : ofTuplet c ratio texts = .ok p) : p.InTime := by
  obtain ⟨⟨actual, normal⟩, hratio, h⟩ := Outcome.bind_ok h
  obtain ⟨scale, hscale, h⟩ := Outcome.bind_ok h
  obtain ⟨hactual, hnormal⟩ := ratioOf_pos hratio
  refine inTime_ofNotes ?_ h
  unfold quotientOf at hscale
  rw [if_neg (by omega)] at hscale
  cases hscale
  have hactual' : (0 : Rat) < ((actual : Int) : Rat) := by exact_mod_cast hactual
  have hnormal' : (0 : Rat) < ((normal : Int) : Rat) := by exact_mod_cast hnormal
  exact div_pos hnormal' hactual'

theorem inTime_ofContinuation {s : ContinuationContent} {p : Phrase Rat}
    (h : (ofContinuation c s).Yields p) : p.InTime := by
  obtain ⟨source?, _, h⟩ := h.of_bind
  cases source? with
  | none =>
      obtain ⟨_, _, h⟩ := h.of_bind
      cases h.of_pure
      exact inTime_silence
  | some source =>
      obtain ⟨texts, _, h⟩ := h.of_bind
      exact inTime_ofNotes (by norm_num) h.of_lift

end Phrase

/-! ## §3  Drums -/

/-- A note that sounds and begins no earlier than its phrase. -/
structure Note.Sounds (n : Note Rat) : Prop where
  start : 0 ≤ n.start
  duration : 0 < n.duration

/-- A phrase that does not go back, of notes that sound. -/
structure Phrase.Sounds (p : Phrase Rat) : Prop where
  beats : 0 ≤ p.beats
  notes : ∀ n ∈ p.notes, n.Sounds

omit [Elementary] in
theorem Phrase.InTime.sounds {p : Phrase Rat} (h : p.InTime) : p.Sounds where
  beats := h.forward
  notes n hn := ⟨(h.sound n hn).1, (h.sound n hn).2.2⟩

/-- What a content must say for its notes to sound: the gate of an arpeggio is positive, and drums are
placed forward, in a number of bars that is not negative. -/
def Content.Forward : Content Rat → Prop
  | .arpeggio a => 0 < a.gate
  | .drums d =>
    (∀ hit ∈ d.hits, ∀ time : Rat, DrumTime.parse hit.time = .ok time → 0 ≤ time) ∧
      ∀ bars ∈ d.bars, 0 ≤ bars
  | _ => True

namespace Phrase

variable {c : Context Rat}

theorem sounds_lineNotes {drum kit : String} {length velocity : Rat} (hlength : 0 < length)
    {steps : List String} : ∀ n ∈ lineNotes drum kit length velocity steps, n.Sounds := by
  intro n hn
  obtain ⟨⟨step, i⟩, _, hstep⟩ := List.mem_filterMap.1 hn
  obtain ⟨v, _, rfl⟩ := Option.map_eq_some_iff.1 hstep
  exact ⟨mul_nonneg (Nat.cast_nonneg i) hlength.le, hlength⟩

theorem drumBarBeats_pos : (0 : Rat) < drumBarBeats := by
  norm_num [drumBarBeats]

theorem looseBeats_nonneg {bars : Option Rat} (hbars : ∀ b ∈ bars, 0 ≤ b) (steps : List String)
    (times : List Rat) {length : Rat} (hlength : 0 < length) :
    0 ≤ looseBeats bars steps times length := by
  unfold looseBeats
  split
  · next b => exact mul_nonneg (hbars b rfl) drumBarBeats_pos.le
  · split
    · exact mul_nonneg (Nat.cast_nonneg _) hlength.le
    · split
      · rw [Exact.max_eq]
        exact drumBarBeats_pos.le.trans (le_max_right _ _)
      · exact Exact.start_eq.ge

theorem sounds_ofLooseDrums {d : DrumsContent Rat} (hd : (Content.drums d).Forward) {length : Rat}
    (hlength : 0 < length) {p : Phrase Rat} (h : ofLooseDrums c d length = .ok p) : p.Sounds := by
  unfold ofLooseDrums at h
  dsimp only at h
  split at h
  all_goals
    obtain ⟨steps, _, h⟩ := Outcome.bind_ok h
    obtain ⟨times, htimes, h⟩ := Outcome.bind_ok h
    cases h
    refine ⟨looseBeats_nonneg hd.2 _ _ hlength, fun n hn => ?_⟩
    rcases List.mem_append.1 hn with hn | hn
    · exact sounds_lineNotes hlength n hn
    · rw [← List.map_uncurry_zip_eq_zipWith] at hn
      obtain ⟨⟨hit, time⟩, hmem, rfl⟩ := List.mem_map.1 hn
      have hparse := (List.forall₂_iff_zip.1 (Outcome.mapM_ok htimes)).2 hmem
      exact ⟨hd.1 hit (List.of_mem_zip hmem).1 time hparse, hlength⟩

theorem sounds_ofDrums {d : DrumsContent Rat} (hd : (Content.drums d).Forward) {p : Phrase Rat}
    (h : ofDrums c d = .ok p) : p.Sounds := by
  obtain ⟨length, _, h⟩ := Outcome.bind_ok h
  have hlength : 0 < (length.beats : Rat) := length.beats_pos
  dsimp only at h
  split at h
  · exact sounds_ofLooseDrums hd hlength h
  · cases h
    constructor
    · unfold ofDrumLines
      dsimp only
      split
      · next bars hbars => exact mul_nonneg (hd.2 bars hbars) drumBarBeats_pos.le
      · exact mul_nonneg (Nat.cast_nonneg _) hlength.le
    · intro n hn
      obtain ⟨line, _, hline⟩ := List.mem_flatMap.1 hn
      exact sounds_lineNotes hlength n hline

/-! ## §4  Any content -/

/-- All but drums are in time. -/
theorem inTime_ofContent {content : Content Rat} (hforward : content.Forward)
    (hpitched : ∀ d, content ≠ .drums d) {p : Phrase Rat} (h : (ofContent c content).Yields p) :
    p.InTime := by
  cases content with
  | notes ns => exact inTime_ofNotes (by norm_num) h.of_lift
  | chords cs =>
      obtain ⟨⟨notes, finish⟩, hnotes, h⟩ := h.of_bind
      cases h.of_pure
      rw [Exact.start_eq] at hnotes
      exact between_ofChordsFrom hnotes
  | degrees ds rhythm =>
      obtain ⟨⟨notes, finish⟩, hnotes, h⟩ := Outcome.bind_ok h.of_lift
      cases h
      rw [Exact.start_eq] at hnotes
      exact between_ofDegreesFrom hnotes
  | arpeggio a => exact inTime_ofArpeggio hforward h
  | drums d => exact absurd rfl (hpitched d)
  | euclidean e => exact inTime_ofEuclidean h.of_lift
  | markov m => exact inTime_ofMarkov h
  | continuation s => exact inTime_ofContinuation h
  | voiceLead v => exact inTime_ofVoiceLead h
  | tuplet ratio ns => exact inTime_ofTuplet h.of_lift
  | rest text =>
      obtain ⟨length, _, h⟩ := Outcome.bind_ok h.of_lift
      cases h
      exact .rest (by simpa using length.beats_pos) (.nil _)

theorem sounds_ofContent {content : Content Rat} (hforward : content.Forward) {p : Phrase Rat}
    (h : (ofContent c content).Yields p) : p.Sounds := by
  cases content with
  | drums d => exact sounds_ofDrums hforward h.of_lift
  | _ => exact (inTime_ofContent hforward nofun h).sounds

end Phrase

/-! ## §5  Any pattern -/

/-- A pattern whose own content says what it must. -/
def Pattern.Forward : Pattern Rat → Prop
  | .base b => b.content.Forward
  | .transformation _ | .inheritance _ | .conditional _ => True

theorem BasePattern.sounds_expand {b : BasePattern Rat} (hforward : b.content.Forward)
    {c : Context Rat} {s s' : Session} {p : Phrase Rat} (h : b.expand c s = .ok (p, s')) :
    p.Sounds ∧ ((∀ d, b.content ≠ .drums d) → ∀ n ∈ p.notes, n.start < p.beats) := by
  obtain ⟨plain, s₁, hplain, hfinish, hbeats⟩ := expand_ok h
  have hplain := (⟨s, s₁, hplain⟩ : Run.Yields _ plain)
  obtain ⟨hkeeps, _⟩ := Phrase.forall₂_applyFinish hfinish
  have hsounds := Phrase.sounds_ofContent hforward hplain
  -- A finish leaves the times of notes alone, so each note stands for one of before.
  have hbefore : ∀ n ∈ p.notes, ∃ n' ∈ plain.notes, n.start = n'.start ∧ n.duration = n'.duration := by
    intro n hn
    obtain ⟨n', hn', hkept, _⟩ := exists_of_mem_right hkeeps hn
    exact ⟨n', hn', hkept.start, hkept.duration⟩
  refine ⟨⟨hbeats ▸ hsounds.beats, fun n hn => ?_⟩, fun hpitched n hn => ?_⟩
  · obtain ⟨n', hn', hstart, hduration⟩ := hbefore n hn
    exact ⟨hstart ▸ (hsounds.notes n' hn').start, hduration ▸ (hsounds.notes n' hn').duration⟩
  · obtain ⟨n', hn', hstart, _⟩ := hbefore n hn
    rw [hstart, hbeats]
    exact ((Phrase.inTime_ofContent hforward hpitched hplain).sound n' hn').2.1

/-- **Every pattern keeps time.** Whatever a pattern is resolved to and on whatever stream it is
expanded, its length is not negative, and each of its notes begins no earlier than the phrase and
sounds. Unless the pattern comes to drums, each note also begins before the phrase ends. -/
theorem Pattern.expand_inTime {c : Context Rat} {p : Pattern Rat} (hp : p.Forward)
    (hpatterns : ∀ q, c.patterns.Has q → q.Forward) {s s' : Session} {phrase : Phrase Rat}
    (h : p.expand c s = .ok (phrase, s')) :
    0 ≤ phrase.beats ∧ (∀ n ∈ phrase.notes, 0 ≤ n.start ∧ 0 < n.duration) ∧
      ∀ b s₁, p.resolve c s = .ok (some b, s₁) → (∀ d, b.content ≠ .drums d) →
        ∀ n ∈ phrase.notes, n.start < phrase.beats := by
  obtain ⟨resolved?, s₂, hresolved, h⟩ := Run.bind_ok h
  cases resolved? with
  | none =>
      cases h
      refine ⟨Exact.start_eq.ge, nofun, fun b s₁ _ _ => nofun⟩
  | some b =>
      have hforward : b.content.Forward := content_resolveWithin (P := Content.Forward)
        (fun _ => trivial) (fun b' hb' => hpatterns _ hb')
        (fun b' hb' => by subst hb'; exact hp) ⟨s, s₂, hresolved⟩
      obtain ⟨hsounds, hinside⟩ := BasePattern.sounds_expand hforward h
      refine ⟨hsounds.beats, fun n hn => ⟨(hsounds.notes n hn).start, (hsounds.notes n hn).duration⟩,
        fun b' s₁ hb' hpitched => ?_⟩
      rw [hresolved] at hb'
      cases hb'
      exact hinside hpitched

/-- A broken chord whose tones sound for half their time. -/
def brokenChord : BasePattern Rat where
  content := .arpeggio
    { chord := "Am", duration := "8", mode := .text "updown", octaves := 1, gate := 1 / 2 }

/-- A drum that is struck after two beats and a half. -/
def lateDrum : BasePattern Rat where
  content := .drums { kit := "standard", step := "16", hits := [⟨"snare", "h+8", none⟩] }

def bandContext : Context Rat where
  key := ⟨⟨.c, .natural⟩, .major⟩
  tempo := 120
  patterns := [("broken", .base brokenChord), ("late", .base lateDrum)]
  velocity := 4 / 5

/-- The drum in later sections, the chord before. -/
def bandChoice : Pattern Rat :=
  .conditional
    { condition := "section_index", operator := ">", value := 0
      thenName := "late", elseName := .text "broken" }

theorem bandContext_forward {q : Pattern Rat} (hq : bandContext.patterns.Has q) : q.Forward := by
  obtain ⟨name, hname⟩ := hq
  have hmem := mem_of_lookup hname
  simp only [bandContext, List.mem_cons, List.not_mem_nil, or_false, Prod.mk.injEq] at hmem
  rcases hmem with ⟨_, rfl⟩ | ⟨_, rfl⟩
  · change (0 : Rat) < 1 / 2
    norm_num
  · refine ⟨fun hit hhit time htime => ?_, nofun⟩
    cases List.mem_singleton.1 hhit
    have hparse : DrumTime.parse (α := Rat) "h+8" = .ok (0.0 + 2.0 + 0.5) := by rfl
    cases hparse.symm.trans htime
    norm_num

omit [Elementary] in
/-- The theorem at work: in the first section the chord is played, four tones in two beats. -/
theorem bandChoice_inTime : ∃ _ : Elementary, ∃ phrase s',
    bandChoice.expand bandContext ⟨Twister.ofSeed 0, []⟩ = .ok (phrase, s') ∧
    phrase.beats = 2 ∧ phrase.notes.length = 4 ∧
    ∀ n ∈ phrase.notes, (0 ≤ n.start ∧ 0 < n.duration) ∧ n.start < phrase.beats := by
  let _ := Elementary.coarse
  obtain ⟨⟨phrase, s'⟩, hphrase, hchecked⟩ := Outcome.exists_of_any
    (r := bandChoice.expand bandContext ⟨Twister.ofSeed 0, []⟩)
    (p := fun x => x.1.beats = 2 && x.1.notes.length = 4) (by decide +kernel)
  have hresolved : bandChoice.resolve bandContext ⟨Twister.ofSeed 0, []⟩ =
      .ok (some brokenChord, ⟨Twister.ofSeed 0, []⟩) := by rfl
  obtain ⟨hbeats, hlength⟩ := (Bool.and_eq_true_iff.1 hchecked).imp of_decide_eq_true of_decide_eq_true
  obtain ⟨_, hsounds, hinside⟩ :=
    Pattern.expand_inTime (p := bandChoice) trivial (fun _ => bandContext_forward) hphrase
  refine ⟨inferInstance, phrase, s', hphrase, hbeats, hlength, fun n hn => ⟨hsounds n hn, ?_⟩⟩
  exact hinside brokenChord _ hresolved nofun n hn

end Partitura

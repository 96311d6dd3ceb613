import Partitura.Number.Exact
import Partitura.Proofs.Pattern.Kinds
import Partitura.Score.Reader

/-!
# Scores in two spellings

Seven fields of a score have names of several words. Where one of them is read (`contentNames`,
`patternNames`) its name may be written in camel case as well, and a score is read as before
(`Score.read_eq_of_respelled`): each reader asks for the same fields, and finds the same values under
them (`Alike`). Only the lines of drums are read off the mapping itself, and none of their names is
among the seven (`ownLines_respelled`).

What must not happen is that another spelling of a name comes before it. That no name stands in snake
case and in camel case is not enough for this, since a name that is half in the one and half in the
other is found, too (`wavering_read_apart`).
-/

namespace Partitura

open Fields

variable {α : Type}

/-! ## §1  Where names of several words are read -/

/-- The names of several words that are read in the value of a field of a pattern. -/
def contentNames : String → List String
  | "drums" => ["step_duration"]
  | "markov" => ["constrain_to_scale", "initial_state", "chord_scale"]
  | "voice_lead" => ["voice_ranges"]
  | _ => []

/-- Those that are read in a pattern itself; the length of a step, if it is drums in the short form. -/
def patternNames : List String :=
  ["constrain_to_scale", "voice_lead", "step_duration"]

section Relations

variable (fit : List String → Fields α → Prop)

def ContentRespelled (field : String) : Value α → Value α → Prop :=
  Respelled fit (contentNames field) fun _ v v' => v' = v

def PatternRespelled : Value α → Value α → Prop :=
  Respelled fit patternNames (ContentRespelled fit)

def SettingsRespelled : Value α → Value α → Prop :=
  Respelled fit ["time_signature"] fun _ v v' => v' = v

/-- What may change in the value of a field of a score. -/
def partRespelled : String → Value α → Value α → Prop
  | "settings" => SettingsRespelled fit
  | "patterns" => Respelled fit [] fun _ => PatternRespelled fit
  | _ => fun v v' => v' = v

/-- A score with some of its names of several words written in camel case, wherever they are read. -/
def ScoreRespelled : Value α → Value α → Prop :=
  Respelled fit [] (partRespelled fit)

end Relations

theorem plain_nil : Plain [] := by
  simp [Plain]

theorem plain_settings : Plain ["time_signature"] := by
  decide

theorem plain_pattern : Plain patternNames := by
  decide

theorem plain_content (field : String) : Plain (contentNames field) := by
  unfold contentNames
  split
  · decide
  · decide
  · decide
  · exact plain_nil

/-! ## §2  Mappings in which the same values are found -/

theorem eq_of_rel {a b : Option (Value α)} (h : Option.Rel (fun v v' => v' = v) a b) : b = a := by
  cases h with
  | none => rfl
  | some h => rw [h]

/-- Whatever is asked for has the same value. -/
def Alike (data data' : Fields α) : Prop :=
  ∀ name, snakeCase name = name → data'.find? name = data.find? name

theorem alike_of_respelled {names : List String} {data data' : Fields α} (hplain : Plain names)
    (hfore : Foremost names data)
    (h : RespelledFields names (fun _ v v' => v' = v) data data') : Alike data data' :=
  fun _ hname => eq_of_rel (find?_respelled hplain hfore h hname)

theorem eq_of_respelledFields_nil {data data' : Fields α}
    (h : RespelledFields [] (fun _ v v' => v' = v) data data') : data' = data := by
  induction h with
  | nil => rfl
  | @cons entry entry' rest rest' hentry _ ih =>
      obtain ⟨hkey, hvalue⟩ := hentry
      rw [ih, Prod.ext (hkey.resolve_right fun hmem => nomatch hmem.1) hvalue]

section Values

variable {fit : List String → Fields α → Prop} {names : List String}
  {inside : String → Value α → Value α → Prop} {v v' : Value α}

/-- Where no name may change, and no value, nothing does. -/
theorem eq_of_respelled_nil (h : Respelled fit [] (fun _ v v' => v' = v) v v') : v' = v := by
  cases h with
  | same => rfl
  | mapping _ h => rw [eq_of_respelledFields_nil h]

theorem isNull_respelled (h : Respelled fit names inside v v') : v'.isNull = v.isNull := by
  cases h with
  | same => rfl
  | mapping => rfl

theorem orNull_respelled {a b : Option (Value α)} (h : Option.Rel (Respelled fit names inside) a b) :
    Respelled fit names inside (Expect.orNull a) (Expect.orNull b) := by
  cases h with
  | none => exact .same _
  | some h => exact h

/-- A value stays what it is, but for mappings. -/
theorem content_same_or_mapping {field : String} (h : ContentRespelled fit field v v') :
    v' = v ∨ ∃ fields fields', v = .mapping fields ∧ v' = .mapping fields' := by
  cases h with
  | same => exact .inl rfl
  | mapping => exact .inr ⟨_, _, rfl, rfl⟩

end Values

/-! ## §3  Contents -/

section Readers

variable [Scalar α]

open Pattern.Reader Expect

theorem markov_alike {data data' : Fields α} (h : Alike data data') (path : String) :
    markov path data' = markov path data := by
  unfold Alike at h
  unfold markov constrains
  simp (disch := decide) only [h]

theorem voiceLead_alike {data data' : Fields α} (h : Alike data data') (path : String) :
    voiceLead path data' = voiceLead path data := by
  unfold Alike at h
  unfold voiceLead
  simp (disch := decide) only [h]

/-- The lines that a mapping holds under the names of drums. -/
def ownLines (data : Fields α) : Fields α :=
  data.filter fun (name, line) =>
    drumNames.contains name &&
      match line with
      | .text _ => true
      | _ => false

theorem drumLines_eq (data : Fields α) : drumLines data = (do
    let lines ← fieldsOf (orElse (data.find? "lines") (.mapping []))
    if !lines.isEmpty then return lines
    return ownLines data) :=
  rfl

/-- Drums need these fields, and the lines under the names of drums. -/
theorem drums_alike {data data' : Fields α}
    (h : ∀ name ∈ ["lines", "hits", "bars", "step_duration", "step", "kit", "steps"],
      data'.find? name = data.find? name)
    (hlines : ownLines data' = ownLines data) (path : String) :
    drums path data' = drums path data := by
  unfold drums
  rw [drumLines_eq, drumLines_eq, hlines]
  simp (disch := decide) only [h]

omit [Scalar α] in
/-- Lines under the names of drums are neither written anew nor moved. -/
theorem ownLines_respelled {names : List String} {inside : String → Value α → Value α → Prop}
    {data data' : Fields α}
    (hnames : ∀ name ∈ names, name ∉ drumNames ∧ camelCase name ∉ drumNames)
    (hinside : ∀ {field v v'}, inside field v v' →
      v' = v ∨ ∃ fields fields', v = .mapping fields ∧ v' = .mapping fields')
    (h : RespelledFields names inside data data') : ownLines data' = ownLines data := by
  induction h with
  | nil => rfl
  | @cons entry entry' rest rest' hentry _ ih =>
      obtain ⟨key, v⟩ := entry
      obtain ⟨key', v'⟩ := entry'
      obtain ⟨hkey, hvalue⟩ := hentry
      unfold ownLines at ih ⊢
      rw [List.filter_cons, List.filter_cons, ih]
      rcases hkey with heq | ⟨hmem, heq⟩
      · obtain rfl : key' = key := heq
        rcases hinside hvalue with heq | ⟨fields, fields', hv, hv'⟩
        · obtain rfl : v' = v := heq
          rfl
        · obtain rfl : v = .mapping fields := hv
          obtain rfl : v' = .mapping fields' := hv'
          simp
      · obtain rfl : key' = camelCase key := heq
        obtain ⟨hplain, hcamel⟩ := hnames key hmem
        simp [hplain, hcamel]

theorem content_respelled {data data' : Fields α} {k : ContentKind} {v v' : Value α} (path : String)
    (hrhythm : data'.find? "rhythm" = data.find? "rhythm")
    (hv : ContentRespelled Foremost k.field v v') : content path data' v' k = content path data v k := by
  cases k with
  | drums =>
      cases hv with
      | same => rfl
      | mapping hfore h =>
          have halike := alike_of_respelled (plain_content "drums") hfore h
          have hlines := ownLines_respelled (by decide) (fun heq => .inl heq) h
          have hdrums := drums_alike (fun name hname => halike name (by revert name; decide)) hlines
          unfold content
          dsimp only [mapping]
          rw [Outcome.ok_bind, Outcome.ok_bind, hdrums]
  | markov =>
      cases hv with
      | same => rfl
      | mapping hfore h =>
          have halike := alike_of_respelled (plain_content "markov") hfore h
          unfold content
          dsimp only [mapping]
          rw [Outcome.ok_bind, Outcome.ok_bind, markov_alike halike]
  | voiceLead =>
      cases hv with
      | same => rfl
      | mapping hfore h =>
          have halike := alike_of_respelled (plain_content "voice_lead") hfore h
          unfold content
          dsimp only [mapping]
          rw [Outcome.ok_bind, Outcome.ok_bind, voiceLead_alike halike]
  | degrees =>
      obtain rfl := eq_of_respelled_nil hv
      unfold content degrees
      rw [hrhythm]
  | notes | chords | arpeggio | euclidean | continuation | tuplet | rest =>
      obtain rfl := eq_of_respelled_nil hv
      rfl

/-! ## §4  Patterns -/

section Patterns

variable {data data' : Fields α}

variable (hfore : Foremost patternNames data)
  (h : RespelledFields patternNames (ContentRespelled Foremost) data data')

include hfore h

omit [Scalar α] in
theorem find?_eq_of_pattern (name : String) (hname : snakeCase name = name)
    (hcontent : contentNames name = []) : data'.find? name = data.find? name := by
  have hrel := find?_respelled plain_pattern hfore h hname
  generalize data.find? name = found at hrel ⊢
  generalize data'.find? name = found' at hrel ⊢
  cases hrel with
  | none => rfl
  | some hv =>
      unfold ContentRespelled at hv
      rw [hcontent] at hv
      rw [eq_of_respelled_nil hv]

omit [Scalar α] in
theorem content_of_pattern (k : PatternKind) : ContentRespelled Foremost k.field
    (orNull (data.find? k.field)) (orNull (data'.find? k.field)) :=
  orNull_respelled (find?_respelled plain_pattern hfore h k.snakeCase_field)

omit [Scalar α] in
theorem present_respelled : PatternKind.present data' = PatternKind.present data := by
  unfold PatternKind.present
  refine List.filter_congr fun k _ => ?_
  rw [isNull_respelled (content_of_pattern hfore h k)]

theorem finish_respelled (path : String) : finish path data' = finish path data := by
  have found (name : String) (hname : snakeCase name = name) (hcontent : contentNames name = []) :
      data'.find? name = data.find? name :=
    find?_eq_of_pattern hfore h name hname hcontent
  unfold finish constrains
  rw [found "velocity" (by decide) rfl, found "envelope" (by decide) rfl,
    found "constrain_to_scale" (by decide) rfl]

omit [Scalar α] in
theorem isShortDrums_respelled : isShortDrums data' = isShortDrums data := by
  have hdrums := content_of_pattern hfore h (.content .drums)
  unfold isShortDrums
  rw [find?_eq_of_pattern hfore h "type" (by decide) rfl]
  congr 1
  exact isNull_respelled hdrums

theorem ofKind_respelled (path : String) (k : PatternKind) :
    ofKind path data' (orNull (data'.find? k.field)) k =
      ofKind path data (orNull (data.find? k.field)) k := by
  have hv := content_of_pattern hfore h k
  have found (name : String) (hname : snakeCase name = name) (hcontent : contentNames name = []) :
      data'.find? name = data.find? name :=
    find?_eq_of_pattern hfore h name hname hcontent
  generalize orNull (data.find? k.field) = v at hv ⊢
  generalize orNull (data'.find? k.field) = v' at hv ⊢
  cases k with
  | reference k =>
      cases k with
      | conditional =>
          obtain rfl := eq_of_respelled_nil hv
          rfl
      | extension =>
          obtain rfl := eq_of_respelled_nil hv
          unfold ofKind inheritance
          rw [found "overrides" (by decide) rfl, found "velocity" (by decide) rfl,
            found "envelope" (by decide) rfl,
            found "constrain_to_scale" (by decide) rfl]
      | transform =>
          obtain rfl := eq_of_respelled_nil hv
          unfold ofKind transformation
          simp only [finish_respelled hfore h]
  | content k =>
      have hcontent := content_respelled path (found "rhythm" (by decide) rfl) hv
      simp only [ofKind, finish_respelled hfore h, hcontent]

end Patterns

theorem Pattern.read_respelled {v v' : Value α} (h : PatternRespelled Foremost v v') (name : String) :
    Pattern.read name v' = Pattern.read name v := by
  cases h with
  | same => rfl
  | mapping hfore h =>
      rename_i data data'
      have hshort := isShortDrums_respelled hfore h
      have hpresent := present_respelled hfore h
      by_cases hdrums : isShortDrums data = true
      · have hlines := ownLines_respelled (by decide) content_same_or_mapping h
        have hread := drums_alike (fun name hname => find?_eq_of_pattern hfore h name
          (by revert name; decide) (by revert name; decide)) hlines
        rw [read_short hdrums, read_short (hshort.trans hdrums), finish_respelled hfore h, hread]
      · have hlong : isShortDrums data = false := Bool.eq_false_iff.2 hdrums
        have hlong' : isShortDrums data' = false := hshort.trans hlong
        rcases hkinds : PatternKind.present data with _ | ⟨k, _ | ⟨k', ks⟩⟩
        · rw [read_none hlong hkinds, read_none hlong' (hpresent.trans hkinds)]
        · rw [read_one hlong hkinds, read_one hlong' (hpresent.trans hkinds), ofKind_respelled hfore h]
        · rw [read_mixed hlong hkinds, read_mixed hlong' (hpresent.trans hkinds)]

/-! ## §5  Scores -/

theorem Settings.read_respelled {v v' : Value α} (h : SettingsRespelled Foremost v v')
    (meta_ : Value α) : Settings.read v' meta_ = Settings.read v meta_ := by
  cases h with
  | same => rfl
  | mapping hfore h =>
      rename_i data data'
      have hget (name : String) (hname : snakeCase name = name) (hother : name ∉ ["time_signature"]) :
          data'.get? name = data.get? name :=
        eq_of_rel (get?_respelled plain_settings h hname hother)
      have hfind : data'.find? "time_signature" = data.find? "time_signature" :=
        eq_of_rel (find?_respelled plain_settings hfore h (by decide))
      unfold Settings.read
      dsimp only [mapping]
      rw [Outcome.ok_bind, Outcome.ok_bind, hget "tempo" (by decide) (by decide),
        hget "swing" (by decide) (by decide), hget "key" (by decide) (by decide),
        hfind]

section Entries

variable {fit : List String → Fields α → Prop} {names : List String}
  {inside : String → Value α → Value α → Prop}

theorem truthy_respelled {v v' : Value α} (h : Respelled fit names inside v v') :
    v'.truthy = v.truthy := by
  cases h with
  | same => rfl
  | mapping _ h =>
      cases h with
      | nil => rfl
      | cons => rfl

theorem orElse_respelled {a b : Option (Value α)} (h : Option.Rel (Respelled fit names inside) a b)
    (standard : Value α) : Respelled fit names inside (orElse a standard) (orElse b standard) := by
  cases h with
  | none => exact .same _
  | some h =>
      unfold orElse
      dsimp only
      rw [truthy_respelled h]
      split
      · exact h
      · exact .same _

/-- Entries are read under their names, which do not change. -/
theorem readEntries_respelled {β : Type} {R : Value α → Value α → Prop} {a b : Option (Value α)}
    {read : String → Value α → Outcome β} (path : String)
    (hread : ∀ v v', R v v' → ∀ name, read name v' = read name v)
    (h : Option.Rel (Respelled fit [] fun _ => R) a b) :
    readEntries path b read = readEntries path a read := by
  have hentries := orElse_respelled h (.mapping [])
  unfold readEntries
  generalize orElse a (.mapping []) = v at hentries ⊢
  generalize orElse b (.mapping []) = v' at hentries ⊢
  cases hentries with
  | same => rfl
  | mapping hfit h =>
      dsimp only [mapping]
      rw [Outcome.ok_bind, Outcome.ok_bind]
      clear hfit
      induction h with
      | nil => rfl
      | @cons entry entry' rest rest' hentry _ ih =>
          obtain ⟨key, v⟩ := entry
          obtain ⟨key', v'⟩ := entry'
          obtain ⟨hkey, hvalue⟩ := hentry
          obtain rfl : key' = key := hkey.resolve_right fun hmem => nomatch hmem.1
          rw [List.mapM_cons, List.mapM_cons, ih]
          simp only [hread v v' hvalue]

omit [Scalar α] in
/-- Whether a value is a mapping does not change. -/
theorem mapping_respelled {β : Type} {v v' : Value α} (h : Respelled fit names inside v v')
    (path : String) (next : Outcome β) :
    (mapping path v' >>= fun _ => next) = (mapping path v >>= fun _ => next) := by
  cases h with
  | same => rfl
  | mapping => rfl

end Entries

/-- **It does not matter whether names are written in snake case or in camel case.** Any of the names of
several words may be written in camel case wherever they are read, in mappings where no other spelling
of a name comes before it: the score, or the fault, is the same. -/
theorem Score.read_eq_of_respelled {v v' : Value α} (h : ScoreRespelled Foremost v v') :
    Score.read v' = Score.read v := by
  cases h with
  | same => rfl
  | mapping hfore h =>
      rename_i data data'
      have hpart (name : String) (hname : snakeCase name = name) :
          Option.Rel (partRespelled Foremost name) (data.get? name) (data'.get? name) :=
        get?_respelled plain_nil h hname nofun
      have hsame (name : String) (hname : snakeCase name = name)
          (hother : partRespelled (α := α) Foremost name = fun v v' => v' = v) :
          data'.get? name = data.get? name := by
        have hrel := hpart name hname
        rw [hother] at hrel
        exact eq_of_rel hrel
      have hsettings := orElse_respelled (hpart "settings" (by decide)) (.mapping [])
      have hpatterns := readEntries_respelled (R := PatternRespelled Foremost) "patterns"
        (fun v v' h => Pattern.read_respelled h) (hpart "patterns" (by decide))
      unfold Score.read
      dsimp only
      rw [show mapping "score" (.mapping data') = .ok data' from rfl,
        show mapping "score" (.mapping data) = .ok data from rfl, Outcome.ok_bind, Outcome.ok_bind,
        mapping_respelled hsettings, hsame "arrangement" (by decide) rfl,
        hsame "meta" (by decide) rfl, hsame "sections" (by decide) rfl,
        hsame "instruments" (by decide) rfl, hpatterns]
      simp only [Settings.read_respelled hsettings]

end Readers

/-- A waltz with a walk, led voices and drums, most of its names written as `spell` says. -/
def waltz (spell : String → String) : Value Rat :=
  .mapping
    [("settings", .mapping [(spell "time_signature", .text "3/4")]),
     ("patterns", .mapping
       [("walk", .mapping
          [("markov", .mapping
             [("states", .list [.text "1", .text "2"]), ("steps", .int 3),
              (spell "chord_scale", .text "C"), ("initial_state", .text "2")]),
           (spell "constrain_to_scale", .bool true)]),
        ("lead", .mapping [(spell "voice_lead", .mapping [(spell "voice_ranges", .mapping [])])]),
        ("beat", .mapping
          [("type", .text "drums"), ("kick", .text "x..."), (spell "step_duration", .text "8")])]),
     ("arrangement", .list [])]

/-- The theorem at work on the waltz, which can be read. -/
theorem waltz_read_alike : ∃ _ : Elementary, ScoreRespelled Foremost (waltz id) (waltz camelCase) ∧
    Score.read (waltz camelCase) = Score.read (waltz id) ∧ ∃ s, Score.read (waltz id) = .ok s := by
  let _ := Elementary.coarse
  have hrespelled : ScoreRespelled Foremost (waltz id) (waltz camelCase) := by
    refine .mapping (by decide)
      (.kept (by decide) (.mapping (by decide) (.renamed (by decide) (by decide) rfl .nil))
        (.kept (by decide) ?patterns (.kept (by decide) rfl .nil)))
    refine .mapping (by decide)
      (.kept (by decide) ?walk (.kept (by decide) ?lead (.kept (by decide) ?beat .nil)))
    case walk =>
      refine .mapping (by decide)
        (.kept (by decide) ?_ (.renamed (by decide) (by decide) (.same _) .nil))
      exact .mapping (by decide) (.kept (by decide) rfl (.kept (by decide) rfl
        (.renamed (by decide) (by decide) rfl (.kept (by decide) rfl .nil))))
    case lead =>
      refine .mapping (by decide) (.renamed (by decide) (by decide) ?_ .nil)
      exact .mapping (by decide) (.renamed (by decide) (by decide) rfl .nil)
    case beat =>
      exact .mapping (by decide) (.kept (by decide) (.same _) (.kept (by decide) (.same _)
        (.renamed (by decide) (by decide) (.same _) .nil)))
  exact ⟨inferInstance, hrespelled, Score.read_eq_of_respelled hrespelled,
    Outcome.exists_of_isSome (by decide +kernel)⟩

/-- Names are distinct, and none stands in snake case and in camel case. -/
def Once {α : Type} (names : List String) (fields : Fields α) : Prop :=
  (fields.map Prod.fst).Nodup ∧
    ∀ name ∈ names, ¬ (name ∈ fields.map Prod.fst ∧ camelCase name ∈ fields.map Prod.fst)

instance {α : Type} (names : List String) (fields : Fields α) : Decidable (Once names fields) :=
  inferInstanceAs (Decidable (_ ∧ ∀ name ∈ names, _))

/-- A pattern whose flag stands twice, once spelled half in snake case and half in camel case. -/
def wavering (flag : String) : Value Rat :=
  .mapping
    [("patterns", .mapping
       [("p", .mapping
          [("notes", .list [.text "C4:q"]), ("constrain_toScale", .bool true), (flag, .bool false)])]),
     ("arrangement", .list [])]

/-- The flags of the patterns that are read. -/
def flagsOf (r : Outcome (Score Rat)) : List Bool :=
  match r with
  | .ok s => s.patterns.filterMap fun
      | (_, .base b) => some b.finish.constrainToScale
      | _ => none
  | .error _ => []

/-- It is not enough that no name stands in both spellings: the half-way spelling is found before the
name in camel case, and not before the name in snake case. -/
theorem wavering_read_apart : ∃ _ : Elementary,
    ScoreRespelled Once (wavering "constrain_to_scale") (wavering "constrainToScale") ∧
    Score.read (wavering "constrainToScale") ≠ Score.read (wavering "constrain_to_scale") := by
  let _ := Elementary.coarse
  have hrespelled :
      ScoreRespelled Once (wavering "constrain_to_scale") (wavering "constrainToScale") := by
    refine .mapping (by decide)
      (.kept (by decide) (.mapping (by decide) (.kept (by decide) ?_ .nil))
        (.kept (by decide) rfl .nil))
    -- The half-way spelling stays, and is no name in snake case.
    have hflag : RespelledFields patternNames (ContentRespelled Once)
        [("constrain_to_scale", .bool false)] [("constrainToScale", .bool false)] :=
      .renamed (by decide) (by decide) (.same (.bool false : Value Rat)) .nil
    exact .mapping (by decide) (.kept (by decide) (.same _) (.cons ⟨.inl rfl, .same _⟩ hflag))
  refine ⟨inferInstance, hrespelled, fun heq => ?_⟩
  have hbefore : flagsOf (Score.read (wavering "constrain_to_scale")) = [false] := by decide +kernel
  have hafter : flagsOf (Score.read (wavering "constrainToScale")) = [true] := by decide +kernel
  rw [heq, hbefore] at hafter
  cases hafter

end Partitura

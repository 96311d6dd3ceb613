import Partitura.Pattern.Reader
import Partitura.Score.Basic

/-!
# Reading scores

A score is read from a raw document: its settings, its patterns, its sections and their tracks, and
the arrangement. What the document does not say takes a standard value. Only the shape is checked
here; the texts inside are read when the score is compiled.
-/

namespace Partitura

variable {α : Type} [Scalar α]

open Expect

/-! ## Tracks -/

/-- The names of the patterns of a track: a list, or one alone. -/
def Track.readPatterns (path : String) (data : Fields α) : Outcome (List String) := do
  match orNull (data.find? "patterns"), orNull (data.find? "pattern") with
  | .null, .null => return []
  | .null, v => return [← string (path ++ ".pattern") v]
  | v, _ => strings (path ++ ".patterns") v

def Track.read (path : String) (v : Value α) : Outcome (Track α) := do
  let data ← mapping path v
  let patterns ← readPatterns path data
  let velocity ← optionalNumber (path ++ ".velocity") (orNull (data.find? "velocity"))
  let repeats ← whole (path ++ ".repeat") ((data.find? "repeat").getD (.int 1))
  let humanize ← optionalNumber (path ++ ".humanize") (orNull (data.find? "humanize"))
  let octave ← whole (path ++ ".octave") ((data.find? "octave").getD (.int 0))
  let transpose ← whole (path ++ ".transpose") ((data.find? "transpose").getD (.int 0))
  return { patterns, velocity, repeats, humanize, octave, transpose
           mute := (orNull (data.find? "mute")).truthy
           groove := orNull (data.find? "groove")
           expression := orNull (data.find? "expression") }

/-! ## Sections -/

def CurvePoint.read (path : String) (i : Nat) (v : Value α) : Outcome (CurvePoint α) := do
  let where_ := item (path ++ ".points") i
  let point ← mapping where_ v
  let time ← number (where_ ++ ".time") (orNull (point.get? "time"))
  let value ← number (where_ ++ ".value") (orNull (point.get? "value"))
  return { time, value }

def Automation.read (path : String) (v : Value α) : Outcome (Automation α) := do
  let data ← mapping path v
  let points ← each (CurvePoint.read path) (← (orElse (data.get? "points") (.list [])).items)
  let startValue := (data.get? "start").getD (.real 0.0)
  let start ← number (path ++ ".start") startValue
  let finish ← number (path ++ ".end") ((data.get? "end").getD startValue)
  return { start, finish
           curve := ((data.get? "curve").getD (.text "linear")).plain
           points }

def DensityCurve.read (path : String) (v : Value α) : Outcome (DensityCurve α) := do
  let data ← mapping path v
  let startValue := (data.get? "start").getD (.real 1.0)
  let start ← number (path ++ ".start") startValue
  let finish ← number (path ++ ".end") ((data.get? "end").getD startValue)
  return { start, finish, curve := ((data.get? "curve").getD (.text "linear")).plain }

/-- Reads the entries of a mapping under their names; a value that counts as false has none. -/
def readEntries {β : Type} (path : String) (v : Option (Value α))
    (read : String → Value α → Outcome β) : Outcome (List (String × β)) := do
  let entries ← mapping path (orElse v (.mapping []))
  entries.mapM fun (name, entry) => do return (name, ← read name entry)

def Section.read (name : String) (v : Value α) : Outcome (Section α) := do
  let path := "sections." ++ name
  let data ← mapping path v
  match data.get? "bars" with
  | none => malformed (.missing (path ++ ".bars"))
  | some bars =>
    let bars ← number (path ++ ".bars") bars
    let tracks ← readEntries (path ++ ".tracks") (data.get? "tracks") fun track v =>
      Track.read (path ++ ".tracks." ++ track) v
    let tempo ← optionalNumber (path ++ ".tempo") (orNull (data.find? "tempo"))
    let density ←
      match orNull (data.find? "density") with
      | .null => pure none
      | d => some <$> DensityCurve.read (path ++ ".density") d
    let automation ← readEntries (path ++ ".automation") (data.get? "automation") fun target v =>
      Automation.read (path ++ ".automation." ++ target) v
    return { bars, tracks, tempo, key := orNull (data.find? "key"), density, automation }

/-! ## Scores -/

def Settings.read (settings meta_ : Value α) : Outcome (Settings α) := do
  let data ← mapping "settings" settings
  let tempo ← number "settings.tempo" ((data.get? "tempo").getD (.real defaultTempo))
  let swing ← number "settings.swing" ((data.get? "swing").getD (.real defaultSwing))
  return { tempo
           key := ((data.get? "key").getD (.text defaultKey)).plain
           timeSignature :=
             ((data.find? "time_signature").getD (.text defaultTimeSignature)).plain
           swing
           title :=
             match meta_ with
             | .mapping fields => orNull (Fields.get? fields "title")
             | _ => .null }

/-- Reads a score. -/
def Score.read (v : Value α) : Outcome (Score α) := do
  let data ← mapping "score" v
  let settings := orElse (data.get? "settings") (.mapping [])
  let _ ← mapping "settings" settings
  match orNull (data.get? "arrangement") with
  | .null => malformed (.missing "arrangement")
  | arrangement =>
    let settings ← Settings.read settings (orElse (data.get? "meta") (.mapping []))
    let patterns ← readEntries "patterns" (data.get? "patterns") Pattern.read
    let sections ← readEntries "sections" (data.get? "sections") Section.read
    let arrangement ← strings "arrangement" arrangement
    let instruments ← mapping "instruments" (orElse (data.get? "instruments") (.mapping []))
    return { settings, patterns, sections, arrangement, instruments := instruments.map (·.1) }

end Partitura

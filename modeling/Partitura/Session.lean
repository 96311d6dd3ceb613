import Partitura.Random.Draw

/-!
# Sessions

What expanding and performing patterns carries along: the random stream in use and the warnings so
far. A warning is a recoverable problem; it is kept in the order of its first report, and only once.
-/

namespace Partitura

/-- Warnings in the order of their first report. -/
abbrev Warnings :=
  List String

/-- Adds a warning, unless it has been given before. -/
def Warnings.add (ws : Warnings) (message : String) : Warnings :=
  if ws.contains message then ws else ws ++ [message]

def Warnings.addAll (ws : Warnings) (messages : List String) : Warnings :=
  messages.foldl Warnings.add ws

structure Session where
  stream : Twister
  warnings : Warnings := []

/-- A computation that may draw, warn and fail. -/
abbrev Run :=
  StateT Session Outcome

namespace Run

variable {β : Type}

def warn (message : String) : Run Unit :=
  modify fun s => { s with warnings := Warnings.add s.warnings message }

def warnAll (messages : List String) : Run Unit :=
  modify fun s => { s with warnings := Warnings.addAll s.warnings messages }

/-- Draws from the stream of the session. -/
def ofDraw (d : Draw β) : Run β := do
  let s ← get
  let (x, t) ← d.outcome s.stream
  set { s with stream := t }
  return x

end Run

end Partitura

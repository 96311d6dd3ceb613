import Partitura.Curve.Easing

/-!
# Automation

A value that moves while a section plays: from a start to an end along a curve, or through given
points. Positions run from 0 to 1 over the section.
-/

namespace Partitura

/-- A value at a position. -/
structure CurvePoint (α : Type) where
  time : α
  value : α

structure Automation (α : Type) where
  start : α
  finish : α
  /-- The name of the curve as written. A name that is none counts as linear. -/
  curve : String := "linear"
  /-- Points win over start, end and curve. -/
  points : List (CurvePoint α) := []

namespace Automation

/-- The names of the curves that an automation may follow. -/
def curveNames : List String :=
  ["linear", "exponential", "sine", "step"]

variable {α : Type} [Scalar α]

/-- The value between two points. -/
def between (lower upper : CurvePoint α) (t : α) : α :=
  if upper.time == lower.time then upper.value
  else
    let share := (t - lower.time) / (upper.time - lower.time)
    lower.value + share * (upper.value - lower.value)

/-- The value at `t` in the first stretch between neighbouring points that `t` lies in. -/
def inStretch? (t : α) : List (CurvePoint α) → Option α
  | lower :: upper :: rest =>
    if lower.time ≤ t && t ≤ upper.time then some (between lower upper t)
    else inStretch? t (upper :: rest)
  | _ => none

/-- Points in the order of their times. -/
def inOrder (points : List (CurvePoint α)) : List (CurvePoint α) :=
  points.mergeSort fun a b => !decide (b.time < a.time)

/-- The value at `t` on straight lines through the points, which is held before the first and after
the last of them. -/
def throughPoints (points : List (CurvePoint α)) (t : α) : Outcome α :=
  let ordered := inOrder points
  match ordered, ordered.getLast? with
  | first :: _, some last =>
    if t ≤ first.time then .ok first.value
    else if last.time ≤ t then .ok last.value
    else .ok ((inStretch? t ordered).getD last.value)
  | _, _ => .error .emptyChoice

/-- The least value that a move in equal ratios starts from or leads to. -/
def ratioFloor : α :=
  0.001

/-- The value at `t` on a curve. The exponential one moves in equal ratios, which suits frequencies. -/
def alongCurve (start finish t : α) (curve : String) : Outcome α :=
  match curve with
  | "exponential" => do
    let low := Scalar.max ratioFloor start
    let high := Scalar.max ratioFloor finish
    return low * (← powerOf (← divide high low) t)
  | "sine" => do return start + (← Easing.sineEase t) * (finish - start)
  | "step" => .ok (if t < 0.5 then start else finish)
  | _ => .ok (start + t * (finish - start))

/-- The value at a position of the section. -/
def value (a : Automation α) (t : α) : Outcome α :=
  if a.points.isEmpty then alongCurve a.start a.finish t a.curve
  else throughPoints a.points t

/-- How many samples an automation is written out with, less one. -/
def standardResolution : Int :=
  20

/-- The automation at `resolution + 1` times from 0 to `duration`. -/
def samples (a : Automation α) (duration : α) (resolution : Int) : Outcome (List (α × α)) :=
  (List.range (resolution + 1).toNat).mapM fun (i : Nat) => do
    let position ← divide (Scalar.ofNat i) (Scalar.ofInt resolution)
    return (position * duration, ← a.value position)

end Automation

end Partitura

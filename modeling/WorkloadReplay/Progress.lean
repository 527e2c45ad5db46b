import WorkloadReplay.Double.Basic
import WorkloadReplay.Text.Numeral
import WorkloadReplay.Text.Basic

/-!
# Progress bars

A bar of fifty places shows a percentage. It is drawn over the one before it whenever the whole
percentage has grown.
-/

namespace WorkloadReplay.Progress

def hundredths (current total : Nat) : Double :=
  (Double.quotient (.rounded (min current total)) (.rounded total)).product (.rounded 100)

/-- The whole percentage that `current` is of `total`; nothing of nothing is all of it. -/
def percent (current total : UInt64) : UInt8 :=
  if total = 0 then 100
  else UInt8.ofNat ((hundredths current.toNat total.toNat).wholePart 255)

def width : Nat := 50

/-- The character at a place of a bar of which so many places are filled. -/
def mark (filled place : Nat) : Char :=
  if place + 1 < filled then '=' else if place + 1 = filled then '>' else ' '

def render (percent : UInt8) : String :=
  let filled := min percent.toNat 100 * width / 100
  "[" ++ String.ofList ((List.range width).map (mark filled)) ++ "] " ++
    Text.ofAscii (Numeral.ofNat percent.toNat) ++ "%"

/-- A bar: the percentage it shows, and all that has been written to draw it. -/
structure Bar where
  shown : Option UInt8
  output : String

namespace Bar

def new : Bar := ⟨none, ""⟩

/-- Draws the bar anew if the whole percentage has grown. -/
def update (b : Bar) (current total : UInt64) : Bar :=
  let p := percent current total
  if b.shown.any (p ≤ ·) then b else ⟨some p, b.output ++ "\r" ++ render p⟩

def finish (b : Bar) : Bar := { b with output := b.output ++ "\n" }

end Bar

end WorkloadReplay.Progress

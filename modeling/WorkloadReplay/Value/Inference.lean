import WorkloadReplay.Calendar
import WorkloadReplay.Value.Basic

/-!
# The type of a logged parameter

A log gives parameters as texts. A text is taken for the first of these that it is: an integer in
its only written form, a decimal fraction, a timestamp, a date, a time of day; and for a text
otherwise. So an integer is never restored with other characters than it was logged with.
-/

namespace WorkloadReplay.Value
open Numeral

def dropMinus : List UInt8 → List UInt8
  | 0x2D :: rest => rest
  | b => b

theorem dropMinus_of_head {b : List UInt8} (h : b.head? ≠ some 0x2D) : dropMinus b = b := by
  unfold dropMinus
  split
  · exact absurd rfl h
  · rfl

/-- Digits that a number is written with: no zero in front of others. -/
def isCanonicalNumeral (ds : List UInt8) : Bool :=
  isNumeral ds && (ds.length = 1 || ds.head? ≠ some 0x30)

/-- The word whose decimal text this is. -/
def canonicalInt? (b : List UInt8) : Option Int64 :=
  if isCanonicalNumeral (dropMinus b) && b ≠ [0x2D, 0x30] then int64? b else none

/-- What has been seen of a number without sign, byte by byte. -/
structure Seen where
  digit : Bool
  point : Bool
  exponent : Bool
  previous : UInt8
  deriving DecidableEq

namespace Seen

def isLetter (b : UInt8) : Bool := b = 0x65 || b = 0x45

def isSign (b : UInt8) : Bool := b = 0x2B || b = 0x2D

/-- What has been seen with one more byte, if a number can go on with it. -/
def step? (seen : Seen) (b : UInt8) : Option Seen :=
  if isDigit b then some { seen with digit := true, previous := b }
  else if b = 0x2E && !seen.point && !seen.exponent then
    some { seen with point := true, previous := b }
  else if isLetter b && seen.digit && !seen.exponent then
    some { seen with exponent := true, previous := b }
  else if isSign b && isLetter seen.previous then some { seen with previous := b }
  else none

def isFraction (seen : Seen) : Bool :=
  seen.digit && (seen.point || seen.exponent) &&
    !(isLetter seen.previous || isSign seen.previous)

/-- Going on with these bytes comes to the end of a number. -/
def accepts (seen : Seen) (b : List UInt8) : Bool := (b.foldlM step? seen).any isFraction

end Seen

/-- The text has the form of a number with a point or an exponent. -/
def looksFractional (b : List UInt8) : Bool :=
  Seen.accepts ⟨false, false, false, 0⟩ (dropMinus b)

/-- The finite number with a point or an exponent whose text this is. -/
def fractional? (b : List UInt8) : Option Double :=
  if looksFractional b then (Double.ofText? b).filter Double.isFinite else none

/-- The timestamp that a text is: date, space and time of day. -/
def timestamp? (s : String) : Option Value :=
  if 19 ≤ (Text.bytes s).length && (Text.bytes s)[10]? = some 0x20 then
    (Calendar.readMoment? s.toList).map fun v => timestamp (Int64.ofInt v)
  else none

def date? (s : String) : Option Value :=
  if (Text.bytes s).length = 10 then
    (Calendar.readDate? s.toList).map fun d => date (Int64.ofInt (d.days * 86400000))
  else none

/-- The time of day that a text is: two bytes, a colon and more. -/
def time? (s : String) : Option Value :=
  if 8 ≤ (Text.bytes s).length && (Text.bytes s)[2]? = some 0x3A then
    (Calendar.readClockTime? s.toList).map fun t => time (Int64.ofNat t.milliseconds)
  else none

/-- The value that a logged text stands for. -/
def infer (s : String) : Value :=
  match canonicalInt? (Text.bytes s) with
  | some v => int v
  | none =>
    match fractional? (Text.bytes s) with
    | some v => double v
    | none => ((timestamp? s <|> date? s) <|> time? s).getD (text s)

end WorkloadReplay.Value

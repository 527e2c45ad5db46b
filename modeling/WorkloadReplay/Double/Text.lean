import WorkloadReplay.Double.Basic
import WorkloadReplay.Text.Numeral

/-!
# Texts of double precision numbers

A number is read from an optional sign and then `inf`, `infinity` or `nan` in letters of either
case, or digits with at most one point and at least one digit, with an optional exponent: `e` or
`E`, an optional sign and at least one digit. Its value is rounded to the nearest number. Of an
exponent only as many digits count as bring it to 65536.

A number is written with the fewest decimal digits that read back as the same number, and of those
with the ones nearest to it, a tie going up. The text is always positional: no exponent, and no
point after a whole number. Should no number of up to 17 digits read back, all digits of the value
are written, which are finitely many.
-/

namespace WorkloadReplay.Double
open Numeral

/-! ## Reading -/

def lower (b : UInt8) : UInt8 := if 0x41 ≤ b && b ≤ 0x5A then b + 0x20 else b

/-- Once an exponent has come so far, its further digits do not count. -/
def exponentLimit : Nat := 65536

def exponentOfDigits (ds : List UInt8) : Nat :=
  ds.foldl (fun e d => if e < exponentLimit then 10 * e + digitValue d else e) 0

def exponent? : List UInt8 → Option Int
  | 0x2D :: ds => if isNumeral ds then some (-(exponentOfDigits ds : Int)) else none
  | 0x2B :: ds => if isNumeral ds then some (exponentOfDigits ds) else none
  | ds => if isNumeral ds then some (exponentOfDigits ds) else none

/-- The exponent part after the mantissa: nothing, or a letter and the exponent. -/
def exponentPart? : List UInt8 → Option Int
  | [] => some 0
  | b :: rest => if lower b = 0x65 then exponent? rest else none

/-- The digits before the point, those after it, and what follows the mantissa. -/
def mantissa (b : List UInt8) : List UInt8 × List UInt8 × List UInt8 :=
  let whole := b.takeWhile isDigit
  match b.dropWhile isDigit with
  | 0x2E :: rest => (whole, rest.takeWhile isDigit, rest.dropWhile isDigit)
  | rest => (whole, [], rest)

/-- The magnitude nearest to `number digits * 10 ^ exponent`; far outside the range of the numbers
the power is not worked out. -/
def ofDigits (digits : List UInt8) (exponent : Int) : Nat :=
  let v := number digits
  if v = 0 then 0
  else if 400 < exponent then infiniteMagnitude
  else if exponent < -(digits.length + 400 : Nat) then 0
  else ofDecimal v exponent

def decimal? (b : List UInt8) : Option Nat :=
  let (whole, decimals, rest) := mantissa b
  if whole.isEmpty && decimals.isEmpty then none
  else (exponentPart? rest).map fun e => ofDigits (whole ++ decimals) (e - decimals.length)

/-- The number that a text without sign stands for, with this sign. -/
def unsigned? (negative : Bool) (b : List UInt8) : Option Double :=
  let word := b.map lower
  if word = [0x69, 0x6E, 0x66] || word = [0x69, 0x6E, 0x66, 0x69, 0x6E, 0x69, 0x74, 0x79] then
    some (infinity negative)
  else if word = [0x6E, 0x61, 0x6E] then some (notANumber negative)
  else (decimal? b).map (ofMagnitude negative)

def ofText? : List UInt8 → Option Double
  | 0x2D :: rest => unsigned? true rest
  | 0x2B :: rest => unsigned? false rest
  | b => unsigned? false b

/-! ## The shortest text -/

structure Decimal where
  digits : Nat
  exponent : Int
  deriving DecidableEq

/-- The same number without zeros at the end of its digits. -/
def Decimal.strip (d : Decimal) : Decimal :=
  if 0 < d.digits ∧ d.digits % 10 = 0 then Decimal.strip ⟨d.digits / 10, d.exponent + 1⟩ else d
termination_by d.digits
decreasing_by omega

/-- The digits with a point where the exponent puts it, filled up with zeros. -/
def Decimal.positional (d : Decimal) : List UInt8 :=
  let ds := ofNat d.digits
  if 0 ≤ d.exponent then ds ++ List.replicate d.exponent.toNat 0x30
  else
    let places := (-d.exponent).toNat
    if places < ds.length then ds.take (ds.length - places) ++ 0x2E :: ds.drop (ds.length - places)
    else 0x30 :: 0x2E :: (List.replicate (places - ds.length) 0x30 ++ ds)

/-- The least `k` for which `num / den` is below `10 ^ k`, for a ratio that is not zero. -/
def decimalOrder (num den : Nat) : Int :=
  if den ≤ num then (ofNat (num / den)).length
  else
    let k := (ofNat (den / num)).length
    if den ≤ num * Nat.pow 10 (k - 1) then 2 - k else 1 - k

/-- Of the two numbers on the grid of multiples of `10 ^ unit` around the value of `x`, the nearest
that reads back as `x`. -/
def onGrid? (x : Double) (unit : Int) : Option Decimal :=
  let p := power 10 unit
  let num := x.ratio.1 * p.2
  let den := x.ratio.2 * p.1
  let below := Decimal.strip ⟨num / den, unit⟩
  let above := Decimal.strip ⟨num / den + 1, unit⟩
  let (first, second) := if 2 * (num % den) < den then (below, above) else (above, below)
  if ofDecimal first.digits first.exponent = x.magnitude then some first
  else if ofDecimal second.digits second.exponent = x.magnitude then some second
  else none

def expansion (x : Double) : Decimal :=
  if 0 ≤ x.scale then ⟨x.significand * Nat.pow 2 x.scale.toNat, 0⟩
  else ⟨x.significand * Nat.pow 5 (-x.scale).toNat, x.scale⟩

/-- The shortest decimal number that reads back as the finite number `x`, which is not zero. -/
def shortest (x : Double) : Decimal :=
  let order := decimalOrder x.ratio.1 x.ratio.2
  ((List.range' 1 17).findSome? fun (n : Nat) => onGrid? x (order - n)).getD x.expansion

def magnitudeText (x : Double) : List UInt8 :=
  if x.magnitude = 0 then [0x30]
  else if x.isInfinite then [0x69, 0x6E, 0x66]
  else x.shortest.positional

def text (x : Double) : List UInt8 :=
  if x.isNaN then [0x4E, 0x61, 0x4E]
  else if x.isNegative then 0x2D :: x.magnitudeText
  else x.magnitudeText

end WorkloadReplay.Double

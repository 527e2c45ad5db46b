/-!
# Double precision numbers

A double precision number is kept as its 64 bits: a sign, eleven bits of exponent and 52 bits of
fraction. A finite number has the magnitude `significand * 2 ^ scale`. `nearest` rounds a ratio of
natural numbers to the nearest magnitude, a half to the even one, and `ofDecimal` a decimal number.

Each operation works out the exact ratio and rounds it once. The operands are numbers that are not
negative; `wholePart` leaves the rounded numbers again.
-/

namespace WorkloadReplay

structure Double where
  bits : UInt64
  deriving DecidableEq, Inhabited

namespace Double

def signWeight : Nat := 0x8000000000000000

/-- The weight of the exponent among the bits, which is the number of fractions. -/
def exponentWeight : Nat := 0x10000000000000

/-- The bits without the sign, as a number: larger magnitudes have larger ones. -/
def magnitude (x : Double) : Nat := x.bits.toNat % signWeight

def isNegative (x : Double) : Bool := signWeight ≤ x.bits.toNat

def exponentField (x : Double) : Nat := x.magnitude / exponentWeight

def fraction (x : Double) : Nat := x.magnitude % exponentWeight

def infiniteMagnitude : Nat := 2047 * exponentWeight

def isFinite (x : Double) : Bool := x.magnitude < infiniteMagnitude

def isInfinite (x : Double) : Bool := x.magnitude = infiniteMagnitude

def isNaN (x : Double) : Bool := infiniteMagnitude < x.magnitude

def isPositiveFinite (x : Double) : Bool := x.isFinite && !x.isNegative && x.magnitude ≠ 0

def ofMagnitude (negative : Bool) (magnitude : Nat) : Double :=
  ⟨UInt64.ofNat (if negative then signWeight + magnitude else magnitude)⟩

def infinity (negative : Bool) : Double := ofMagnitude negative infiniteMagnitude

def notANumber (negative : Bool) : Double :=
  ofMagnitude negative (infiniteMagnitude + exponentWeight / 2)

def one : Double := ⟨0x3FF0000000000000⟩

/-- The fraction, with the leading one that all but the smallest numbers leave out. -/
def significand (x : Double) : Nat :=
  if x.exponentField = 0 then x.fraction else x.fraction + exponentWeight

/-- The power of two that the significand counts. -/
def scale (x : Double) : Int := (max 1 x.exponentField : Nat) - 1075

/-- A ratio rounded to a natural number, a half to the even one. -/
def roundEven (num den : Nat) : Nat :=
  let floor := num / den
  let twice := 2 * (num % den)
  if den < twice ∨ (twice = den ∧ floor % 2 = 1) then floor + 1 else floor

/-- The powers `b ^ i` and `b ^ -i`, of which one is 1, as a ratio. -/
def power (b : Nat) (i : Int) : Nat × Nat := (Nat.pow b i.toNat, Nat.pow b (-i).toNat)

def ratio (x : Double) : Nat × Nat :=
  let p := power 2 x.scale
  (x.significand * p.1, p.2)

/-- The greatest power of two that is at most `num / den`, for a ratio that is not zero. -/
def binaryOrder (num den : Nat) : Int :=
  let guess : Int := (Nat.log2 num : Int) - Nat.log2 den
  let p := power 2 guess
  if num * p.2 < den * p.1 then guess - 1 else guess

/-- The magnitude nearest to `num / den`, a half to the even one: the significand is rounded to 53
bits, or to the multiples of the smallest magnitude, and what is too large is infinite. -/
def nearest (num den : Nat) : Nat :=
  if num = 0 then 0
  else
    let unit := max (binaryOrder num den - 52) (-1074)
    let p := power 2 unit
    min infiniteMagnitude ((unit + 1074).toNat * exponentWeight + roundEven (num * p.2) (den * p.1))

/-- The magnitude nearest to `digits * 10 ^ exponent`. -/
def ofDecimal (digits : Nat) (exponent : Int) : Nat :=
  let p := power 10 exponent
  nearest (digits * p.1) p.2

example : ofDecimal 1 0 = one.magnitude := by decide +kernel
example : ofDecimal 1 309 = infiniteMagnitude := by decide +kernel
example : ofDecimal 5 (-324) = 1 ∧ ofDecimal 2 (-324) = 0 := by decide +kernel
example : ofDecimal 9007199254740993 0 = ofDecimal 9007199254740992 0 := by decide +kernel

/-! ## Arithmetic -/

def rounded (n : Nat) : Double := ofMagnitude false (nearest n 1)

def product (x y : Double) : Double :=
  ofMagnitude false (nearest (x.ratio.1 * y.ratio.1) (x.ratio.2 * y.ratio.2))

/-- The number nearest to the quotient of two finite numbers, the second of which is not zero. -/
def quotient (x y : Double) : Double :=
  ofMagnitude false (nearest (x.ratio.1 * y.ratio.2) (x.ratio.2 * y.ratio.1))

/-- The whole part of a number, but no more than `most`. -/
def wholePart (most : Nat) (x : Double) : Nat :=
  if x.isFinite then min most (x.ratio.1 / x.ratio.2) else most

example : rounded 1 = one := by decide +kernel
example : (quotient (rounded 7) (rounded 2)).wholePart 10 = 3 := by decide +kernel
example : (quotient (rounded 1) ⟨1⟩).wholePart 10 = 10 := by decide +kernel

end Double

end WorkloadReplay

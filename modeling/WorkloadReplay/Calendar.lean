import WorkloadReplay.Text.Basic

/-!
# The Gregorian calendar

The Gregorian calendar extended without limit in both directions, with a year 0. `Date.days` counts
the days from 1 January 1970.

In a text, a date is `year-month-day`, a time of day `hour:minute:second` with an optional fraction,
and a moment is both, with or without white space between. White space may stand before every number
but nowhere else. Second 60 is a leap second, which counts as second 59 and a thousand milliseconds
more.
-/

namespace WorkloadReplay.Calendar

/-- A year, month and day, which need not exist. -/
structure Date where
  year : Int
  month : Nat
  day : Nat
  deriving DecidableEq

def isLeap (year : Int) : Bool := year % 4 = 0 && (year % 100 ≠ 0 || year % 400 = 0)

def daysInMonth (year : Int) (month : Nat) : Nat :=
  match month with
  | 1 => 31
  | 2 => if isLeap year then 29 else 28
  | 3 => 31
  | 4 => 30
  | 5 => 31
  | 6 => 30
  | 7 => 31
  | 8 => 31
  | 9 => 30
  | 10 => 31
  | 11 => 30
  | 12 => 31
  | _ => 0

def Date.isValid (d : Date) : Bool := 1 ≤ d.day && d.day ≤ daysInMonth d.year d.month

def daysBeforeMonth (year : Int) (month : Nat) : Nat :=
  (List.range' 1 (month - 1)).foldr (fun m days => daysInMonth year m + days) 0

/-- The days from 1 January of year 0 to 1 January of `year`, negative for years before 0. -/
def daysBeforeYear (year : Int) : Int :=
  365 * year + (year + 3) / 4 - (year + 99) / 100 + (year + 399) / 400

def Date.days (d : Date) : Int :=
  daysBeforeYear d.year - daysBeforeYear 1970 + daysBeforeMonth d.year d.month + d.day - 1

theorem daysBeforeYear_succ (year : Int) :
    daysBeforeYear (year + 1) = daysBeforeYear year + if isLeap year then 366 else 365 := by
  unfold daysBeforeYear
  by_cases h : isLeap year <;> simp [isLeap] at h <;> simp [isLeap, h] <;> omega

example : Date.days ⟨1970, 1, 1⟩ = 0 := by decide
example : Date.days ⟨2023, 11, 12⟩ * 86400 = 1699747200 := by decide
example : Date.days ⟨1969, 12, 31⟩ = -1 ∧ Date.days ⟨2000, 2, 29⟩ = 11016 := by decide

open Text

/-! ## Dates and times of day in texts -/

structure ClockTime where
  hour : Nat
  minute : Nat
  second : Nat
  nanosecond : Nat
  deriving DecidableEq

/-- The time of day exists; a leap second may end any minute. -/
def ClockTime.isValid (t : ClockTime) : Bool := t.hour ≤ 23 && t.minute ≤ 59 && t.second ≤ 60

/-- The milliseconds since midnight, without the part below a millisecond. -/
def ClockTime.milliseconds (t : ClockTime) : Nat :=
  (t.hour * 3600 + t.minute * 60 + t.second) * 1000 + t.nanosecond / 1000000

def Date.inReach (d : Date) : Bool := -262143 ≤ d.year && d.year ≤ 262142

def numberOf (ds : List Char) : Nat := ds.foldl (fun v d => 10 * v + (d.toNat - 48)) 0

/-- A number of at most `most` digits, and at least one, at the start of `cs`. -/
def digits? (most : Nat) (cs : List Char) : Option (Nat × List Char) :=
  let ds := (cs.take most).takeWhile Char.isDigit
  if ds.isEmpty then none else some (numberOf ds, cs.drop ds.length)

/-- A number of one or two digits after any white space. -/
def pair? (cs : List Char) : Option (Nat × List Char) := digits? 2 (cs.dropWhile isBlank)

/-- A year after any white space: up to four digits, or any number of them after a sign. -/
def year? (cs : List Char) : Option (Int × List Char) :=
  match cs.dropWhile isBlank with
  | '-' :: rest => (digits? rest.length rest).map fun (n, rest) => (-(n : Int), rest)
  | '+' :: rest => (digits? rest.length rest).map fun (n, rest) => ((n : Int), rest)
  | cs => (digits? 4 cs).map fun (n, rest) => ((n : Int), rest)

/-- The characters after `c`, if they start with it. -/
def after? (c : Char) : List Char → Option (List Char)
  | [] => none
  | d :: rest => if d = c then some rest else none

def date? (cs : List Char) : Option (Date × List Char) := do
  let (year, cs) ← year? cs
  let (month, cs) ← pair? (← after? '-' cs)
  let (day, cs) ← pair? (← after? '-' cs)
  some (⟨year, month, day⟩, cs)

/-- The nanoseconds of a fraction: nothing, or a point and digits, the tenth and later of which do
not count. -/
def fraction? : List Char → Option (Nat × List Char)
  | '.' :: cs =>
    let ds := cs.takeWhile Char.isDigit
    if ds.isEmpty then none
    else some (numberOf (ds.take 9) * Nat.pow 10 (9 - ds.length), cs.dropWhile Char.isDigit)
  | cs => some (0, cs)

def clockTime? (cs : List Char) : Option (ClockTime × List Char) := do
  let (hour, cs) ← pair? cs
  let (minute, cs) ← pair? (← after? ':' cs)
  let (second, cs) ← pair? (← after? ':' cs)
  let (nanosecond, cs) ← fraction? cs
  some (⟨hour, minute, second, nanosecond⟩, cs)

def readDate? (cs : List Char) : Option Date := do
  let (d, rest) ← date? cs
  if rest.isEmpty && d.isValid && d.inReach then some d else none

def readClockTime? (cs : List Char) : Option ClockTime := do
  let (t, rest) ← clockTime? cs
  if rest.isEmpty && t.isValid then some t else none

/-- The milliseconds from the start of 1970 to the moment that the characters are. -/
def readMoment? (cs : List Char) : Option Int := do
  let (d, rest) ← date? cs
  let t ← readClockTime? rest
  if d.isValid && d.inReach then some (d.days * 86400000 + t.milliseconds) else none

end WorkloadReplay.Calendar

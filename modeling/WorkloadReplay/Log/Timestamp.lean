import WorkloadReplay.Calendar
import WorkloadReplay.Fault
import WorkloadReplay.Text.Basic
import WorkloadReplay.Text.Numeral

/-!
# Timestamps of a log

A timestamp is `yyyy-MM-dd HH:mm:ss.SSS`, a space and a zone: a common abbreviation or a signed
number of hours, with or without minutes, in which colons do not count. The timestamps of a log
hardly differ from one row to the next, so a clock keeps what it worked out last: the midnight of a
date in a zone, an hour and a minute. What it keeps is right for every timestamp, so the answer is
that of a clock that keeps nothing.
-/

namespace WorkloadReplay.Log

/-! ## Zones -/

/-- The abbreviations of zones, with their hours and minutes ahead of UTC. -/
def zones : List (String × Int × Int) :=
  [("UTC", 0, 0), ("GMT", 0, 0), ("Z", 0, 0), ("WET", 0, 0), ("BST", 1, 0), ("CET", 1, 0),
    ("WEST", 1, 0), ("CEST", 2, 0), ("EET", 2, 0), ("EEST", 3, 0), ("MSK", 3, 0), ("IST", 5, 30),
    ("CST", -6, 0), ("CDT", -5, 0), ("EST", -5, 0), ("EDT", -4, 0), ("MST", -7, 0), ("MDT", -6, 0),
    ("PST", -8, 0), ("PDT", -7, 0), ("AKST", -9, 0), ("AKDT", -8, 0), ("HST", -10, 0),
    ("HKT", 8, 0), ("SGT", 8, 0), ("AWST", 8, 0), ("JST", 9, 0), ("KST", 9, 0), ("AEST", 10, 0),
    ("AEDT", 11, 0), ("NZST", 12, 0), ("NZDT", 13, 0)]

def zoneSeconds (hours minutes : Int) : Int := hours * 3600 + minutes * 60

def namedOffset? (zone : List UInt8) : Option Int :=
  (zones.find? fun z => Text.bytes z.1 = zone).map fun z => zoneSeconds z.2.1 z.2.2

/-- The seconds that two or four digits stand for: up to 15 hours and 59 minutes. -/
def digitsOffset? (digits : List UInt8) : Option Int :=
  if digits.all Numeral.isDigit && (digits.length = 2 || digits.length = 4) then
    let hours := Numeral.value (digits.take 2)
    let minutes := Numeral.value (digits.drop 2)
    if hours ≤ 15 && minutes ≤ 59 then some (zoneSeconds hours minutes) else none
  else none

/-- The seconds ahead of UTC of a signed number. -/
def numericOffset? : List UInt8 → Option Int
  | [] => none
  | sign :: rest =>
    let seconds := digitsOffset? (rest.filter (· ≠ 0x3A))
    if sign = 0x2B then seconds
    else if sign = 0x2D then seconds.map fun s => -s
    else none

def zoneOffset? (zone : List UInt8) : Option Int := namedOffset? zone <|> numericOffset? zone

/-! ## Timestamps -/

/-- The form of a timestamp without its zone; `d` stands for a digit. -/
def timestampForm : List UInt8 := Text.bytes "dddd-dd-dd dd:dd:dd.ddd"

def fitsForm (place b : UInt8) : Bool :=
  if place = 0x64 then Numeral.isDigit b else b = place

def isTimestampForm (b : List UInt8) : Bool :=
  b.length = timestampForm.length && (List.zipWith fitsForm timestampForm b).all id

def slice (b : List UInt8) (start stop : Nat) : List UInt8 := (b.take stop).drop start

def field (b : List UInt8) (start stop : Nat) : Nat := Numeral.value (slice b start stop)

def dateOfBytes (b : List UInt8) : Calendar.Date := ⟨field b 0 4, field b 5 7, field b 8 10⟩

def nanosPerSecond : Int := 1000000000

/-- The time of midnight on a date in a zone, if both exist. -/
def midnight? (date zone : List UInt8) : Option Int :=
  let d := dateOfBytes date
  if d.isValid then
    (zoneOffset? zone).map fun offset => (d.days * 86400 - offset) * nanosPerSecond
  else none

/-- What a clock worked out last: the nanoseconds of a date with its zone, of an hour and of a
minute. -/
structure Clock where
  midnight : Option (List UInt8 × Int)
  hour : Option (List UInt8 × Int)
  minute : Option (List UInt8 × Int)

namespace Clock

def new : Clock := ⟨none, none, none⟩

/-- What is kept for `key`, or else what is worked out for it. -/
def kept (last : Option (List UInt8 × Int)) (key : List UInt8) (fresh : Unit → Option Int) :
    Option (List UInt8 × Int) :=
  match last with
  | some (k, nanos) => if k = key then some (k, nanos) else (fresh ()).map (key, ·)
  | none => (fresh ()).map (key, ·)

/-- A number of units of so many nanoseconds, if it is at most `most`. -/
def units? (n most : Nat) (nanos : Int) : Option Int := if n ≤ most then some (n * nanos) else none

/-- The time of a timestamp in nanoseconds from the start of 1970. What was worked out before a part
that is wrong stays kept. -/
def nanos? (c : Clock) (b : List UInt8) : Clock × Option Int :=
  if !(25 ≤ b.length && isTimestampForm (b.take 23) && b[23]? = some 0x20) then (c, none)
  else
    let date := b.take 10
    let zone := Text.trimPadding (b.drop 24)
    match kept c.midnight (date ++ zone) fun _ => midnight? date zone with
    | none => (c, none)
    | some (dateZone, midnight) =>
      let c := { c with midnight := some (dateZone, midnight) }
      match kept c.hour (slice b 11 13) fun _ =>
        units? (field b 11 13) 23 (3600 * nanosPerSecond) with
      | none => (c, none)
      | some (hourKey, hour) =>
        let c := { c with hour := some (hourKey, hour) }
        match kept c.minute (slice b 14 16) fun _ =>
          units? (field b 14 16) 59 (60 * nanosPerSecond) with
        | none => (c, none)
        | some (minuteKey, minute) =>
          let c := { c with minute := some (minuteKey, minute) }
          match units? (field b 17 19) 59 nanosPerSecond with
          | none => (c, none)
          | some second =>
            (c, some (midnight + hour + minute + second + field b 20 23 * 1000000))

def parse (c : Clock) (raw : String) : Clock × Except Fault Int64 :=
  match c.nanos? (Text.bytes raw) with
  | (c, some nanos) => (c, .ok (Int64.ofInt nanos))
  | (c, none) => (c, .error (.invalidTimestamp raw))

def parseAll (c : Clock) : List String → List (Except Fault Int64)
  | [] => []
  | raw :: rest => (c.parse raw).2 :: parseAll (c.parse raw).1 rest

end Clock

end WorkloadReplay.Log

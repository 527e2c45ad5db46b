import WorkloadReplay.Fault

/-!
# The trace format

A trace is its records, one a line, then optionally a line with the section delimiter and the
statement table, one entry a line. A record is a time, a tag and a list of parameters, an entry is
an id and the text of a statement.

A time is in nanoseconds from the start of 1970, a signed 64-bit word in hexadecimal: the digits of
its two's complement, lower case and without leading zeros. Reading takes 1 to 16 digits of either
case.

The tag tells what a record stands for: the start or the end of an explicit transaction, or a
statement, by its id in the statement table or by its text. Digits alone are an id, so no statement
with such a text can be written inline, nor one whose text is a keyword.
-/

namespace WorkloadReplay.Trace

/-- Separates the records from the statement table; no hexadecimal digit. -/
def sectionDelimiter : UInt8 := 0x23

def fieldSeparator : UInt8 := 0x2C

def fieldQuote : UInt8 := 0x22

def lineEnd : UInt8 := 0x0A

def delimiterLine : List UInt8 := [sectionDelimiter, lineEnd]

/-! ## Times -/

def maxTimeDigits : Nat := 16

def isHexDigit (b : UInt8) : Bool :=
  (0x30 ≤ b && b ≤ 0x39) || (0x61 ≤ b && b ≤ 0x66) || (0x41 ≤ b && b ≤ 0x46)

def hexValue (b : UInt8) : Nat :=
  if b ≤ 0x39 then b.toNat - 0x30
  else if b ≤ 0x46 then b.toNat - 0x41 + 10
  else b.toNat - 0x61 + 10

def hexDigit (n : Nat) : UInt8 := UInt8.ofNat (if n < 10 then 0x30 + n else 0x61 + (n - 10))

def hexDigits (n : Nat) : List UInt8 :=
  if n < 16 then [hexDigit n] else hexDigits (n / 16) ++ [hexDigit (n % 16)]

def hexNumber (ds : List UInt8) : Nat := ds.foldl (fun v d => 16 * v + hexValue d) 0

def encodeTime (t : Int64) : List UInt8 := hexDigits t.toUInt64.toNat

def decodeTime (ds : List UInt8) : Except Fault Int64 :=
  if !ds.isEmpty && ds.length ≤ maxTimeDigits && ds.all isHexDigit then
    .ok (UInt64.ofNat (hexNumber ds)).toInt64
  else .error (.invalidHex (Text.lossy ds))

/-! ## Tags -/

inductive Tag where
  | begin
  | commit
  | rollback
  | id (id : UInt32)
  | inline (sql : String)
  deriving DecidableEq

def beginKeyword : List UInt8 := [0x42, 0x45, 0x47, 0x49, 0x4E]
def commitKeyword : List UInt8 := [0x43, 0x4F, 0x4D, 0x4D, 0x49, 0x54]
def rollbackKeyword : List UInt8 := [0x52, 0x4F, 0x4C, 0x4C, 0x42, 0x41, 0x43, 0x4B]

def maxIdDigits : Nat := 10

/-- The id that digits stand for. -/
def statementId? (ds : List UInt8) : Option UInt32 :=
  if ds.length ≤ maxIdDigits ∧ Numeral.value ds < UInt32.size then
    some (UInt32.ofNat (Numeral.value ds))
  else none

namespace Tag

def isBoundary : Tag → Bool
  | begin | commit | rollback => true
  | id _ | inline _ => false

def field : Tag → List UInt8
  | begin => beginKeyword
  | commit => commitKeyword
  | rollback => rollbackKeyword
  | id n => Numeral.ofNat n.toNat
  | inline sql => Text.bytes sql

def ofField (b : List UInt8) : Except TraceProblem Tag :=
  if b = beginKeyword then .ok begin
  else if b = commitKeyword then .ok commit
  else if b = rollbackKeyword then .ok rollback
  else if Numeral.isNumeral b then
    match statementId? b with
    | some n => .ok (id n)
    | none => .error .idOutOfRange
  else
    match Text.ofBytes? b with
    | some sql => .ok (inline sql)
    | none => .error .textNotUtf8

end Tag

end WorkloadReplay.Trace

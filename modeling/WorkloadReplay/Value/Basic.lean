import WorkloadReplay.Double.Text
import WorkloadReplay.Fault
import WorkloadReplay.Text.Basic
import WorkloadReplay.Text.Quoted

/-!
# Parameter values

The values that a statement is called with. Dates and timestamps count milliseconds from the start
of 1970, times of day from midnight.

A list of values is written without separators: each value as the letter of its type and its text
between single quotes. Reading stops at the first value that does not fit.
-/

namespace WorkloadReplay

inductive Value where
  | null
  | int (v : Int64)
  | double (v : Double)
  | text (s : String)
  | bool (b : Bool)
  | date (milliseconds : Int64)
  | time (milliseconds : Int64)
  | timestamp (milliseconds : Int64)
  deriving DecidableEq

namespace Value
open Numeral

def intTag : UInt8 := 0x69
def doubleTag : UInt8 := 0x64
def textTag : UInt8 := 0x76
def boolTag : UInt8 := 0x62
def dateTag : UInt8 := 0x44
def timeTag : UInt8 := 0x74
def timestampTag : UInt8 := 0x54
def nullTag : UInt8 := 0x6E

def tag : Value → UInt8
  | null => nullTag
  | int _ => intTag
  | double _ => doubleTag
  | text _ => textTag
  | bool _ => boolTag
  | date _ => dateTag
  | time _ => timeTag
  | timestamp _ => timestampTag

def tags : List UInt8 :=
  [intTag, doubleTag, textTag, boolTag, dateTag, timeTag, timestampTag, nullTag]

def trueText : List UInt8 := [0x74, 0x72, 0x75, 0x65]
def falseText : List UInt8 := [0x66, 0x61, 0x6C, 0x73, 0x65]

def body : Value → List UInt8
  | null => []
  | int v => ofInt64 v
  | double v => v.text
  | text s => Text.bytes s
  | bool b => if b then trueText else falseText
  | date v => ofInt64 v
  | time v => ofInt64 v
  | timestamp v => ofInt64 v

def ofBody? (tag : UInt8) (body : List UInt8) : Option Value :=
  if tag = nullTag then if body.isEmpty then some null else none
  else if tag = intTag then (int64? body).map int
  else if tag = dateTag then (int64? body).map date
  else if tag = timeTag then (int64? body).map time
  else if tag = timestampTag then (int64? body).map timestamp
  else if tag = doubleTag then (Double.ofText? body).map double
  else if tag = textTag then (Text.ofBytes? body).map text
  else if tag = boolTag then
    if body = trueText then some (bool true)
    else if body = falseText then some (bool false)
    else none
  else none

theorem tag_mem_tags (v : Value) : v.tag ∈ tags := by
  cases v <;> simp [tag, tags]

end Value

end WorkloadReplay

/-! ## Lists of values -/

namespace WorkloadReplay.Params

def quote : UInt8 := 0x27

def encodeValue (v : Value) : List UInt8 := v.tag :: Quoted.enclose quote v.body

def encode (vs : List Value) : List UInt8 := vs.flatMap encodeValue

/-- Goes on reading after the values `values` (last first). -/
def decodeFrom (values : List Value) : List UInt8 → Except Fault (List Value)
  | [] => .ok values.reverse
  | tag :: rest =>
    if tag ∉ Value.tags then .error (.unknownTypeTag tag)
    else
      match rest with
      | [] => .error (.invalidParamValue tag (Text.lossy []))
      | q :: inside =>
        if q ≠ quote then .error (.invalidParamValue tag (Text.lossy (q :: inside)))
        else
          match _h : Quoted.scan quote inside with
          | (body, none) => .error (.invalidParamValue tag (Text.lossy body))
          | (body, some more) =>
            match Value.ofBody? tag body with
            | none => .error (.invalidParamValue tag (Text.lossy body))
            | some v => decodeFrom (v :: values) more
termination_by b => b.length
decreasing_by
  have := Quoted.scan_length _h
  simp only [List.length_cons]
  omega

def decode (b : List UInt8) : Except Fault (List Value) := decodeFrom [] b

end WorkloadReplay.Params

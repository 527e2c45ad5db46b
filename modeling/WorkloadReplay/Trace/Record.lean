import WorkloadReplay.Text.Basic
import WorkloadReplay.Trace.Format
import WorkloadReplay.Trace.Scan
import WorkloadReplay.Value.Basic

/-!
# Records

A record is the line `time,"tag","parameters"`. Double quotes in the tag are doubled; in the
parameters they stand as they are, between the single quotes of a value, and only a double quote
outside of them ends the field. A line is looked through to its end before its tag and parameters
are read.
-/

namespace WorkloadReplay.Trace

structure Record where
  time : Int64
  tag : Tag
  params : List Value
  deriving DecidableEq

def Record.encode (r : Record) : List UInt8 :=
  encodeTime r.time ++ fieldSeparator :: (Quoted.enclose fieldQuote r.tag.field ++
    fieldSeparator :: fieldQuote :: (Params.encode r.params ++ [fieldQuote, lineEnd]))

/-- The time in front of a record, and its separator. -/
def scanTime (b : List UInt8) : Scan Int64 :=
  let digits := b.takeWhile isHexDigit
  if maxTimeDigits < digits.length then .bad (.invalidHex (Text.lossy digits))
  else
    match b.dropWhile isHexDigit with
    | [] => .short
    | c :: rest =>
      if c ≠ fieldSeparator then .malformed .timestampEnd
      else
        match decodeTime digits with
        | .ok time => .done time rest
        | .error fault => .bad fault

/-- Goes on scanning a field of parameters after the bytes `taken` (last first); `inValue` tells
that an odd number of single quotes is among them. -/
def scanParamsFrom (taken : List UInt8) (inValue : Bool) : List UInt8 → Scan (List UInt8)
  | [] => .short
  | c :: rest =>
    if c = fieldQuote ∧ inValue = false then .done taken.reverse (c :: rest)
    else scanParamsFrom (c :: taken) (if c = Params.quote then !inValue else inValue) rest

def scanParams (b : List UInt8) : Scan (List UInt8) := scanParamsFrom [] false b

/-- The fields of a line: the time, the text of the tag and the bytes of the parameters. -/
def scanLine (b : List UInt8) : Scan (Int64 × List UInt8 × List UInt8) :=
  (scanTime b).bind fun time b =>
  (Scan.byte fieldQuote .tagNotQuoted b).bind fun _ b =>
  (Scan.quoted fieldQuote b).bind fun tag b =>
  (Scan.byte fieldSeparator .tagEnd b).bind fun _ b =>
  (Scan.byte fieldQuote .paramsNotQuoted b).bind fun _ b =>
  (scanParams b).bind fun params b =>
  (Scan.byte fieldQuote .recordEnd b).bind fun _ b =>
  (Scan.byte lineEnd .recordEnd b).bind fun _ b =>
  .done (time, tag, params) b

def Record.ofFields (time : Int64) (tag params rest : List UInt8) : Scan Record :=
  match Tag.ofField tag with
  | .error problem => .malformed problem
  | .ok tag =>
    match Params.decode params with
    | .error fault => .bad fault
    | .ok params => .done ⟨time, tag, params⟩ rest

/-- The record at the start of `b`. There is none at the section delimiter. -/
def Record.scan (b : List UInt8) : Scan Record :=
  if b.head? = some sectionDelimiter then .short
  else (scanLine b).bind fun (time, tag, params) rest => Record.ofFields time tag params rest

/-- The record at a position of a buffer, with the position behind it; nothing at the end, at the
section delimiter, and where the buffer ends before the record does. -/
def Record.decode (buffer : List UInt8) (start : Nat) : Except Fault (Option (Record × Nat)) :=
  (Record.scan (buffer.drop start)).located start buffer.length

def Record.isBlank (r : Record) : Bool :=
  match r.tag with
  | .inline sql => Text.blank sql
  | _ => false

theorem scanTime_length {b rest : List UInt8} {time : Int64}
    (h : scanTime b = .done time rest) : rest.length < b.length := by
  have hb : (b.dropWhile isHexDigit).length ≤ b.length :=
    (List.dropWhile_sublist _).length_le
  unfold scanTime at h
  dsimp only at h
  split at h
  · simp at h
  · split at h
    · simp at h
    · rename_i c more hd
      rw [hd, List.length_cons] at hb
      split at h
      · simp at h
      · split at h
        · simp only [Scan.done.injEq] at h
          rw [← h.2]
          omega
        · simp at h

theorem scanParamsFrom_length {taken b found rest : List UInt8} {inValue : Bool}
    (h : scanParamsFrom taken inValue b = .done found rest) : rest.length ≤ b.length := by
  induction b generalizing taken inValue with
  | nil => simp [scanParamsFrom] at h
  | cons c more ih =>
    rw [scanParamsFrom] at h
    split at h
    · simp only [Scan.done.injEq] at h
      obtain ⟨-, rfl⟩ := h
      exact Nat.le_refl _
    · have := ih h
      simp only [List.length_cons]
      omega

theorem scanLine_length {b rest : List UInt8}
    {fields : Int64 × List UInt8 × List UInt8} (h : scanLine b = .done fields rest) :
    rest.length < b.length := by
  simp only [scanLine, Scan.bind_eq_done, Scan.byte_eq_done] at h
  obtain ⟨_, b₁, h₁, _, b₂, rfl, _, b₃, h₃, _, b₄, rfl, _, b₅, rfl, _, b₆, h₆, _, b₇, rfl, _, b₈,
    rfl, h₈⟩ := h
  have l₁ := scanTime_length h₁
  have l₃ := Scan.quoted_length h₃
  have l₆ := scanParamsFrom_length h₆
  simp only [Scan.done.injEq] at h₈
  obtain ⟨-, rfl⟩ := h₈
  simp only [List.length_cons] at l₁ l₃ l₆
  omega

theorem Record.ofFields_eq_done {time : Int64} {tag params more rest : List UInt8}
    {record : Record} (h : Record.ofFields time tag params more = .done record rest) :
    rest = more := by
  unfold Record.ofFields at h
  split at h
  · simp at h
  · split at h
    · simp at h
    · simp only [Scan.done.injEq] at h
      exact h.2.symm

theorem Record.scan_length {b rest : List UInt8} {record : Record}
    (h : Record.scan b = .done record rest) : rest.length < b.length := by
  unfold Record.scan at h
  split at h
  · simp at h
  · rw [Scan.bind_eq_done] at h
    obtain ⟨fields, more, hl, h⟩ := h
    rw [Record.ofFields_eq_done h]
    exact scanLine_length hl

end WorkloadReplay.Trace

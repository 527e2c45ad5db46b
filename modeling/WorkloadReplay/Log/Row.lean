import WorkloadReplay.Fault
import WorkloadReplay.Text.Basic

/-!
# Rows of a log

A log is a sequence of rows. A row ends with the first line end at which the number of double quotes
in it is even, or with the log. Blank rows are left out, and the first row that cannot be read ends
the sequence.

The fields of a row stand between commas. A field that starts with a double quote goes on to the
closing one, through commas and line ends, with each double quote in it doubled; what follows the
closing quote belongs to the field as it is. Line feeds and carriage returns at the end of the row
belong to no field.
-/

namespace WorkloadReplay.Log

/-! ## Fields -/

def comma : UInt8 := 0x2C
def doubleQuote : UInt8 := 0x22
def lineFeed : UInt8 := 0x0A
def carriageReturn : UInt8 := 0x0D

def isLineEnd (b : UInt8) : Bool := b = lineFeed || b = carriageReturn

def dropLineEnd (row : List UInt8) : List UInt8 := (row.reverse.dropWhile isLineEnd).reverse

/-- A position in a field: before it, outside of quotes, inside, and behind a quote that either
closes the field or is the first of a doubled one. -/
inductive FieldPlace where
  | start
  | plain
  | inside
  | half
  deriving DecidableEq

/-- Goes on splitting after the fields `fields` and the bytes `field` of the next one, both with the
last one first. -/
def splitFrom (fields : List (List UInt8)) (field : List UInt8) (place : FieldPlace) :
    List UInt8 → List (List UInt8)
  | [] => (field.reverse :: fields).reverse
  | c :: rest =>
    if place = .inside then
      if c = doubleQuote then splitFrom fields field .half rest
      else splitFrom fields (c :: field) .inside rest
    else if c = comma then splitFrom (field.reverse :: fields) [] .start rest
    else if c = doubleQuote ∧ place = .start then splitFrom fields field .inside rest
    else if c = doubleQuote ∧ place = .half then splitFrom fields (c :: field) .inside rest
    else splitFrom fields (c :: field) .plain rest

def splitFields (row : List UInt8) : List String :=
  (splitFrom [] [] .start (dropLineEnd row)).map Text.lossy

/-! ## Rows -/

def minColumns : Nat := 15

/-- A row: the line on which it starts, counted from 1, and its fields. -/
structure Row where
  line : Nat
  fields : List String
  enough : minColumns ≤ fields.length

namespace Row

def logTime (r : Row) : String := r.fields.get ⟨0, Nat.lt_of_lt_of_le (by decide) r.enough⟩

def vxid (r : Row) : String := r.fields.get ⟨9, Nat.lt_of_lt_of_le (by decide) r.enough⟩

def message (r : Row) : String := r.fields.get ⟨13, Nat.lt_of_lt_of_le (by decide) r.enough⟩

/-- More on the message: the parameters of a statement. -/
def detail (r : Row) : String := r.fields.get ⟨14, Nat.lt_of_lt_of_le (by decide) r.enough⟩

end Row

/-- Takes the bytes of a row after the bytes `taken` (last first), of which an odd number are double
quotes if `inQuotes`; gives them, whether the row ends inside of quotes, and what follows. -/
def takeRowFrom (taken : List UInt8) (inQuotes : Bool) :
    List UInt8 → List UInt8 × Bool × List UInt8
  | [] => (taken.reverse, inQuotes, [])
  | c :: rest =>
    if c = lineFeed ∧ inQuotes = false then ((c :: taken).reverse, false, rest)
    else takeRowFrom (c :: taken) (if c = doubleQuote then !inQuotes else inQuotes) rest

/-- The bytes of the first row, whether it ends inside of quotes, and the other rows. -/
def takeRow (b : List UInt8) : List UInt8 × Bool × List UInt8 := takeRowFrom [] false b

/-- The number of lines that a row takes; only the last line of a log may have no line end. -/
def lineCount (row : List UInt8) : Nat :=
  row.count lineFeed + if row.getLast? = some lineFeed then 0 else 1

/-- A reader of rows: what is left of the log, and how many lines and bytes have been read. -/
structure RowReader where
  rest : List UInt8
  lines : Nat
  bytesRead : Nat
  finished : Bool

namespace RowReader

def ofBytes (b : List UInt8) : RowReader := ⟨b, 0, 0, false⟩

def past (r : RowReader) (row rest : List UInt8) : RowReader :=
  { r with rest := rest, lines := r.lines + lineCount row, bytesRead := r.bytesRead + row.length }

def rowOfBytes (line : Nat) (row : List UInt8) : Except Fault Row :=
  let fields := splitFields row
  if h : minColumns ≤ fields.length then .ok ⟨line, fields, h⟩
  else .error (.malformedLogRow line (.tooFewColumns minColumns fields.length))

theorem takeRowFrom_length {b row rest taken : List UInt8} {inQuotes open' : Bool}
    (h : takeRowFrom taken inQuotes b = (row, open', rest)) :
    rest.length + row.length = b.length + taken.length := by
  induction b generalizing taken inQuotes with
  | nil =>
    simp only [takeRowFrom, Prod.mk.injEq] at h
    obtain ⟨rfl, -, rfl⟩ := h
    simp
  | cons c more ih =>
    rw [takeRowFrom] at h
    split at h
    · simp only [Prod.mk.injEq] at h
      obtain ⟨rfl, -, rfl⟩ := h
      simp only [List.length_reverse, List.length_cons]
      omega
    · have := ih h
      simp only [List.length_cons] at this ⊢
      omega

theorem takeRowFrom_ne_nil {b row rest taken : List UInt8} {inQuotes open' : Bool}
    (hb : b ≠ [] ∨ taken ≠ []) (h : takeRowFrom taken inQuotes b = (row, open', rest)) :
    row ≠ [] := by
  induction b generalizing taken inQuotes with
  | nil =>
    simp only [takeRowFrom, Prod.mk.injEq] at h
    rw [← h.1]
    simpa using hb
  | cons c more ih =>
    rw [takeRowFrom] at h
    split at h
    · simp only [Prod.mk.injEq] at h
      rw [← h.1]
      simp
    · exact ih (Or.inr (by simp)) h

/-- Nothing of a log is lost in taking its first row. -/
theorem takeRow_length {b row rest : List UInt8} {open' : Bool}
    (h : takeRow b = (row, open', rest)) : rest.length + row.length = b.length := by
  simpa using takeRowFrom_length h

theorem takeRow_rest_lt {b row rest : List UInt8} {open' : Bool} (hb : b ≠ [])
    (h : takeRow b = (row, open', rest)) : rest.length < b.length := by
  have hl := takeRow_length h
  have hr : row ≠ [] := takeRowFrom_ne_nil (Or.inl hb) h
  have := List.length_pos_iff.mpr hr
  omega

def next (r : RowReader) : RowReader × Option (Except Fault Row) :=
  if r.finished then (r, none)
  else if _hb : r.rest = [] then ({ r with finished := true }, none)
  else
    match _h : takeRow r.rest with
    | (row, true, rest) =>
      ({ r.past row rest with finished := true },
        some (.error (.malformedLogRow (r.lines + 1) .notClosed)))
    | (row, false, rest) =>
      if row.all isLineEnd then next (r.past row rest)
      else
        match rowOfBytes (r.lines + 1) row with
        | .ok row' => (r.past row rest, some (.ok row'))
        | .error fault => ({ r.past row rest with finished := true }, some (.error fault))
termination_by r.rest.length
decreasing_by exact takeRow_rest_lt _hb _h

theorem next_ok_lt {r r' : RowReader} {row : Row} (h : r.next = (r', some (.ok row))) :
    r'.rest.length < r.rest.length := by
  fun_induction next r with
  | case1 => simp at h
  | case2 => simp at h
  | case3 => simp at h
  | case4 r _ hb b rest ht _ ih =>
    have := ih h
    have := takeRow_rest_lt hb ht
    simp only [past] at *
    omega
  | case5 r _ hb b rest ht _ row' hrow =>
    simp only [Prod.mk.injEq] at h
    have := takeRow_rest_lt hb ht
    rw [← h.1]
    exact this
  | case6 => simp at h

end RowReader

def rowsFrom (taken : List Row) (r : RowReader) : List Row × Option Fault :=
  match _h : r.next with
  | (_, none) => (taken.reverse, none)
  | (_, some (.error fault)) => (taken.reverse, some fault)
  | (r, some (.ok row)) => rowsFrom (row :: taken) r
termination_by r.rest.length
decreasing_by exact RowReader.next_ok_lt _h

/-- The rows of a log, and the fault that ends them, if any. -/
def rows (log : List UInt8) : List Row × Option Fault := rowsFrom [] (.ofBytes log)

end WorkloadReplay.Log

import WorkloadReplay.Trace.Reader

/-!
# Reading a trace through a block of cells

The bytes of a reader stand in a block of cells: those that are used up first, the unread ones from
the cursor on, and behind them cells that a read call may fill. Asking for more bytes moves the
unread ones to the front and doubles a block that they fill. Records and entries are decoded where
they stand.
-/

namespace WorkloadReplay.Trace

/-- The cells with `b` in place of those from `start` on. -/
def overwrite (cells : List UInt8) (start : Nat) (b : List UInt8) : List UInt8 :=
  cells.take start ++ b ++ cells.drop (start + b.length)

/-- A reader with its block: the cells from `cursor` to `filled` are unread, and `discarded` bytes
have left the block. -/
structure BlockReader where
  source : Source
  cells : List UInt8
  cursor : Nat
  filled : Nat
  discarded : Nat
  ended : Bool
  failed : Bool

namespace BlockReader

def ofSource (source : Source) (capacity : Nat) : BlockReader :=
  ⟨source, List.replicate (max capacity minCapacity) 0, 0, 0, 0, false, false⟩

def buffer (r : BlockReader) : List UInt8 := r.cells.take r.filled

def window (r : BlockReader) : List UInt8 := r.buffer.drop r.cursor

def capacity (r : BlockReader) : Nat := r.cells.length

/-- The number of bytes that answers have used up. -/
def consumed (r : BlockReader) : Nat := r.discarded + r.cursor

/-- The reader with its unread bytes moved to the front of the block. -/
def compact (r : BlockReader) : BlockReader :=
  if 0 < r.cursor then
    { r with
      cells := overwrite r.cells 0 r.window
      cursor := 0
      filled := r.filled - r.cursor
      discarded := r.discarded + r.cursor }
  else r

/-- The reader with twice as many cells if none is left to fill. -/
def grow (r : BlockReader) : BlockReader :=
  if r.filled = r.cells.length then
    { r with cells := r.cells ++ List.replicate r.cells.length 0 }
  else r

/-- The reader, and whether there were any bytes, once the source has answered a call for the cells
behind the filled ones. -/
def fetched (r : BlockReader) :
    Except String (List UInt8) × Source → BlockReader × Except Fault Bool
  | (.ok [], source) => ({ r with source := source, ended := true }, .ok false)
  | (.ok (b :: bs), source) =>
    ({ r with
        source := source
        cells := overwrite r.cells r.filled (b :: bs)
        filled := r.filled + (b :: bs).length }, .ok true)
  | (.error reason, source) => ({ r with source := source }, .error (.source reason))

def refill (r : BlockReader) : BlockReader × Except Fault Bool :=
  if r.ended then (r, .ok false)
  else
    let r := r.compact.grow
    r.fetched (r.source.fetch (r.cells.length - r.filled))

def ensureAvailable (r : BlockReader) : BlockReader × Except Fault Bool :=
  if r.filled ≤ r.cursor then r.refill else (r, .ok true)

theorem size_refill {r r' : BlockReader} (h : r.refill = (r', .ok true)) :
    r'.source.size < r.source.size := by
  have hsource : r.compact.grow.source = r.source := by
    unfold grow compact
    split <;> split <;> rfl
  unfold refill at h
  split at h
  · cases h
  · dsimp only at h
    generalize hf : r.compact.grow.source.fetch _ = x at h
    match x with
    | (.ok [], t) => cases h
    | (.ok (b :: bs), t) =>
      cases h
      have hsize := Source.size_fetch_ok hf
      rw [hsource] at hsize
      simp only [List.length_cons] at hsize ⊢
      omega
    | (.error reason, t) => cases h

/-- The item at the cursor, filling up the block until `decode` finds one. The end of the source
inside of an item is a fault. -/
def readItem {α : Type} (decode : List UInt8 → Nat → Except Fault (Option (α × Nat)))
    (r : BlockReader) : BlockReader × Except Fault α :=
  match decode r.buffer r.cursor with
  | .ok (some (a, stop)) => ({ r with cursor := stop }, .ok a)
  | .error fault => (r, .error fault)
  | .ok none =>
    match _h : r.refill with
    | (r', .ok true) => readItem decode r'
    | (r', .ok false) => (r', .error (.truncatedRecord (r'.filled - r'.cursor)))
    | (r', .error fault) => (r', .error fault)
termination_by r.source.size
decreasing_by exact size_refill _h

/-- What `f` does with an unread byte, once there is one, or the answer at the end of the source. -/
def whenAvailable {α : Type} (atEnd : α) (f : BlockReader → BlockReader × Except Fault α)
    (r : BlockReader) : BlockReader × Except Fault α :=
  match r.ensureAvailable with
  | (r', .error fault) => (r', .error fault)
  | (r', .ok false) => (r', .ok atEnd)
  | (r', .ok true) => f r'

/-- The next record, or none at the section delimiter and at the end of the source. -/
def readRecord : BlockReader → BlockReader × Except Fault (Option Record) :=
  whenAvailable none fun r =>
    if r.cells[r.cursor]? = some sectionDelimiter then (r, .ok none)
    else ((r.readItem Record.decode).1, (r.readItem Record.decode).2.map some)

def readEntry : BlockReader → BlockReader × Except Fault (Option Entry) :=
  whenAvailable none fun r =>
    ((r.readItem Entry.decode).1, (r.readItem Entry.decode).2.map some)

def atSectionDelimiter : BlockReader → BlockReader × Except Fault Bool :=
  whenAvailable false fun r => (r, .ok (r.cells[r.cursor]? = some sectionDelimiter))

/-- Uses up the line with the section delimiter, and tells whether it was there. -/
def skipSectionDelimiter (r : BlockReader) : BlockReader × Except Fault Bool :=
  match r.atSectionDelimiter with
  | (r, .ok true) =>
    whenAvailable true
      (fun r =>
        if r.cells[r.cursor]? = some lineEnd then ({ r with cursor := r.cursor + 1 }, .ok true)
        else (r, .error (.malformedRecord r.cursor .delimiterNotAlone)))
      { r with cursor := r.cursor + 1 }
  | (r, answer) => (r, answer)

def next (r : BlockReader) : BlockReader × Option (Except Fault Record) :=
  if r.failed then (r, none)
  else
    match r.readRecord with
    | (r, .ok none) => (r, none)
    | (r, .ok (some record)) => (r, some (.ok record))
    | (r, .error fault) => ({ r with failed := true }, some (.error fault))

end BlockReader

end WorkloadReplay.Trace

import WorkloadReplay.Trace.Entry
import WorkloadReplay.Trace.Record
import WorkloadReplay.Trace.Source

/-!
# Reading a trace through a buffer

A reader holds the bytes that its source has delivered and that no answer has used up yet. It asks
for more only where these are not enough for an answer: the used up bytes then leave the buffer, a
full buffer doubles, and the rest of it is what a read call may fill. Offsets in faults are
positions in the buffer at the time of the answer.
-/

namespace WorkloadReplay.Trace

def defaultCapacity : Nat := 64 * 1024

def minCapacity : Nat := 64

/-- A reader: `filled` bytes are in the buffer, the last of them `unread`, and `discarded` bytes
have left it. -/
structure Reader where
  source : Source
  unread : List UInt8
  filled : Nat
  discarded : Nat
  capacity : Nat
  ended : Bool
  failed : Bool

namespace Reader

def ofSource (source : Source) (capacity : Nat) : Reader :=
  ⟨source, [], 0, 0, max capacity minCapacity, false, false⟩

def cursor (r : Reader) : Nat := r.filled - r.unread.length

def consumed (r : Reader) : Nat := r.discarded + r.cursor

/-- The reader without the used up bytes in its buffer, which doubles if it is full. -/
def makeRoom (r : Reader) : Reader :=
  { r with
    filled := r.unread.length
    discarded := r.discarded + r.cursor
    capacity := if r.unread.length = r.capacity then r.capacity * 2 else r.capacity }

/-- Asks the source for more bytes; tells whether there were any. -/
def refill (r : Reader) : Reader × Except Fault Bool :=
  if r.ended then (r, .ok false)
  else
    let r := r.makeRoom
    match r.source.fetch (r.capacity - r.unread.length) with
    | (.ok [], source) => ({ r with source := source, ended := true }, .ok false)
    | (.ok (b :: bs), source) =>
      ({ r with
          source := source
          unread := r.unread ++ b :: bs
          filled := r.filled + (b :: bs).length }, .ok true)
    | (.error reason, source) => ({ r with source := source }, .error (.source reason))

def ensureAvailable (r : Reader) : Reader × Except Fault Bool :=
  if r.unread.isEmpty then r.refill else (r, .ok true)

/-- The reader after using up all but `rest` of the unread bytes. -/
def advanceTo (r : Reader) (rest : List UInt8) : Reader := { r with unread := rest }

theorem size_refill {r r' : Reader} (h : r.refill = (r', .ok true)) :
    r'.source.size < r.source.size := by
  unfold refill at h
  split at h
  · simp at h
  · dsimp only at h
    split at h
    · simp at h
    · rename_i hf
      simp only [Prod.mk.injEq] at h
      have := Source.size_fetch_ok hf
      rw [← h.1]
      simp only [makeRoom, List.length_cons] at this ⊢
      omega
    · simp at h

/-- The item at the cursor, filling up the buffer until `scan` finds one. The end of the source
inside of an item is a fault. -/
def readItem {α : Type} (scan : List UInt8 → Scan α) (r : Reader) : Reader × Except Fault α :=
  match scan r.unread with
  | .done a rest => (r.advanceTo rest, .ok a)
  | .malformed problem => (r, .error (.malformedRecord r.cursor problem))
  | .bad fault => (r, .error fault)
  | .short =>
    match _h : r.refill with
    | (r', .ok true) => readItem scan r'
    | (r', .ok false) => (r', .error (.truncatedRecord r'.unread.length))
    | (r', .error fault) => (r', .error fault)
termination_by r.source.size
decreasing_by exact size_refill _h

/-- The next record, or none at the section delimiter and at the end of the source. -/
def readRecord (r : Reader) : Reader × Except Fault (Option Record) :=
  match r.ensureAvailable with
  | (r, .error fault) => (r, .error fault)
  | (r, .ok false) => (r, .ok none)
  | (r, .ok true) =>
    if r.unread.head? = some sectionDelimiter then (r, .ok none)
    else
      match r.readItem Record.scan with
      | (r, .ok item) => (r, .ok (some item))
      | (r, .error fault) => (r, .error fault)

/-- The next entry of the statement table, or none at the end of the source. -/
def readEntry (r : Reader) : Reader × Except Fault (Option Entry) :=
  match r.ensureAvailable with
  | (r, .error fault) => (r, .error fault)
  | (r, .ok false) => (r, .ok none)
  | (r, .ok true) =>
    match r.readItem Entry.scan with
    | (r, .ok item) => (r, .ok (some item))
    | (r, .error fault) => (r, .error fault)

def atSectionDelimiter (r : Reader) : Reader × Except Fault Bool :=
  match r.ensureAvailable with
  | (r, .error fault) => (r, .error fault)
  | (r, .ok false) => (r, .ok false)
  | (r, .ok true) => (r, .ok (r.unread.head? = some sectionDelimiter))

/-- Uses up the line with the section delimiter, and tells whether it was there. The end of the
source may stand for the end of the line. The delimiter itself is used up even where the byte
behind it is wrong or cannot be read. -/
def skipSectionDelimiter (r : Reader) : Reader × Except Fault Bool :=
  match r.atSectionDelimiter with
  | (r, .error fault) => (r, .error fault)
  | (r, .ok false) => (r, .ok false)
  | (r, .ok true) =>
    match (r.advanceTo (r.unread.drop 1)).ensureAvailable with
    | (r, .error fault) => (r, .error fault)
    | (r, .ok false) => (r, .ok true)
    | (r, .ok true) =>
      if r.unread.head? = some lineEnd then (r.advanceTo (r.unread.drop 1), .ok true)
      else (r, .error (.malformedRecord r.cursor .delimiterNotAlone))

def next (r : Reader) : Reader × Option (Except Fault Record) :=
  if r.failed then (r, none)
  else
    match r.readRecord with
    | (r, .ok none) => (r, none)
    | (r, .ok (some record)) => (r, some (.ok record))
    | (r, .error fault) => ({ r with failed := true }, some (.error fault))

/-- One for every unread byte and for all that the source has still to deliver. -/
def remaining (r : Reader) : Nat := r.unread.length + r.source.size

theorem remaining_refill_le {r r' : Reader} {answer : Except Fault Bool}
    (h : r.refill = (r', answer)) : r'.remaining ≤ r.remaining := by
  unfold refill at h
  split at h
  · simp only [Prod.mk.injEq] at h
    obtain ⟨rfl, -⟩ := h
    exact Nat.le_refl _
  · dsimp only at h
    split at h
    · rename_i hf
      simp only [Prod.mk.injEq] at h
      have := Source.size_fetch_le hf
      rw [← h.1]
      simp only [remaining, makeRoom] at this ⊢
      omega
    · rename_i hf
      simp only [Prod.mk.injEq] at h
      have := Source.size_fetch_ok hf
      rw [← h.1]
      simp only [remaining, makeRoom, List.length_append, List.length_cons] at this ⊢
      omega
    · rename_i hf
      simp only [Prod.mk.injEq] at h
      have := Source.size_fetch_le hf
      rw [← h.1]
      simp only [remaining, makeRoom] at this ⊢
      omega

theorem remaining_ensureAvailable_le {r r' : Reader} {answer : Except Fault Bool}
    (h : r.ensureAvailable = (r', answer)) : r'.remaining ≤ r.remaining := by
  unfold ensureAvailable at h
  split at h
  · exact remaining_refill_le h
  · simp only [Prod.mk.injEq] at h
    obtain ⟨rfl, -⟩ := h
    exact Nat.le_refl _

theorem remaining_readItem_lt {α : Type} {scan : List UInt8 → Scan α}
    (hscan : ∀ b a rest, scan b = .done a rest → rest.length < b.length)
    {r r' : Reader} {item : α} (h : r.readItem scan = (r', .ok item)) :
    r'.remaining < r.remaining := by
  fun_induction readItem scan r with
  | case1 r a rest hs =>
    simp only [Prod.mk.injEq] at h
    have := hscan _ _ _ hs
    rw [← h.1]
    simp only [remaining, advanceTo]
    omega
  | case2 => simp at h
  | case3 => simp at h
  | case4 r hs r₁ hr ih =>
    have := ih h
    have := remaining_refill_le hr
    omega
  | case5 => simp at h
  | case6 => simp at h

theorem remaining_readRecord_lt {r r' : Reader} {record : Record}
    (h : r.readRecord = (r', .ok (some record))) : r'.remaining < r.remaining := by
  unfold readRecord at h
  split at h
  · simp at h
  · simp at h
  · rename_i r₁ he
    have := remaining_ensureAvailable_le he
    split at h
    · simp at h
    · split at h
      · rename_i hi
        simp only [Prod.mk.injEq] at h
        have := remaining_readItem_lt (fun _ _ _ => Record.scan_length) hi
        rw [← h.1]
        omega
      · simp at h

theorem remaining_readEntry_lt {r r' : Reader} {entry : Entry}
    (h : r.readEntry = (r', .ok (some entry))) : r'.remaining < r.remaining := by
  unfold readEntry at h
  split at h
  · simp at h
  · simp at h
  · rename_i r₁ he
    have := remaining_ensureAvailable_le he
    split at h
    · rename_i hi
      simp only [Prod.mk.injEq] at h
      have := remaining_readItem_lt (fun _ _ _ => Entry.scan_length) hi
      rw [← h.1]
      omega
    · simp at h

end Reader

end WorkloadReplay.Trace

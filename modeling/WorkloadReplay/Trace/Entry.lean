import WorkloadReplay.Trace.Format
import WorkloadReplay.Trace.Scan

/-!
# Entries of the statement table

An entry is the line `id,"text"`, with double quotes in the text doubled.
-/

namespace WorkloadReplay.Trace

structure Entry where
  id : UInt32
  sql : String
  deriving DecidableEq

def Entry.encode (e : Entry) : List UInt8 :=
  Numeral.ofNat e.id.toNat ++ fieldSeparator ::
    (Quoted.enclose fieldQuote (Text.bytes e.sql) ++ [lineEnd])

/-- The id in front of an entry, and its separator. Where the digits reach the end, more than an id
has are already too many. -/
def scanId (b : List UInt8) : Scan UInt32 :=
  let digits := b.takeWhile Numeral.isDigit
  match b.dropWhile Numeral.isDigit with
  | [] =>
    if maxIdDigits < digits.length then .malformed .idOutOfRange else .short
  | c :: rest =>
    if digits.isEmpty || c ≠ fieldSeparator then .malformed .entryStart
    else
      match statementId? digits with
      | some id => .done id rest
      | none => .malformed .idOutOfRange

def Entry.scan (b : List UInt8) : Scan Entry :=
  (scanId b).bind fun id b =>
  (Scan.byte fieldQuote .entryNotQuoted b).bind fun _ b =>
  (Scan.quoted fieldQuote b).bind fun text b =>
  (Scan.byte lineEnd .entryEnd b).bind fun _ b =>
  match Text.ofBytes? text with
  | some sql => .done ⟨id, sql⟩ b
  | none => .malformed .textNotUtf8

/-- The entry at a position of a buffer, with the position behind it; nothing at the end, and where
the buffer ends before the entry does. -/
def Entry.decode (buffer : List UInt8) (start : Nat) : Except Fault (Option (Entry × Nat)) :=
  (Entry.scan (buffer.drop start)).located start buffer.length

theorem scanId_length {b rest : List UInt8} {id : UInt32}
    (h : scanId b = .done id rest) : rest.length < b.length := by
  have hb : (b.dropWhile Numeral.isDigit).length ≤ b.length :=
    (List.dropWhile_sublist _).length_le
  unfold scanId at h
  dsimp only at h
  split at h
  · split at h <;> simp at h
  · rename_i c more hd
    rw [hd, List.length_cons] at hb
    split at h
    · simp at h
    · split at h
      · simp only [Scan.done.injEq] at h
        rw [← h.2]
        omega
      · simp at h

theorem Entry.scan_length {b rest : List UInt8} {entry : Entry}
    (h : Entry.scan b = .done entry rest) : rest.length < b.length := by
  simp only [Entry.scan, Scan.bind_eq_done, Scan.byte_eq_done] at h
  obtain ⟨_, b₁, h₁, _, b₂, rfl, _, b₃, h₃, _, b₄, rfl, h₄⟩ := h
  have l₁ := scanId_length h₁
  have l₃ := Scan.quoted_length h₃
  split at h₄
  · simp only [Scan.done.injEq] at h₄
    rw [← h₄.2]
    simp only [List.length_cons] at l₁ l₃
    omega
  · simp at h₄

end WorkloadReplay.Trace

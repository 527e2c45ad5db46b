import WorkloadReplay.Proofs.RecordLines

/-!
# Lines of the statement table

An entry is found exactly where a complete line of it stands: at most ten digits of a 32-bit number,
a comma, a text between quotes whose bytes are UTF-8, and the end of the line. A written entry is
found again between whatever bytes it stands. Where its line is cut, nothing is found yet.
-/

namespace WorkloadReplay.Trace

open Scan

/-- What the line of an entry is made of: the digits of an id and the bytes of a text. -/
structure EntryLine where
  digits : List UInt8
  text : List UInt8
  decimal : ∀ d ∈ digits, Numeral.isDigit d = true
  one_le : 1 ≤ digits.length
  le_ten : digits.length ≤ 10

namespace EntryLine

def bytes (line : EntryLine) : List UInt8 := entryLine line.digits line.text

structure Means (line : EntryLine) (e : Entry) : Prop where
  id : Numeral.value line.digits = e.id.toNat
  sql : line.text = Text.bytes e.sql

theorem length_bytes_pos (line : EntryLine) : 0 < line.bytes.length := by
  simp [bytes, entryLine]

theorem isNumeral_digits (line : EntryLine) : Numeral.isNumeral line.digits = true :=
  Numeral.isNumeral_iff.mpr ⟨List.ne_nil_of_length_pos line.one_le, line.decimal⟩

theorem exists_of_statementId? {ds : List UInt8} {id : UInt32} (hn : Numeral.isNumeral ds = true)
    (hid : statementId? ds = some id) (text : List UInt8) :
    ∃ line : EntryLine, line.digits = ds ∧ line.text = text := by
  obtain ⟨hne, hdecimal⟩ := Numeral.isNumeral_iff.mp hn
  have hlength := (statementId?_eq_some_iff.mp hid).1
  exact ⟨⟨ds, text, hdecimal, List.length_pos_of_ne_nil hne, hlength⟩, rfl, rfl⟩

end EntryLine

namespace Entry

theorem scan_eq_done_iff_line {b rest : List UInt8} {e : Entry} :
    Entry.scan b = .done e rest ↔ ∃ line : EntryLine, b = line.bytes ++ rest ∧ line.Means e := by
  rw [Entry.scan_eq_done_iff]
  constructor
  · rintro ⟨ds, hn, hid, rfl⟩
    obtain ⟨line, rfl, htext⟩ := EntryLine.exists_of_statementId? hn hid (Text.bytes e.sql)
    refine ⟨line, ?_, (statementId?_eq_some_iff.mp hid).2, htext⟩
    rw [EntryLine.bytes, htext]
  · rintro ⟨line, rfl, hmeans⟩
    refine ⟨line.digits, line.isNumeral_digits, ?_, ?_⟩
    · exact statementId?_eq_some_iff.mpr ⟨line.le_ten, hmeans.id⟩
    · rw [EntryLine.bytes, hmeans.sql]

theorem decode_eq_some_iff {buffer : List UInt8} {start stop : Nat} {e : Entry} :
    Entry.decode buffer start = .ok (some (e, stop)) ↔
      ∃ line : EntryLine, (stop ≤ buffer.length ∧ buffer.extract start stop = line.bytes) ∧
        line.Means e := by
  simp only [Entry.decode, located_eq_some, scan_eq_done_iff_line,
    extract_eq_iff (EntryLine.length_bytes_pos _)]
  constructor
  · rintro ⟨rest, ⟨line, hb, hmeans⟩, rfl⟩
    exact ⟨line, ⟨rest, hb, rfl⟩, hmeans⟩
  · rintro ⟨line, ⟨rest, hb, rfl⟩, hmeans⟩
    exact ⟨rest, ⟨line, hb, hmeans⟩, rfl⟩

theorem scan_eq_short_of_cut {e : Entry} {cut : List UInt8} (hcut : cut <+: e.encode)
    (hne : cut ≠ e.encode) : Entry.scan cut = .short := by
  obtain ⟨more, hmore⟩ := hcut
  have hdone := e.scan_encode []
  rw [List.append_nil, ← hmore] at hdone
  refine Entry.stable_scan.eq_short_of_done hdone ?_
  rintro rfl
  exact hne (by simpa using hmore)

/-- A written entry is found again between any bytes, its line cut anywhere is not found yet, and
what is found at a position of a buffer is the entry whose line stands there. -/
theorem decode_complete_lines :
    (∀ (e : Entry) (pre suf : List UInt8),
      Entry.decode (pre ++ e.encode ++ suf) pre.length =
        .ok (some (e, pre.length + e.encode.length))) ∧
    (∀ (e : Entry) (pre cut : List UInt8), cut <+: e.encode → cut ≠ e.encode →
      Entry.decode (pre ++ cut) pre.length = .ok none) ∧
    (∀ (buffer : List UInt8) (start stop : Nat) (e : Entry),
      Entry.decode buffer start = .ok (some (e, stop)) ↔
        ∃ line : EntryLine, (stop ≤ buffer.length ∧ buffer.extract start stop = line.bytes) ∧
          line.Means e) := by
  refine ⟨fun e pre suf => ?_, fun e pre cut hcut hne => ?_, fun buffer start stop e => ?_⟩
  · rw [Entry.decode, List.append_assoc, List.drop_left, scan_encode, Scan.located]
    simp only [List.length_append]
    congr 3
    omega
  · rw [Entry.decode, List.drop_left]
    exact located_eq_none.mpr (scan_eq_short_of_cut hcut hne)
  · exact decode_eq_some_iff

end Entry

end WorkloadReplay.Trace

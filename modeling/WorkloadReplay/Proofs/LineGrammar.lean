import WorkloadReplay.Trace.Entry
import WorkloadReplay.Trace.Record
import Mathlib.Data.List.TakeWhile

/-!
# The lines of a trace

A scan that is done has found a line of the format in front of the bytes: the grammar of records and
of entries, each said once for all bytes. What follows the line plays no part in it.
-/

namespace WorkloadReplay

namespace Quoted

variable {α : Type} [DecidableEq α]

@[simp] theorem doubled_nil (q : α) : doubled q [] = [] := rfl

@[simp] theorem doubled_cons (q c : α) (b : List α) :
    doubled q (c :: b) = (if c = q then [q, q] else [c]) ++ doubled q b := by simp [doubled]

/-- A scan that finds the closing quote has read a doubled text; a half read pair counts as a quote
in front. -/
theorem scanFrom_eq_some {q : α} {content b found rest : List α} {half : Bool}
    (h : scanFrom q content half b = (found, some rest)) :
    ∃ more, found = content.reverse ++ more ∧ rest.head? ≠ some q ∧
      (if half then q :: b else b) = doubled q more ++ q :: rest := by
  induction b generalizing content half with
  | nil =>
    cases half with
    | false => simp [scanFrom] at h
    | true =>
      simp only [scanFrom, if_true, Prod.mk.injEq, Option.some.injEq] at h
      obtain ⟨rfl, rfl⟩ := h
      exact ⟨[], by simp, by simp, by simp⟩
  | cons c b ih =>
    cases half with
    | false =>
      by_cases hc : c = q
      · subst hc
        simp only [scanFrom, Bool.false_eq_true, if_false, if_true] at h
        simpa using ih h
      · simp only [scanFrom, Bool.false_eq_true, if_false, hc] at h
        obtain ⟨more, rfl, hrest, hb⟩ := ih h
        exact ⟨c :: more, by simp, hrest, by simpa [hc] using hb⟩
    | true =>
      by_cases hc : c = q
      · subst hc
        simp only [scanFrom, if_true] at h
        obtain ⟨more, rfl, hrest, hb⟩ := ih h
        exact ⟨c :: more, by simp, hrest, by simpa using hb⟩
      · simp only [scanFrom, if_true, hc, if_false, Prod.mk.injEq, Option.some.injEq] at h
        obtain ⟨rfl, rfl⟩ := h
        exact ⟨[], by simp, by simpa using hc, by simp⟩

theorem scan_eq_some_iff {q : α} {b found rest : List α} :
    scan q b = (found, some rest) ↔ rest.head? ≠ some q ∧ b = doubled q found ++ q :: rest := by
  constructor
  · intro h
    obtain ⟨more, rfl, hrest, hb⟩ := scanFrom_eq_some h
    exact ⟨hrest, by simpa using hb⟩
  · rintro ⟨hrest, rfl⟩
    exact scan_doubled q found rest hrest

end Quoted

namespace Trace

theorem Scan.quoted_eq_done_iff {q : UInt8} {b content rest : List UInt8} :
    Scan.quoted q b = .done content rest ↔
      rest ≠ [] ∧ rest.head? ≠ some q ∧ b = Quoted.doubled q content ++ q :: rest := by
  rw [← Quoted.scan_eq_some_iff]
  unfold Scan.quoted
  split
  · rename_i found c more h
    simp only [Scan.done.injEq, h, Prod.mk.injEq, Option.some.injEq]
    constructor
    · rintro ⟨rfl, rfl⟩
      simp
    · rintro ⟨-, rfl, rfl⟩
      simp
  · rename_i x hx
    constructor
    · intro h
      cases h
    · rintro ⟨hne, h⟩
      obtain ⟨c, more, rfl⟩ := List.exists_cons_of_ne_nil hne
      exact absurd h (hx content c more)

/-- Single quotes come in pairs, and double quotes stand inside of a pair only; `inValue` tells that
the first single quote is the second of its pair. -/
def quotesPair (inValue : Bool) : List UInt8 → Bool
  | [] => !inValue
  | c :: rest =>
    (c ≠ fieldQuote || inValue) && quotesPair (if c = Params.quote then !inValue else inValue) rest

theorem scanParamsFrom_eq_done_iff {taken b found rest : List UInt8} {inValue : Bool} :
    scanParamsFrom taken inValue b = .done found rest ↔
      ∃ field more, found = taken.reverse ++ field ∧ rest = fieldQuote :: more ∧
        b = field ++ rest ∧ quotesPair inValue field = true := by
  induction b generalizing taken inValue with
  | nil =>
    simp only [scanParamsFrom, reduceCtorEq, false_iff]
    rintro ⟨field, more, -, rfl, hb, -⟩
    simp at hb
  | cons c b ih =>
    rw [scanParamsFrom]
    split
    · rename_i hc
      obtain ⟨rfl, rfl⟩ := hc
      simp only [Scan.done.injEq]
      constructor
      · rintro ⟨rfl, rfl⟩
        exact ⟨[], b, by simp, rfl, rfl, rfl⟩
      · rintro ⟨field, more, rfl, rfl, hb, hpair⟩
        cases field with
        | nil => exact ⟨by simp, hb⟩
        | cons d field =>
          obtain ⟨rfl, -⟩ := List.cons_eq_cons.mp hb
          simp [quotesPair] at hpair
    · rename_i hc
      rw [ih]
      constructor
      · rintro ⟨field, more, rfl, rfl, rfl, hpair⟩
        refine ⟨c :: field, more, by simp, rfl, rfl, ?_⟩
        simp only [quotesPair, hpair, Bool.and_true]
        cases inValue <;> simp_all
      · rintro ⟨field, more, rfl, rfl, hb, hpair⟩
        cases field with
        | nil =>
          obtain ⟨rfl, -⟩ := List.cons_eq_cons.mp hb
          simp only [quotesPair, Bool.not_eq_true'] at hpair
          exact absurd ⟨rfl, hpair⟩ hc
        | cons d field =>
          obtain ⟨rfl, rfl⟩ := List.cons_eq_cons.mp hb
          simp only [quotesPair, Bool.and_eq_true] at hpair
          exact ⟨field, more, by simp, rfl, rfl, hpair.2⟩

theorem scanParams_eq_done_iff {b found rest : List UInt8} :
    scanParams b = .done found rest ↔
      (∃ more, rest = fieldQuote :: more) ∧ b = found ++ rest ∧ quotesPair false found = true := by
  unfold scanParams
  rw [scanParamsFrom_eq_done_iff]
  constructor
  · rintro ⟨field, more, rfl, rfl, rfl, hpair⟩
    exact ⟨⟨more, rfl⟩, rfl, hpair⟩
  · rintro ⟨⟨more, rfl⟩, rfl, hpair⟩
    exact ⟨found, more, rfl, rfl, rfl, hpair⟩

theorem takeWhile_append_cons {p : UInt8 → Bool} {ds : List UInt8} {c : UInt8}
    (rest : List UInt8) (hds : ∀ b ∈ ds, p b = true) (hc : p c = false) :
    (ds ++ c :: rest).takeWhile p = ds ∧ (ds ++ c :: rest).dropWhile p = c :: rest := by
  simp [List.takeWhile_append_of_pos hds, List.dropWhile_append_of_pos hds, hc]

theorem decodeTime_eq_ok {ds : List UInt8} {time : Int64} (h : decodeTime ds = .ok time) :
    ds ≠ [] ∧ ds.length ≤ maxTimeDigits ∧ ∀ b ∈ ds, isHexDigit b = true := by
  unfold decodeTime at h
  split at h
  · simp_all
  · cases h

theorem scanTime_eq_done_iff {b rest : List UInt8} {time : Int64} :
    scanTime b = .done time rest ↔
      ∃ ds, decodeTime ds = .ok time ∧ b = ds ++ fieldSeparator :: rest := by
  constructor
  · intro h
    have hb := List.takeWhile_append_dropWhile (p := isHexDigit) (l := b)
    unfold scanTime at h
    dsimp only at h
    split at h
    · cases h
    · split at h
      · cases h
      · rename_i c more hd
        rw [hd] at hb
        split at h
        · cases h
        · rename_i hc
          split at h
          · rename_i t ht
            cases h
            refine ⟨_, ht, ?_⟩
            rw [← not_ne_iff.mp hc]
            exact hb.symm
          · cases h
  · rintro ⟨ds, ht, rfl⟩
    obtain ⟨-, hlen, hhex⟩ := decodeTime_eq_ok ht
    obtain ⟨htake, hdrop⟩ := takeWhile_append_cons rest hhex
      (show isHexDigit fieldSeparator = false by decide)
    simp only [scanTime, htake, hdrop, ht, Nat.not_lt.mpr hlen, if_false, ne_eq, not_true]

def recordLine (digits tag params : List UInt8) : List UInt8 :=
  digits ++ fieldSeparator :: (Quoted.enclose fieldQuote tag ++
    fieldSeparator :: fieldQuote :: (params ++ [fieldQuote, lineEnd]))

theorem recordLine_append (digits tag params rest : List UInt8) :
    recordLine digits tag params ++ rest =
      digits ++ fieldSeparator :: fieldQuote :: (Quoted.doubled fieldQuote tag ++
        fieldQuote :: fieldSeparator :: fieldQuote ::
          (params ++ fieldQuote :: lineEnd :: rest)) := by
  simp [recordLine, Quoted.enclose]

theorem scanLine_eq_done_iff {b tag params rest : List UInt8} {time : Int64} :
    scanLine b = .done (time, tag, params) rest ↔
      ∃ ds, decodeTime ds = .ok time ∧ quotesPair false params = true ∧
        b = recordLine ds tag params ++ rest := by
  simp only [scanLine, Scan.bind_eq_done, Scan.byte_eq_done, scanTime_eq_done_iff,
    Scan.quoted_eq_done_iff, scanParams_eq_done_iff, Scan.done.injEq, Prod.mk.injEq]
  constructor
  · rintro ⟨t, b₁, ⟨ds, ht, rfl⟩, -, b₂, rfl, content, b₃, ⟨-, -, rfl⟩, -, b₄, rfl, -, b₅, rfl,
      ps, b₆, ⟨-, rfl, hpair⟩, -, b₇, rfl, -, b₈, rfl, ⟨rfl, rfl, rfl⟩, rfl⟩
    exact ⟨ds, ht, hpair, (recordLine_append ..).symm⟩
  · rintro ⟨ds, ht, hpair, rfl⟩
    rw [recordLine_append]
    exact ⟨time, _, ⟨ds, ht, rfl⟩, (), _, rfl,
      tag, _, ⟨by simp, by simp [fieldSeparator, fieldQuote], rfl⟩, (), _, rfl,
      (), _, rfl, params, _, ⟨⟨_, rfl⟩, rfl, hpair⟩, (), _, rfl, (), _, rfl, ⟨rfl, rfl, rfl⟩, rfl⟩

theorem head?_recordLine_ne {digits : List UInt8} {time : Int64}
    (h : decodeTime digits = .ok time) (tag params rest : List UInt8) :
    (recordLine digits tag params ++ rest).head? ≠ some sectionDelimiter := by
  obtain ⟨hne, -, hhex⟩ := decodeTime_eq_ok h
  obtain ⟨b, more, rfl⟩ := List.exists_cons_of_ne_nil hne
  have hb := hhex b List.mem_cons_self
  intro hd
  have : b = sectionDelimiter := by simpa [recordLine] using hd
  subst this
  revert hb
  decide

theorem Record.ofFields_eq_done_iff {time : Int64} {tag params more rest : List UInt8}
    {record : Record} :
    Record.ofFields time tag params more = .done record rest ↔
      record.time = time ∧ Tag.ofField tag = .ok record.tag ∧
        Params.decode params = .ok record.params ∧ rest = more := by
  unfold Record.ofFields
  cases ht : Tag.ofField tag with
  | error problem => simp
  | ok t =>
    cases hp : Params.decode params with
    | error fault => simp
    | ok ps =>
      cases record
      simp only [Scan.done.injEq, Record.mk.injEq, Except.ok.injEq]
      grind

theorem Record.scan_eq_done_iff {b rest : List UInt8} {record : Record} :
    Record.scan b = .done record rest ↔
      ∃ digits tag params, decodeTime digits = .ok record.time ∧
        Tag.ofField tag = .ok record.tag ∧ quotesPair false params = true ∧
        Params.decode params = .ok record.params ∧ b = recordLine digits tag params ++ rest := by
  unfold Record.scan
  constructor
  · intro h
    split at h
    · cases h
    · obtain ⟨⟨time, tag, params⟩, more, hline, hfields⟩ := Scan.bind_eq_done.mp h
      obtain ⟨digits, ht, hpair, rfl⟩ := scanLine_eq_done_iff.mp hline
      obtain ⟨rfl, htag, hparams, rfl⟩ := Record.ofFields_eq_done_iff.mp hfields
      exact ⟨digits, tag, params, ht, htag, hpair, hparams, rfl⟩
  · rintro ⟨digits, tag, params, ht, htag, hpair, hparams, rfl⟩
    rw [if_neg (head?_recordLine_ne ht tag params rest)]
    exact Scan.bind_eq_done.mpr ⟨(record.time, tag, params), rest,
      scanLine_eq_done_iff.mpr ⟨digits, ht, hpair, rfl⟩,
      Record.ofFields_eq_done_iff.mpr ⟨rfl, htag, hparams, rfl⟩⟩

theorem scanId_eq_done_iff {b rest : List UInt8} {id : UInt32} :
    scanId b = .done id rest ↔
      ∃ ds, Numeral.isNumeral ds = true ∧ statementId? ds = some id ∧
        b = ds ++ fieldSeparator :: rest := by
  constructor
  · intro h
    have hb := List.takeWhile_append_dropWhile (p := Numeral.isDigit) (l := b)
    unfold scanId at h
    dsimp only at h
    split at h
    · split at h <;> cases h
    · rename_i c more hd
      rw [hd] at hb
      split at h
      · cases h
      · rename_i hc
        simp only [Bool.or_eq_true, decide_eq_true_eq, not_or, not_not, Bool.not_eq_true] at hc
        split at h
        · rename_i id' hid
          cases h
          refine ⟨_, ?_, hid, ?_⟩
          · simp [Numeral.isNumeral, hc.1]
          · rw [← hc.2]
            exact hb.symm
        · cases h
  · rintro ⟨ds, hn, hid, rfl⟩
    simp only [Numeral.isNumeral, Bool.and_eq_true, Bool.not_eq_true', List.all_eq_true] at hn
    obtain ⟨htake, hdrop⟩ := takeWhile_append_cons rest hn.2
      (show Numeral.isDigit fieldSeparator = false by decide)
    simp [scanId, htake, hdrop, hid, hn.1]

def entryLine (digits text : List UInt8) : List UInt8 :=
  digits ++ fieldSeparator :: (Quoted.enclose fieldQuote text ++ [lineEnd])

theorem Entry.scan_eq_done_iff {b rest : List UInt8} {entry : Entry} :
    Entry.scan b = .done entry rest ↔
      ∃ digits, Numeral.isNumeral digits = true ∧ statementId? digits = some entry.id ∧
        b = entryLine digits (Text.bytes entry.sql) ++ rest := by
  simp only [Entry.scan, Scan.bind_eq_done, Scan.byte_eq_done, scanId_eq_done_iff,
    Scan.quoted_eq_done_iff]
  constructor
  · rintro ⟨id, b₁, ⟨ds, hn, hid, rfl⟩, -, b₂, rfl, text, b₃, ⟨-, -, rfl⟩, -, b₄, rfl, h⟩
    split at h
    · rename_i sql hsql
      cases h
      refine ⟨ds, hn, hid, ?_⟩
      simp [entryLine, Quoted.enclose, Text.ofBytes?_eq_some_iff.mp hsql]
    · cases h
  · rintro ⟨ds, hn, hid, rfl⟩
    refine ⟨entry.id, _, ⟨ds, hn, hid, ?_⟩, (), _, rfl, Text.bytes entry.sql, lineEnd :: rest,
      ⟨by simp, by simp [lineEnd, fieldQuote], rfl⟩, (), rest, rfl, ?_⟩
    · simp [entryLine, Quoted.enclose]
    · simp [Text.ofBytes?_bytes]

end Trace

end WorkloadReplay

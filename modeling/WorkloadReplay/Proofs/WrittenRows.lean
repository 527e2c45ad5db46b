import WorkloadReplay.Log.Row
import WorkloadReplay.Proofs.LineGrammar
import WorkloadReplay.Proofs.TextBytes
import Mathlib.Data.List.Basic
import Mathlib.Tactic.Common

/-!
# Reading back the rows of a log

A log is written row by row. Each field stands between quotes, with its own quotes doubled, or as it
is if it has no character that would be taken for more than itself. Reading gives the rows that were
written, wherever blank lines stand between them, each with the line on which it starts.
-/

namespace WorkloadReplay

namespace Log

/-! The written form of a log. -/

/-- A character that stands in a field only between quotes. -/
def needsQuotes (c : Char) : Bool := c = ',' || c = '"' || c = '\r' || c = '\n'

inductive WrittenField (s : String) : List UInt8 → Prop
  | quoted : WrittenField s (Quoted.enclose doubleQuote (Text.bytes s))
  | plain (h : ∀ c ∈ s.toList, needsQuotes c = false) : WrittenField s (Text.bytes s)

inductive WrittenFields : List String → List UInt8 → Prop
  | single {s : String} {b : List UInt8} (h : WrittenField s b) : WrittenFields [s] b
  | cons {s : String} {ss : List String} {b bs : List UInt8} (h : WrittenField s b)
      (hs : WrittenFields ss bs) : WrittenFields (s :: ss) (b ++ comma :: bs)

inductive LineEnding : List UInt8 → Prop
  | feed : LineEnding [lineFeed]
  | returnFeed : LineEnding [carriageReturn, lineFeed]

/-- The rest of a log behind the bytes `before`: rows, each with the line on which it starts and the
place of its end, and blank lines anywhere between them. Only the last row may have no line end. -/
inductive WrittenLog : List UInt8 → List (Row × Nat) → List UInt8 → Prop
  | nil (before : List UInt8) : WrittenLog before [] []
  | blank {before ending rest : List UInt8} {rows : List (Row × Nat)} (hending : LineEnding ending)
      (h : WrittenLog (before ++ ending) rows rest) : WrittenLog before rows (ending ++ rest)
  | row {before b ending rest : List UInt8} {fields : List String} {rows : List (Row × Nat)}
      (hfields : WrittenFields fields b) (enough : minColumns ≤ fields.length)
      (hending : LineEnding ending) (h : WrittenLog (before ++ (b ++ ending)) rows rest) :
      WrittenLog before
        ((⟨before.count lineFeed + 1, fields, enough⟩, (before ++ (b ++ ending)).length) :: rows)
        (b ++ ending ++ rest)
  | last {before b : List UInt8} {fields : List String} (hfields : WrittenFields fields b)
      (enough : minColumns ≤ fields.length) :
      WrittenLog before
        [(⟨before.count lineFeed + 1, fields, enough⟩, (before ++ b).length)] b

/-- What a reader of rows still gives: rows, each with the number of bytes that have been read after
it, and then, with so many bytes read, nothing more for ever. -/
inductive RowReader.Gives : RowReader → List (Row × Nat) → Nat → Prop
  | done {r last : RowReader} (h : r.next = (last, none)) (hlast : last.next = (last, none)) :
      Gives r [] last.bytesRead
  | row {r later : RowReader} {row : Row} {rows : List (Row × Nat)} {n : Nat}
      (h : r.next = (later, some (.ok row))) (hs : Gives later rows n) :
      Gives r ((row, later.bytesRead) :: rows) n

section

variable {s : String} {fields : List String} {b bs ending rest : List UInt8}

theorem doubleQuote_ne_comma : doubleQuote ≠ comma := by decide

theorem doubleQuote_ne_lineFeed : doubleQuote ≠ lineFeed := by decide

/-- No byte of a field that is written as it is means more than itself. -/
theorem plain_bytes (h : ∀ c ∈ s.toList, needsQuotes c = false) :
    ∀ x ∈ Text.bytes s, x ≠ comma ∧ x ≠ doubleQuote ∧ isLineEnd x = false := by
  have hne (x : Char) (hx : needsQuotes x = true) (hascii : x.toNat < 128) :
      UInt8.ofNat x.toNat ∉ Text.bytes s := by
    intro hmem
    have htoNat : (UInt8.ofNat x.toNat).toNat = x.toNat :=
      UInt8.toNat_ofNat_of_lt' (show x.toNat < 256 by omega)
    obtain ⟨c, hc, hcx⟩ := Text.exists_char_of_mem_bytes hmem (by omega)
    rw [htoNat] at hcx
    rw [← Char.toNat_inj.mp hcx, h c hc] at hx
    cases hx
  intro x hx
  have hcomma := hne ',' rfl (by decide)
  have hquote := hne '"' rfl (by decide)
  have hreturn := hne '\r' rfl (by decide)
  have hfeed := hne '\n' rfl (by decide)
  refine ⟨?_, ?_, ?_⟩
  · rintro rfl
    exact hcomma hx
  · rintro rfl
    exact hquote hx
  · rw [isLineEnd, Bool.or_eq_false_iff, decide_eq_false_iff_not, decide_eq_false_iff_not]
    constructor
    · rintro rfl
      exact hfeed hx
    · rintro rfl
      exact hreturn hx

/-! Splitting a row. -/

theorem splitFrom_inside (fields : List (List UInt8)) (field b rest : List UInt8) :
    splitFrom fields field .inside (Quoted.doubled doubleQuote b ++ doubleQuote :: rest) =
      splitFrom fields (b.reverse ++ field) .half rest := by
  induction b generalizing field with
  | nil => simp [splitFrom]
  | cons c b ih =>
    rw [Quoted.doubled_cons, List.reverse_cons, List.append_assoc, List.append_assoc,
      List.singleton_append, ← ih]
    by_cases hc : c = doubleQuote
    · subst hc
      simp [splitFrom, doubleQuote_ne_comma]
    · simp [splitFrom, hc]

theorem splitFrom_plain (fields : List (List UInt8)) (field : List UInt8) (place : FieldPlace)
    (h : ∀ x ∈ b, x ≠ comma ∧ x ≠ doubleQuote ∧ isLineEnd x = false) (hplace : place ≠ .inside) :
    ∃ place', place' ≠ .inside ∧ ∀ rest, splitFrom fields field place (b ++ rest) =
      splitFrom fields (b.reverse ++ field) place' rest := by
  induction b generalizing field place with
  | nil => exact ⟨place, hplace, fun rest => rfl⟩
  | cons c b ih =>
    obtain ⟨⟨hcomma, hquote, -⟩, hb⟩ := List.forall_mem_cons.mp h
    obtain ⟨place', hplace', hsplit⟩ := ih (c :: field) .plain hb nofun
    refine ⟨place', hplace', fun rest => ?_⟩
    rw [List.cons_append, splitFrom, if_neg hplace, if_neg hcomma,
      if_neg fun hand => hquote hand.1, if_neg fun hand => hquote hand.1, hsplit,
      List.reverse_cons, List.append_assoc, List.singleton_append]

theorem splitFrom_field (fields : List (List UInt8)) (h : WrittenField s b) :
    ∃ place, place ≠ .inside ∧ ∀ rest, splitFrom fields [] .start (b ++ rest) =
      splitFrom fields (Text.bytes s).reverse place rest := by
  cases h with
  | quoted =>
    refine ⟨.half, nofun, fun rest => ?_⟩
    have hstart : FieldPlace.start ≠ .inside := nofun
    rw [Quoted.enclose, List.cons_append, List.append_assoc, List.singleton_append, splitFrom,
      if_neg hstart, if_neg doubleQuote_ne_comma, if_pos ⟨rfl, rfl⟩, splitFrom_inside,
      List.append_nil]
  | plain h =>
    obtain ⟨place, hplace, hsplit⟩ := splitFrom_plain fields [] .start (plain_bytes h) nofun
    refine ⟨place, hplace, fun rest => ?_⟩
    rw [hsplit, List.append_nil]

theorem splitFrom_fields (h : WrittenFields fields b) (found : List (List UInt8)) :
    splitFrom found [] .start b = found.reverse ++ fields.map Text.bytes := by
  induction h generalizing found with
  | @single s b h =>
    obtain ⟨place, -, hsplit⟩ := splitFrom_field found h
    have hend := hsplit []
    rw [List.append_nil] at hend
    rw [hend, splitFrom, List.reverse_reverse, List.reverse_cons]
    rfl
  | @cons s ss b bs h _ ih =>
    obtain ⟨place, hplace, hsplit⟩ := splitFrom_field found h
    rw [hsplit, splitFrom, if_neg hplace, if_pos rfl, ih, List.reverse_reverse, List.reverse_cons,
      List.append_assoc]
    rfl

/-! The line end of a row. -/

theorem LineEnding.isLineEnd_of_mem (h : LineEnding ending) : ∀ x ∈ ending, isLineEnd x = true := by
  have hfeed : ∀ x ∈ [lineFeed], isLineEnd x = true :=
    List.forall_mem_cons.mpr ⟨rfl, List.forall_mem_nil _⟩
  cases h with
  | feed => exact hfeed
  | returnFeed => exact List.forall_mem_cons.mpr ⟨rfl, hfeed⟩

theorem dropLineEnd_append (hb : ∀ x ∈ b.getLast?, isLineEnd x = false)
    (hending : ∀ x ∈ ending, isLineEnd x = true) : dropLineEnd (b ++ ending) = b := by
  unfold dropLineEnd
  rw [List.reverse_append, List.dropWhile_append_of_pos (by simpa using hending)]
  rcases List.eq_nil_or_concat' b with rfl | ⟨b, x, rfl⟩
  · rfl
  · have hx := hb x (by rw [List.getLast?_concat]; rfl)
    rw [List.reverse_append, List.reverse_singleton, List.singleton_append,
      List.dropWhile_cons_of_neg (by rw [hx]; exact nofun), List.reverse_cons, List.reverse_reverse]

theorem WrittenField.isLineEnd_getLast? (h : WrittenField s b) :
    ∀ x ∈ b.getLast?, isLineEnd x = false := by
  intro x hx
  cases h with
  | quoted =>
    rw [Quoted.enclose, ← List.cons_append, List.getLast?_concat] at hx
    obtain rfl := Option.some.inj hx
    decide
  | plain h => exact (plain_bytes h x (List.mem_of_getLast? hx)).2.2

theorem WrittenFields.isLineEnd_getLast? (h : WrittenFields fields b) :
    ∀ x ∈ b.getLast?, isLineEnd x = false := by
  induction h with
  | single h => exact h.isLineEnd_getLast?
  | @cons s ss b bs h _ ih =>
    intro x hx
    rw [List.getLast?_append, List.getLast?_cons, Option.some_or] at hx
    obtain rfl := Option.some.inj hx
    cases hlast : bs.getLast? with
    | none => decide
    | some y => exact ih y hlast

theorem splitFields_append (h : WrittenFields fields b)
    (hending : ∀ x ∈ ending, isLineEnd x = true) : splitFields (b ++ ending) = fields := by
  rw [splitFields, dropLineEnd_append h.isLineEnd_getLast? hending, splitFrom_fields h,
    List.reverse_nil, List.nil_append, List.map_map]
  simp [Function.comp_def]

/-! Taking a row. -/

theorem takeRowFrom_doubled (taken b rest : List UInt8) :
    takeRowFrom taken true (Quoted.doubled doubleQuote b ++ rest) =
      takeRowFrom ((Quoted.doubled doubleQuote b).reverse ++ taken) true rest := by
  induction b generalizing taken with
  | nil => rfl
  | cons c b ih =>
    rw [Quoted.doubled_cons]
    by_cases hc : c = doubleQuote
    · subst hc
      simp [takeRowFrom, doubleQuote_ne_lineFeed, ih]
    · simp [takeRowFrom, hc, ih]

theorem takeRowFrom_plain (taken rest : List UInt8)
    (h : ∀ x ∈ b, x ≠ comma ∧ x ≠ doubleQuote ∧ isLineEnd x = false) :
    takeRowFrom taken false (b ++ rest) = takeRowFrom (b.reverse ++ taken) false rest := by
  induction b generalizing taken with
  | nil => rfl
  | cons c b ih =>
    obtain ⟨⟨-, hquote, hend⟩, hb⟩ := List.forall_mem_cons.mp h
    have hfeed : c ≠ lineFeed := by
      rintro rfl
      cases hend
    rw [List.cons_append, takeRowFrom, if_neg fun hand => hfeed hand.1, if_neg hquote, ih _ hb,
      List.reverse_cons, List.append_assoc, List.singleton_append]

/-- A row goes on behind a written field, whose quotes are even in number. -/
theorem takeRowFrom_field (taken rest : List UInt8) (h : WrittenField s b) :
    takeRowFrom taken false (b ++ rest) = takeRowFrom (b.reverse ++ taken) false rest := by
  cases h with
  | quoted =>
    rw [Quoted.enclose, List.cons_append, List.append_assoc, takeRowFrom,
      if_neg fun hand => doubleQuote_ne_lineFeed hand.1, if_pos rfl, Bool.not_false,
      takeRowFrom_doubled, List.singleton_append, takeRowFrom,
      if_neg fun hand => doubleQuote_ne_lineFeed hand.1, if_pos rfl, Bool.not_true]
    simp
  | plain h => exact takeRowFrom_plain taken rest (plain_bytes h)

theorem takeRowFrom_fields (taken rest : List UInt8) (h : WrittenFields fields b) :
    takeRowFrom taken false (b ++ rest) = takeRowFrom (b.reverse ++ taken) false rest := by
  induction h generalizing taken with
  | single h => exact takeRowFrom_field taken rest h
  | @cons s ss b bs h _ ih =>
    have hfeed : comma ≠ lineFeed := by decide
    have hquote : comma ≠ doubleQuote := by decide
    rw [List.append_assoc, takeRowFrom_field _ _ h, List.cons_append, takeRowFrom,
      if_neg fun hand => hfeed hand.1, if_neg hquote, ih]
    simp

theorem LineEnding.takeRowFrom (h : LineEnding ending) (taken rest : List UInt8) :
    takeRowFrom taken false (ending ++ rest) = (taken.reverse ++ ending, false, rest) := by
  cases h with
  | feed => simp [Log.takeRowFrom]
  | returnFeed =>
    have hfeed : carriageReturn ≠ lineFeed := by decide
    have hquote : carriageReturn ≠ doubleQuote := by decide
    simp [Log.takeRowFrom, hfeed, hquote]

theorem takeRow_row (h : WrittenFields fields b) (hending : LineEnding ending)
    (rest : List UInt8) : takeRow (b ++ ending ++ rest) = (b ++ ending, false, rest) := by
  rw [takeRow, List.append_assoc, takeRowFrom_fields _ _ h, hending.takeRowFrom]
  simp

theorem takeRow_last (h : WrittenFields fields b) : takeRow b = (b, false, []) := by
  have htake := takeRowFrom_fields [] [] h
  rw [List.append_nil] at htake
  rw [takeRow, htake, takeRowFrom]
  simp

theorem comma_mem (h : WrittenFields fields b) (hmany : 1 < fields.length) : comma ∈ b := by
  cases h with
  | single => exact absurd hmany (by simp)
  | cons => exact List.mem_append_right _ List.mem_cons_self

theorem not_all_isLineEnd (h : WrittenFields fields b) (hmany : 1 < fields.length) :
    (b ++ ending).all isLineEnd = false :=
  List.all_eq_false.mpr ⟨comma, List.mem_append_left _ (comma_mem h hmany), by decide⟩

theorem LineEnding.getLast?_append (h : LineEnding ending) (b : List UInt8) :
    (b ++ ending).getLast? = some lineFeed := by
  rw [List.getLast?_append]
  cases h with
  | feed => rfl
  | returnFeed => rfl

theorem LineEnding.lineCount_append (h : LineEnding ending) (b : List UInt8) :
    lineCount (b ++ ending) = (b ++ ending).count lineFeed := by
  rw [lineCount, h.getLast?_append, if_pos rfl, Nat.add_zero]

/-! The rows, one after the other. -/

namespace RowReader

/-- The reader that stands behind the bytes `before` with the bytes `rest` left to read. -/
def behind (before rest : List UInt8) : RowReader :=
  ⟨rest, before.count lineFeed, before.length, false⟩

theorem rowOfBytes_append (line : Nat) (h : WrittenFields fields b)
    (enough : minColumns ≤ fields.length) (hending : ∀ x ∈ ending, isLineEnd x = true) :
    rowOfBytes line (b ++ ending) = .ok ⟨line, fields, enough⟩ := by
  have hsplit : splitFields (b ++ ending) = fields := splitFields_append h hending
  simp only [rowOfBytes, hsplit, dif_pos enough]

theorem past_behind (before : List UInt8) (hending : LineEnding ending) :
    (behind before (b ++ ending ++ rest)).past (b ++ ending) rest =
      behind (before ++ (b ++ ending)) rest := by
  simp only [past, behind, hending.lineCount_append, List.count_append, List.length_append]

theorem next_of_takeRow_blank {r : RowReader} {row : List UInt8} (hopen : r.finished = false)
    (hrest : r.rest ≠ []) (htake : takeRow r.rest = (row, false, rest))
    (hblank : row.all isLineEnd = true) : r.next = (r.past row rest).next := by
  rw [next, if_neg (by rw [hopen]; exact nofun), dif_neg hrest]
  split
  next hopen' => rw [htake] at hopen'; cases hopen'
  next row' rest' htake' =>
    obtain ⟨rfl, -, rfl⟩ : row = row' ∧ false = false ∧ rest = rest' := by
      simpa [htake] using htake'
    rw [if_pos hblank]

theorem next_of_takeRow {r : RowReader} {bytes : List UInt8} {row : Row}
    (hopen : r.finished = false) (hrest : r.rest ≠ [])
    (htake : takeRow r.rest = (bytes, false, rest)) (hblank : bytes.all isLineEnd = false)
    (hrow : rowOfBytes (r.lines + 1) bytes = .ok row) :
    r.next = (r.past bytes rest, some (.ok row)) := by
  rw [next, if_neg (by rw [hopen]; exact nofun), dif_neg hrest]
  split
  next hopen' => rw [htake] at hopen'; cases hopen'
  next row' rest' htake' =>
    obtain ⟨rfl, -, rfl⟩ : bytes = row' ∧ false = false ∧ rest = rest' := by
      simpa [htake] using htake'
    rw [if_neg (by rw [hblank]; exact nofun), hrow]

theorem next_behind_blank (before : List UInt8) (hending : LineEnding ending) :
    (behind before (ending ++ rest)).next = (behind (before ++ ending) rest).next := by
  have htake : takeRow (ending ++ rest) = (ending, false, rest) := hending.takeRowFrom [] rest
  have hne : ending ++ rest ≠ [] := by
    cases hending with
    | feed => nofun
    | returnFeed => nofun
  rw [next_of_takeRow_blank rfl hne htake (List.all_eq_true.mpr hending.isLineEnd_of_mem)]
  exact congrArg next (past_behind (b := []) before hending)

theorem next_behind_row (before : List UInt8) (h : WrittenFields fields b)
    (enough : minColumns ≤ fields.length) (hending : LineEnding ending) :
    (behind before (b ++ ending ++ rest)).next =
      (behind (before ++ (b ++ ending)) rest,
        some (.ok ⟨before.count lineFeed + 1, fields, enough⟩)) := by
  have hmany : 1 < fields.length := Nat.lt_of_lt_of_le (by decide) enough
  have hne : b ++ ending ++ rest ≠ [] :=
    List.ne_nil_of_mem (List.mem_append_left _ (List.mem_append_left _ (comma_mem h hmany)))
  rw [next_of_takeRow rfl hne (takeRow_row h hending rest) (not_all_isLineEnd h hmany)
    (rowOfBytes_append _ h enough hending.isLineEnd_of_mem), past_behind before hending]
  rfl

theorem next_behind_last (before : List UInt8) (h : WrittenFields fields b)
    (enough : minColumns ≤ fields.length) :
    (behind before b).next =
      ((behind before b).past b [], some (.ok ⟨before.count lineFeed + 1, fields, enough⟩)) := by
  have hmany : 1 < fields.length := Nat.lt_of_lt_of_le (by decide) enough
  have hblank : (b ++ []).all isLineEnd = false := not_all_isLineEnd h hmany
  have hrow : rowOfBytes (before.count lineFeed + 1) (b ++ []) =
      .ok ⟨before.count lineFeed + 1, fields, enough⟩ := rowOfBytes_append _ h enough nofun
  rw [List.append_nil] at hblank hrow
  exact next_of_takeRow rfl (List.ne_nil_of_mem (comma_mem h hmany)) (takeRow_last h) hblank hrow

theorem gives_of_rest_eq_nil {r : RowReader} (h : r.rest = []) (hopen : r.finished = false) :
    r.Gives [] r.bytesRead := by
  have hnext : r.next = ({ r with finished := true }, none) := by
    rw [next, if_neg (by rw [hopen]; exact nofun), dif_pos h]
  have hlast : ({ r with finished := true } : RowReader).next =
      ({ r with finished := true }, none) := by rw [next, if_pos rfl]
  have hgives : r.Gives [] ({ r with finished := true } : RowReader).bytesRead := .done hnext hlast
  exact hgives

theorem Gives.of_next_eq {r s : RowReader} {rows : List (Row × Nat)} {n : Nat}
    (hnext : r.next = s.next) (h : s.Gives rows n) : r.Gives rows n := by
  cases h with
  | done h hlast => exact .done (hnext.trans h) hlast
  | row h hs => exact .row (hnext.trans h) hs

theorem gives_behind {before : List UInt8} {rows : List (Row × Nat)}
    (h : WrittenLog before rows rest) :
    (behind before rest).Gives rows (before.length + rest.length) := by
  induction h with
  | nil before => exact gives_of_rest_eq_nil rfl rfl
  | @blank before ending rest rows hending _ ih =>
    rw [List.length_append, ← Nat.add_assoc, ← List.length_append]
    exact ih.of_next_eq (next_behind_blank before hending)
  | @row before b ending rest fields rows hfields enough hending _ ih =>
    have hlength : (b ++ ending ++ rest).length = (b ++ ending).length + rest.length :=
      List.length_append
    rw [hlength, ← Nat.add_assoc, ← List.length_append]
    exact .row (next_behind_row before hfields enough hending) ih
  | @last before b fields hfields enough =>
    rw [List.length_append]
    exact .row (next_behind_last before hfields enough) (gives_of_rest_eq_nil rfl rfl)

theorem Gives.rowsFrom_eq {r : RowReader} {rows : List (Row × Nat)} {n : Nat}
    (h : r.Gives rows n) (taken : List Row) :
    rowsFrom taken r = (taken.reverse ++ rows.map Prod.fst, none) := by
  induction h generalizing taken with
  | done h =>
    rw [rowsFrom]
    split
    next => rw [List.map_nil, List.append_nil]
    next h' => rw [h] at h'; cases h'
    next h' => rw [h] at h'; cases h'
  | @row r later row rows n h _ ih =>
    rw [rowsFrom]
    split
    next h' => rw [h] at h'; cases h'
    next h' => rw [h] at h'; cases h'
    next r' row' h' =>
      obtain ⟨rfl, rfl⟩ : later = r' ∧ row = row' := by simpa [h] using h'
      rw [ih, List.reverse_cons, List.append_assoc]
      rfl

end RowReader

/-- Reading undoes writing: the rows that are written in a log are given in order and then nothing
more, each with the line on which it starts, and with the number of bytes up to its end as read. -/
theorem gives_of_writtenLog {log : List UInt8} {rows : List (Row × Nat)}
    (h : WrittenLog [] rows log) :
    (RowReader.ofBytes log).Gives rows log.length ∧ Log.rows log = (rows.map Prod.fst, none) := by
  have hgives : (RowReader.ofBytes log).Gives rows log.length := by
    have hbehind := RowReader.gives_behind h
    rw [List.length_nil, Nat.zero_add] at hbehind
    exact hbehind
  exact ⟨hgives, hgives.rowsFrom_eq []⟩

theorem writtenFields_empty (n : Nat) :
    WrittenFields (List.replicate (n + 1) "") (List.replicate n comma) := by
  induction n with
  | zero => exact .single (.plain (by simp))
  | succ n ih => exact .cons (.plain (by simp)) ih

/-- A log that starts with a blank line, and of which the first row takes two lines. -/
theorem gives_of_writtenLog_two_lines :
    let first := "a,\"\n" :: List.replicate 14 ""
    let second := List.replicate 15 ""
    let log := Text.bytes "\r\n\"a,\"\"\n\",,,,,,,,,,,,,,\r\n\n,,,,,,,,,,,,,,"
    ∃ rows, rows = [(⟨2, first, by decide⟩, 25), (⟨5, second, by decide⟩, 40)] ∧
      WrittenLog [] rows log ∧ (RowReader.ofBytes log).Gives rows 40 ∧
      Log.rows log = (rows.map Prod.fst, none) := by
  intro first second log
  have hfirst : WrittenFields first
      (Quoted.enclose doubleQuote (Text.bytes "a,\"\n") ++ comma :: List.replicate 13 comma) :=
    .cons .quoted (writtenFields_empty 13)
  have hsecond : WrittenFields second (List.replicate 14 comma) := writtenFields_empty 14
  have hlog : WrittenLog [] [(⟨2, first, by decide⟩, 25), (⟨5, second, by decide⟩, 40)] log :=
    .blank .returnFeed
      (.row hfirst (by decide) .returnFeed (.blank .feed (.last hsecond (by decide))))
  exact ⟨_, rfl, hlog, gives_of_writtenLog hlog⟩

end

end Log

end WorkloadReplay

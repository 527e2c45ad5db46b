import WorkloadReplay.Proofs.RecordRoundTrip
import WorkloadReplay.Proofs.ScanStability

/-!
# Complete and unfinished lines

A line of a record is told by its quotes alone, before anything is read into its fields. The bytes
from a position on begin with such a line, and with one only, or with more bytes they still could,
or they never will. The scan tells the three apart at whatever byte the buffer ends: an unfinished
line is never refused, and what is refused no more bytes would mend.
-/

namespace WorkloadReplay

namespace Quoted

variable {α : Type} [DecidableEq α]

theorem scanFrom_eq_none {q : α} {content b found : List α} {half : Bool}
    (h : scanFrom q content half b = (found, none)) :
    ∃ more, found = content.reverse ++ more ∧ (if half then q :: b else b) = doubled q more := by
  induction b generalizing content half with
  | nil =>
    cases half with
    | false =>
      simp only [scanFrom, Bool.false_eq_true, if_false, Prod.mk.injEq, and_true] at h
      exact ⟨[], by simp [h], rfl⟩
    | true => simp [scanFrom] at h
  | cons c b ih =>
    cases half with
    | false =>
      by_cases hc : c = q
      · subst hc
        simp only [scanFrom, Bool.false_eq_true, if_false, if_true] at h
        simpa using ih h
      · simp only [scanFrom, Bool.false_eq_true, if_false, hc] at h
        obtain ⟨more, rfl, hb⟩ := ih h
        exact ⟨c :: more, by simp, by simpa [hc] using hb⟩
    | true =>
      by_cases hc : c = q
      · subst hc
        simp only [scanFrom, if_true] at h
        obtain ⟨more, rfl, hb⟩ := ih h
        exact ⟨c :: more, by simp, by simpa using hb⟩
      · simp [scanFrom, hc] at h

theorem scanFrom_doubled_open (q : α) (content b : List α) :
    scanFrom q content false (doubled q b) = (content.reverse ++ b, none) := by
  induction b generalizing content with
  | nil => simp [scanFrom]
  | cons c b ih =>
    by_cases hc : c = q
    · subst hc
      simp [scanFrom, ih]
    · simp [scanFrom, hc, ih]

theorem scan_eq_none_iff {q : α} {b found : List α} :
    scan q b = (found, none) ↔ b = doubled q found := by
  constructor
  · intro h
    obtain ⟨more, rfl, hb⟩ := scanFrom_eq_none h
    simpa using hb
  · rintro rfl
    simpa [scan] using scanFrom_doubled_open q [] found

end Quoted

namespace Trace

namespace Scan

variable {α β : Type}

theorem bind_eq_short {s : Scan α} {next : α → List UInt8 → Scan β} :
    s.bind next = .short ↔ s = .short ∨ ∃ a rest, s = .done a rest ∧ next a rest = .short := by
  cases s with
  | done a rest =>
    constructor
    · exact fun h => .inr ⟨a, rest, rfl, h⟩
    · rintro (h | ⟨_, _, ⟨⟩, h⟩)
      · cases h
      · exact h
  | short => simp [bind]
  | malformed problem => simp [bind]
  | bad fault => simp [bind]

theorem byte_eq_short {expected : UInt8} {problem : TraceProblem} {b : List UInt8} :
    byte expected problem b = .short ↔ b = [] := by
  cases b with
  | nil => simp [byte]
  | cons c rest =>
    by_cases h : c = expected <;> simp [byte, h]

/-- A quoted text is cut short inside of it, or behind a quote that may be the first of two. -/
theorem prefix_of_quoted_eq_short {q : UInt8} {b : List UInt8} (h : quoted q b = .short) :
    ∃ content, b <+: Quoted.doubled q content ++ [q] := by
  match hscan : Quoted.scan q b with
  | (content, none) =>
    obtain rfl := Quoted.scan_eq_none_iff.mp hscan
    exact ⟨content, [q], rfl⟩
  | (content, some []) =>
    obtain ⟨-, rfl⟩ := Quoted.scan_eq_some_iff.mp hscan
    exact ⟨content, List.prefix_rfl⟩
  | (content, some (c :: rest)) =>
    rw [quoted, hscan] at h
    cases h

theorem located_eq_some {s : Scan α} {start length stop : Nat} {a : α} :
    s.located start length = .ok (some (a, stop)) ↔
      ∃ rest, s = .done a rest ∧ stop = length - rest.length := by
  cases s with
  | done b rest => simp [located]; grind
  | short => simp [located]
  | malformed problem => simp [located]
  | bad fault => simp [located]

theorem located_eq_none {s : Scan α} {start length : Nat} :
    s.located start length = .ok none ↔ s = .short := by
  cases s <;> simp [located]

end Scan

open Scan

/-! ### The grammar of a line -/

/-- The bytes of a field of parameters: those between single quotes, where a single quote is doubled
and all else stands as it is, and outside of single quotes those that are no quote. -/
inductive ParamsField : List UInt8 → Prop where
  | nil : ParamsField []
  | plain {c : UInt8} {b : List UInt8} (hfield : c ≠ fieldQuote) (hvalue : c ≠ Params.quote)
      (h : ParamsField b) : ParamsField (c :: b)
  | value (content : List UInt8) {b : List UInt8} (h : ParamsField b) :
      ParamsField (Quoted.enclose Params.quote content ++ b)

theorem paramsField_of_quotesPair (b : List UInt8) :
    (quotesPair false b = true → ParamsField b) ∧
      (quotesPair true b = true →
        ∃ content more, b = Quoted.doubled Params.quote content ++ Params.quote :: more ∧
          ParamsField more) := by
  induction b with
  | nil => exact ⟨fun _ => .nil, by simp [quotesPair]⟩
  | cons c b ih =>
    obtain ⟨outside, inside⟩ := ih
    by_cases hc : c = Params.quote
    · subst hc
      refine ⟨fun h => ?_, fun h => ?_⟩
      · rw [quotesPair, Bool.and_eq_true] at h
        obtain ⟨content, more, rfl, hmore⟩ := inside (by simpa using h.2)
        simpa [Quoted.enclose] using ParamsField.value content hmore
      · exact ⟨[], b, rfl, outside (by simpa [quotesPair] using h)⟩
    · refine ⟨fun h => ?_, fun h => ?_⟩
      · obtain ⟨hf, h⟩ : c ≠ fieldQuote ∧ quotesPair false b = true := by
          simpa [quotesPair, hc] using h
        exact .plain hf hc (outside h)
      · obtain ⟨content, more, rfl, hmore⟩ := inside (by simpa [quotesPair, hc] using h)
        exact ⟨c :: content, more, by simp [hc], hmore⟩

theorem paramsField_iff {b : List UInt8} : ParamsField b ↔ quotesPair false b = true := by
  refine ⟨fun h => ?_, (paramsField_of_quotesPair b).1⟩
  induction h with
  | nil => rfl
  | plain hfield hvalue _ ih => simp [quotesPair, hfield, hvalue, ih]
  | value content _ ih => rw [quotesPair_enclose, ih]

/-- What a record line is made of: the digits of a time, the text of a tag and the bytes of
parameters. -/
structure LexicalLine where
  digits : List UInt8
  tag : List UInt8
  params : List UInt8
  hex : ∀ d ∈ digits, isHexDigit d = true
  one_le : 1 ≤ digits.length
  le_sixteen : digits.length ≤ 16
  paramsField : ParamsField params

namespace LexicalLine

def bytes (line : LexicalLine) : List UInt8 := recordLine line.digits line.tag line.params

theorem bytes_eq (line : LexicalLine) :
    line.bytes = line.digits ++ fieldSeparator :: fieldQuote ::
      (Quoted.doubled fieldQuote line.tag ++ fieldQuote :: fieldSeparator :: fieldQuote ::
        (line.params ++ [fieldQuote, lineEnd])) := by
  simpa [bytes] using recordLine_append line.digits line.tag line.params []

def time (line : LexicalLine) : Int64 := (UInt64.ofNat (hexNumber line.digits)).toInt64

theorem decodeTime_digits (line : LexicalLine) : decodeTime line.digits = .ok line.time := by
  have hne : line.digits ≠ [] := List.ne_nil_of_length_pos line.one_le
  have hall : line.digits.all isHexDigit = true := List.all_eq_true.mpr line.hex
  simp [decodeTime, hne, hall, line.le_sixteen, maxTimeDigits, time]

theorem scanLine_eq_done_iff {b tag params rest : List UInt8} {time : Int64} :
    scanLine b = .done (time, tag, params) rest ↔
      ∃ line : LexicalLine, (line.time, line.tag, line.params) = (time, tag, params) ∧
        b = line.bytes ++ rest := by
  rw [Trace.scanLine_eq_done_iff]
  constructor
  · rintro ⟨ds, ht, hpair, rfl⟩
    obtain ⟨hne, hlen, hhex⟩ := decodeTime_eq_ok ht
    let line : LexicalLine := ⟨ds, tag, params, hhex, List.length_pos_of_ne_nil hne, hlen,
      paramsField_iff.mpr hpair⟩
    have htime : line.time = time := Except.ok.inj (line.decodeTime_digits.symm.trans ht)
    exact ⟨line, by rw [htime], rfl⟩
  · rintro ⟨line, h, rfl⟩
    cases h
    exact ⟨line.digits, line.decodeTime_digits, paramsField_iff.mp line.paramsField, rfl⟩

theorem scanLine_bytes (line : LexicalLine) (rest : List UInt8) :
    scanLine (line.bytes ++ rest) = .done (line.time, line.tag, line.params) rest :=
  scanLine_eq_done_iff.mpr ⟨line, rfl, rfl⟩

end LexicalLine

theorem scanTime_eq_short {b : List UInt8} (h : scanTime b = .short) :
    b.length ≤ maxTimeDigits ∧ ∀ d ∈ b, isHexDigit d = true := by
  rcases takeWhile_append_cases isHexDigit b with ⟨hd, hall⟩ | ⟨ds, c, rest, rfl, hds, hc⟩
  · have ht : b.takeWhile isHexDigit = b := List.takeWhile_eq_self_iff.mpr hall
    by_cases hlen : maxTimeDigits < b.length
    · simp [scanTime, ht, hlen] at h
    · exact ⟨Nat.not_lt.mp hlen, hall⟩
  · obtain ⟨ht, hr⟩ := takeWhile_append_cons rest hds hc
    simp only [scanTime, ht, hr] at h
    split at h
    · cases h
    · split at h
      · cases h
      · split at h <;> cases h

theorem exists_quotesPair_of_short {taken b : List UInt8} {inValue : Bool}
    (h : scanParamsFrom taken inValue b = .short) :
    ∃ more, quotesPair inValue (b ++ more) = true := by
  induction b generalizing taken inValue with
  | nil =>
    cases inValue with
    | false => exact ⟨[], rfl⟩
    | true => exact ⟨[Params.quote], rfl⟩
  | cons c b ih =>
    rw [scanParamsFrom] at h
    split at h
    · cases h
    · rename_i hc
      obtain ⟨more, hmore⟩ := ih h
      refine ⟨more, ?_⟩
      simp only [List.cons_append, quotesPair, hmore, Bool.and_true]
      cases inValue <;> simp_all

def scanBehindTag (time : Int64) (tag b : List UInt8) : Scan (Int64 × List UInt8 × List UInt8) :=
  (byte fieldSeparator .tagEnd b).bind fun _ b =>
  (byte fieldQuote .paramsNotQuoted b).bind fun _ b =>
  (scanParams b).bind fun params b =>
  (byte fieldQuote .recordEnd b).bind fun _ b =>
  (byte lineEnd .recordEnd b).bind fun _ b =>
  .done (time, tag, params) b

theorem scanLine_eq_bind (b : List UInt8) :
    scanLine b = (scanTime b).bind fun time b =>
      (byte fieldQuote .tagNotQuoted b).bind fun _ b =>
        (quoted fieldQuote b).bind fun tag b => scanBehindTag time tag b := rfl

theorem exists_prefix_of_scanBehindTag_eq_short {time : Int64} {tag b : List UInt8}
    (h : scanBehindTag time tag b = .short) :
    ∃ params, ParamsField params ∧
      b <+: fieldSeparator :: fieldQuote :: (params ++ [fieldQuote, lineEnd]) := by
  rcases bind_eq_short.mp h with h | ⟨_, b₁, h₁, hb₁⟩
  · obtain rfl := byte_eq_short.mp h
    exact ⟨[], .nil, List.nil_prefix⟩
  obtain rfl := byte_eq_done.mp h₁
  rcases bind_eq_short.mp hb₁ with h | ⟨_, b₂, h₂, hb₂⟩
  · obtain rfl := byte_eq_short.mp h
    exact ⟨[], .nil, by simp⟩
  obtain rfl := byte_eq_done.mp h₂
  rcases bind_eq_short.mp hb₂ with h | ⟨params, b₃, h₃, hb₃⟩
  · obtain ⟨more, hpair⟩ := exists_quotesPair_of_short h
    exact ⟨_, paramsField_iff.mpr hpair, by simp⟩
  obtain ⟨-, rfl, hpair⟩ := scanParams_eq_done_iff.mp h₃
  refine ⟨params, paramsField_iff.mpr hpair, ?_⟩
  rcases bind_eq_short.mp hb₃ with h | ⟨_, b₄, h₄, hb₄⟩
  · obtain rfl := byte_eq_short.mp h
    simp
  obtain rfl := byte_eq_done.mp h₄
  rcases bind_eq_short.mp hb₄ with h | ⟨_, b₅, -, hb₅⟩
  · obtain rfl := byte_eq_short.mp h
    simp
  · cases hb₅

theorem exists_prefix_of_scanLine_eq_short {b : List UInt8} (h : scanLine b = .short) :
    ∃ line : LexicalLine, b <+: line.bytes := by
  rw [scanLine_eq_bind] at h
  rcases bind_eq_short.mp h with h | ⟨time, b₁, h₁, hb₁⟩
  · obtain ⟨hlen, hhex⟩ := scanTime_eq_short h
    rcases b.eq_nil_or_concat with rfl | ⟨_, _, rfl⟩
    · have hzero : ∀ d ∈ [(0x30 : UInt8)], isHexDigit d = true :=
        List.forall_mem_singleton.mpr (by decide)
      exact ⟨⟨[0x30], [], [], hzero, Nat.le_refl 1, by decide, .nil⟩, List.nil_prefix⟩
    · exact ⟨⟨_, [], [], hhex, by simp, hlen, .nil⟩, List.prefix_append _ _⟩
  obtain ⟨ds, ht, rfl⟩ := scanTime_eq_done_iff.mp h₁
  obtain ⟨hne, hlen, hhex⟩ := decodeTime_eq_ok ht
  let line (tag params : List UInt8) (hp : ParamsField params) : LexicalLine :=
    ⟨ds, tag, params, hhex, List.length_pos_of_ne_nil hne, hlen, hp⟩
  rcases bind_eq_short.mp hb₁ with h | ⟨_, b₂, h₂, hb₂⟩
  · obtain rfl := byte_eq_short.mp h
    exact ⟨line [] [] .nil, by simp [LexicalLine.bytes_eq, line]⟩
  obtain rfl := byte_eq_done.mp h₂
  rcases bind_eq_short.mp hb₂ with h | ⟨tag, b₃, h₃, hb₃⟩
  · obtain ⟨tag, hprefix⟩ := prefix_of_quoted_eq_short h
    have hline := hprefix.trans
      (List.prefix_append _ [fieldSeparator, fieldQuote, fieldQuote, lineEnd])
    exact ⟨line tag [] .nil, by simpa [LexicalLine.bytes_eq, line] using hline⟩
  · obtain ⟨-, -, rfl⟩ := quoted_eq_done_iff.mp h₃
    obtain ⟨params, hparams, hprefix⟩ := exists_prefix_of_scanBehindTag_eq_short hb₃
    exact ⟨line tag params hparams, by simpa [LexicalLine.bytes_eq, line] using hprefix⟩

/-- Bytes that begin a line and do not end it. -/
def Unfinished (b : List UInt8) : Prop :=
  b ≠ [] ∧ ∃ line : LexicalLine, b <+: line.bytes ∧ b ≠ line.bytes

theorem scanLine_eq_short_iff {b : List UInt8} :
    scanLine b = .short ↔ ∃ line : LexicalLine, b <+: line.bytes ∧ b ≠ line.bytes := by
  constructor
  · intro h
    obtain ⟨line, hline⟩ := exists_prefix_of_scanLine_eq_short h
    refine ⟨line, hline, ?_⟩
    rintro rfl
    have := line.scanLine_bytes []
    rw [List.append_nil, h] at this
    cases this
  · rintro ⟨line, ⟨more, hmore⟩, hne⟩
    have hdone := line.scanLine_bytes []
    rw [List.append_nil, ← hmore] at hdone
    refine stable_scanLine.eq_short_of_done hdone ?_
    rintro rfl
    exact hne (by simpa using hmore)

/-! ### What a line says -/

/-- The text of a tag means a tag: a keyword, at most ten digits that are a 32-bit word, or any
other text. -/
inductive Tag.Means : List UInt8 → Tag → Prop where
  | begin : Means beginKeyword .begin
  | commit : Means commitKeyword .commit
  | rollback : Means rollbackKeyword .rollback
  | id {ds : List UInt8} {n : UInt32} (hdigits : Numeral.isNumeral ds = true)
      (hlength : ds.length ≤ 10) (hvalue : Numeral.value ds = n.toNat) : Means ds (.id n)
  | inline {sql : String} (h : ¬ (Tag.inline sql).Collides) : Means (Text.bytes sql) (.inline sql)

theorem statementId?_eq_some_iff {ds : List UInt8} {n : UInt32} :
    statementId? ds = some n ↔ ds.length ≤ 10 ∧ Numeral.value ds = n.toNat := by
  unfold statementId?
  split
  · rename_i h
    simp only [Option.some.injEq, ← UInt32.toNat_inj, UInt32.toNat_ofNat_of_lt' h.2]
    exact ⟨fun hn => ⟨h.1, hn⟩, fun hn => hn.2⟩
  · rename_i h
    simp only [reduceCtorEq, false_iff]
    rintro ⟨hlen, hn⟩
    exact h ⟨hlen, hn ▸ n.toNat_lt_size⟩

theorem Tag.ofField_eq_ok_iff {b : List UInt8} {tag : Tag} :
    Tag.ofField b = .ok tag ↔ Tag.Means b tag := by
  constructor
  · intro h
    have hb := h
    unfold Tag.ofField at h
    split_ifs at h with hbegin hcommit hrollback hn
    · cases h
      exact hbegin ▸ .begin
    · cases h
      exact hcommit ▸ .commit
    · cases h
      exact hrollback ▸ .rollback
    · split at h
      · rename_i n hid
        cases h
        obtain ⟨hlen, hvalue⟩ := statementId?_eq_some_iff.mp hid
        exact .id hn hlen hvalue
      · cases h
    · split at h
      · rename_i sql hsql
        cases h
        obtain rfl := Text.ofBytes?_eq_some_iff.mp hsql
        have hread := (Tag.inline sql).ofField_field.symm.trans hb
        exact .inline ((Tag.inline sql).readBack_eq_self_iff.mp hread)
      · cases h
  · intro h
    cases h with
    | begin => rfl
    | commit => rfl
    | rollback => rfl
    | id hdigits hlength hvalue =>
      rw [Tag.ofField_numeral hdigits, statementId?_eq_some_iff.mpr ⟨hlength, hvalue⟩]
    | inline h =>
      exact (Tag.ofField_field _).trans ((Tag.readBack_eq_self_iff _).mpr h)

theorem lt_of_extract_eq {buffer item : List UInt8} {start stop : Nat} (hitem : 0 < item.length)
    (h : buffer.extract start stop = item) : start < stop := by
  rw [← h] at hitem
  simp only [List.extract_eq_take_drop, List.length_take, List.length_drop] at hitem
  omega

theorem extract_eq_iff {buffer item : List UInt8} {start stop : Nat} (hitem : 0 < item.length) :
    stop ≤ buffer.length ∧ buffer.extract start stop = item ↔
      ∃ rest, buffer.drop start = item ++ rest ∧ stop = buffer.length - rest.length := by
  constructor
  · rintro ⟨hle, h⟩
    have hlt := lt_of_extract_eq hitem h
    refine ⟨(buffer.drop start).drop (stop - start), ?_, ?_⟩
    · rw [← h, List.extract_eq_take_drop, List.take_append_drop]
    · rw [List.length_drop, List.length_drop]
      omega
  · rintro ⟨rest, hrest, rfl⟩
    have hlen := congrArg List.length hrest
    simp only [List.length_drop, List.length_append] at hlen
    have hsize : buffer.length - rest.length - start = item.length := by omega
    exact ⟨Nat.sub_le _ _, by rw [List.extract_eq_take_drop, hrest, hsize, List.take_left]⟩

namespace LexicalLine

structure Means (line : LexicalLine) (r : Record) : Prop where
  time : r.time = line.time
  tag : Tag.Means line.tag r.tag
  params : Params.decode line.params = .ok r.params

/-- The line takes the bytes of a buffer from one position to another. -/
structure At (line : LexicalLine) (buffer : List UInt8) (start stop : Nat) : Prop where
  le_length : stop ≤ buffer.length
  extract_eq : buffer.extract start stop = line.bytes

theorem length_bytes_pos (line : LexicalLine) : 0 < line.bytes.length := by
  simp [bytes_eq]

theorem at_iff {line : LexicalLine} {buffer : List UInt8} {start stop : Nat} :
    line.At buffer start stop ↔
      ∃ rest, buffer.drop start = line.bytes ++ rest ∧ stop = buffer.length - rest.length := by
  rw [← extract_eq_iff line.length_bytes_pos]
  exact ⟨fun h => ⟨h.le_length, h.extract_eq⟩, fun h => ⟨h.1, h.2⟩⟩

theorem At.lt {line : LexicalLine} {buffer : List UInt8} {start stop : Nat}
    (h : line.At buffer start stop) : start < stop :=
  lt_of_extract_eq line.length_bytes_pos h.extract_eq

/-- No other line begins where a line does. -/
theorem At.unique {line line' : LexicalLine} {buffer : List UInt8} {start stop stop' : Nat}
    (h : line.At buffer start stop) (h' : line'.At buffer start stop') : stop = stop' := by
  obtain ⟨rest, hrest, rfl⟩ := at_iff.mp h
  obtain ⟨rest', hrest', rfl⟩ := at_iff.mp h'
  have hscan := (line.scanLine_bytes rest).symm.trans
    ((congrArg scanLine (hrest.symm.trans hrest')).trans (line'.scanLine_bytes rest'))
  rw [(Scan.done.injEq ..).mp hscan |>.2]

end LexicalLine

namespace Record

theorem scan_eq_done_iff_line {b rest : List UInt8} {r : Record} :
    Record.scan b = .done r rest ↔ ∃ line : LexicalLine, b = line.bytes ++ rest ∧ line.Means r := by
  constructor
  · intro h
    unfold Record.scan at h
    split at h
    · cases h
    · obtain ⟨⟨time, tag, params⟩, more, hline, hfields⟩ := bind_eq_done.mp h
      obtain ⟨line, hfield, rfl⟩ := LexicalLine.scanLine_eq_done_iff.mp hline
      cases hfield
      obtain ⟨htime, htag, hparams, rfl⟩ := Record.ofFields_eq_done_iff.mp hfields
      exact ⟨line, rfl, htime, Tag.ofField_eq_ok_iff.mp htag, hparams⟩
  · rintro ⟨line, rfl, h⟩
    have htime : decodeTime line.digits = .ok r.time := h.time ▸ line.decodeTime_digits
    exact Record.scan_eq_done_iff.mpr ⟨line.digits, line.tag, line.params, htime,
      Tag.ofField_eq_ok_iff.mpr h.tag, paramsField_iff.mp line.paramsField, h.params, rfl⟩

theorem ofFields_ne_short (time : Int64) (tag params rest : List UInt8) :
    Record.ofFields time tag params rest ≠ .short := by
  unfold Record.ofFields
  split
  · simp
  · split <;> simp

/-- There is no answer at the end, at the delimiter, and where a line is unfinished. -/
theorem scan_eq_short_iff {b : List UInt8} :
    Record.scan b = .short ↔ b = [] ∨ b.head? = some sectionDelimiter ∨ Unfinished b := by
  by_cases hd : b.head? = some sectionDelimiter
  · simp [Record.scan, hd]
  by_cases hb : b = []
  · subst hb
    exact ⟨fun _ => .inl rfl, fun _ => rfl⟩
  have hscan : Record.scan b = .short ↔ scanLine b = .short := by
    rw [Record.scan, if_neg hd, bind_eq_short, or_iff_left_iff_imp]
    rintro ⟨⟨time, tag, params⟩, rest, -, h⟩
    exact absurd h (ofFields_ne_short time tag params rest)
  rw [hscan, scanLine_eq_short_iff]
  simp [hd, hb, Unfinished]

def line (r : Record) : LexicalLine where
  digits := encodeTime r.time
  tag := r.tag.field
  params := Params.encode r.params
  hex := (decodeTime_eq_ok (decodeTime_encodeTime r.time)).2.2
  one_le := List.length_pos_of_ne_nil (decodeTime_eq_ok (decodeTime_encodeTime r.time)).1
  le_sixteen := (decodeTime_eq_ok (decodeTime_encodeTime r.time)).2.1
  paramsField := paramsField_iff.mpr (quotesPair_encode r.params)

/-- What may stand at a position of a buffer, and the answer for it. -/
structure ReadByGrammar (buffer : List UInt8) (start : Nat)
    (answer : Except Fault (Option (Record × Nat))) : Prop where
  /-- A record is found where its line stands. -/
  found (r : Record) (stop : Nat) : answer = .ok (some (r, stop)) ↔
    ∃ line : LexicalLine, line.At buffer start stop ∧ line.Means r
  /-- The position behind it is the end of the only line that stands there. -/
  only (r : Record) (stop : Nat) : answer = .ok (some (r, stop)) →
    start < stop ∧ stop ≤ buffer.length ∧
      ∀ (line : LexicalLine) (stop' : Nat), line.At buffer start stop' → stop' = stop
  /-- Nothing is found at the end, at the delimiter, and where a line is unfinished. -/
  nothing : answer = .ok none ↔
    buffer.length ≤ start ∨ buffer[start]? = some sectionDelimiter ∨
      Unfinished (buffer.drop start)
  /-- All else is refused. -/
  refused : (∃ fault, answer = .error fault) ↔
    ¬ (∃ (line : LexicalLine) (r : Record) (stop : Nat),
        line.At buffer start stop ∧ line.Means r) ∧
      ¬ (buffer.length ≤ start ∨ buffer[start]? = some sectionDelimiter ∨
        Unfinished (buffer.drop start))

theorem decode_eq_some_iff {buffer : List UInt8} {start stop : Nat} {r : Record} :
    Record.decode buffer start = .ok (some (r, stop)) ↔
      ∃ line : LexicalLine, line.At buffer start stop ∧ line.Means r := by
  simp only [Record.decode, located_eq_some, scan_eq_done_iff_line, LexicalLine.at_iff]
  constructor
  · rintro ⟨rest, ⟨line, hb, hmeans⟩, rfl⟩
    exact ⟨line, ⟨rest, hb, rfl⟩, hmeans⟩
  · rintro ⟨line, ⟨rest, hb, rfl⟩, hmeans⟩
    exact ⟨rest, ⟨line, hb, hmeans⟩, rfl⟩

theorem decode_eq_none_iff {buffer : List UInt8} {start : Nat} :
    Record.decode buffer start = .ok none ↔
      buffer.length ≤ start ∨ buffer[start]? = some sectionDelimiter ∨
        Unfinished (buffer.drop start) := by
  rw [Record.decode, located_eq_none, scan_eq_short_iff, List.drop_eq_nil_iff, List.head?_drop]

/-- The bytes at a position are read by the grammar of lines alone; those that a written record
begins with are not refused before the record is complete. -/
theorem decode_readByGrammar (buffer : List UInt8) (start : Nat) :
    ReadByGrammar buffer start (Record.decode buffer start) ∧
      ∀ r : Record, buffer.drop start <+: r.encode → buffer.drop start ≠ r.encode →
        Record.decode buffer start = .ok none := by
  refine ⟨⟨fun r stop => decode_eq_some_iff, fun r stop h => ?_, decode_eq_none_iff, ?_⟩,
    fun r hprefix hne => ?_⟩
  · obtain ⟨line, hline, -⟩ := decode_eq_some_iff.mp h
    exact ⟨hline.lt, hline.le_length, fun line' stop' hline' => hline'.unique hline⟩
  · simp only [← decode_eq_none_iff]
    constructor
    · rintro ⟨fault, h⟩
      refine ⟨?_, by simp [h]⟩
      rintro ⟨line, r, stop, hline⟩
      have hfound := decode_eq_some_iff.mpr ⟨line, hline⟩
      rw [h] at hfound
      cases hfound
    · rintro ⟨hfound, hnone⟩
      match h : Record.decode buffer start with
      | .error fault => exact ⟨fault, rfl⟩
      | .ok none => exact absurd h hnone
      | .ok (some (r, stop)) =>
        obtain ⟨line, hline⟩ := decode_eq_some_iff.mp h
        exact absurd ⟨line, r, stop, hline⟩ hfound
  · rcases (buffer.drop start).eq_nil_or_concat with hnil | ⟨_, _, hcons⟩
    · exact decode_eq_none_iff.mpr (.inl (List.drop_eq_nil_iff.mp hnil))
    · exact decode_eq_none_iff.mpr (.inr (.inr ⟨by simp [hcons], r.line, hprefix, hne⟩))

end Record

end Trace

end WorkloadReplay

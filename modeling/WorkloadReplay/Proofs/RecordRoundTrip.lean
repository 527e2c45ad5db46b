import WorkloadReplay.Proofs.LineGrammar
import WorkloadReplay.Proofs.TraceTimes
import WorkloadReplay.Proofs.ValueRoundTrip

/-!
# Records read back

A record that is written between any bytes is read back with its time and its parameters. Its tag is
read back too, unless it is a statement written inline whose text is a keyword or digits alone: the
text of a tag does not tell these from boundaries and ids.
-/

namespace WorkloadReplay.Trace

theorem quotesPair_enclose (body more : List UInt8) :
    quotesPair false (Quoted.enclose Params.quote body ++ more) = quotesPair false more := by
  have hinside : quotesPair true (Quoted.doubled Params.quote body ++ Params.quote :: more) =
      quotesPair false more := by
    induction body with
    | nil => simp [quotesPair]
    | cons c body ih =>
      by_cases hc : c = Params.quote
      · subst hc
        have hq : Params.quote ≠ fieldQuote := by decide
        simpa [quotesPair, hq] using ih
      · simpa [quotesPair, hc] using ih
  have hq : Params.quote ≠ fieldQuote := by decide
  simpa [Quoted.enclose, quotesPair, hq] using hinside

/-- The double quotes in a list of values stand inside of single quotes. -/
theorem quotesPair_encode (vs : List Value) : quotesPair false (Params.encode vs) = true := by
  induction vs with
  | nil => rfl
  | cons v vs ih =>
    have htag : v.tag ≠ fieldQuote ∧ v.tag ≠ Params.quote := by
      have hv := v.tag_mem_tags
      constructor <;> rintro h <;> rw [h] at hv <;> revert hv <;> decide
    have hcons : Params.encode (v :: vs) =
        v.tag :: (Quoted.enclose Params.quote v.body ++ Params.encode vs) := by
      simp [Params.encode, Params.encodeValue]
    rw [hcons, quotesPair, if_neg htag.2, quotesPair_enclose, ih]
    simpa using htag.1

namespace Tag

/-- What a written tag is read back as. -/
def readBack : Tag → Except TraceProblem Tag
  | inline sql =>
    if sql = "BEGIN" then .ok begin
    else if sql = "COMMIT" then .ok commit
    else if sql = "ROLLBACK" then .ok rollback
    else if Numeral.isNumeral (Text.bytes sql) then
      if (Text.bytes sql).length ≤ 10 ∧ Numeral.value (Text.bytes sql) < UInt32.size then
        .ok (id (UInt32.ofNat (Numeral.value (Text.bytes sql))))
      else .error .idOutOfRange
    else .ok (inline sql)
  | tag => .ok tag

/-- A statement written inline whose text is that of a boundary or of an id. -/
def Collides : Tag → Prop
  | inline sql => sql = "BEGIN" ∨ sql = "COMMIT" ∨ sql = "ROLLBACK" ∨
      Numeral.isNumeral (Text.bytes sql) = true
  | _ => False

private theorem bytes_eq_iff {sql keyword : String} {b : List UInt8} (h : Text.bytes keyword = b) :
    Text.bytes sql = b ↔ sql = keyword := by
  constructor
  · intro hsql
    exact Text.bytes_injective (hsql.trans h.symm)
  · rintro rfl
    exact h

private theorem bytes_begin : Text.bytes "BEGIN" = beginKeyword := by decide

private theorem bytes_commit : Text.bytes "COMMIT" = commitKeyword := by decide

private theorem bytes_rollback : Text.bytes "ROLLBACK" = rollbackKeyword := by decide

theorem statementId?_ofNat (n : UInt32) : statementId? (Numeral.ofNat n.toNat) = some n := by
  have hlen : (Numeral.ofNat n.toNat).length ≤ maxIdDigits :=
    Numeral.positional.length_write_le (Nat.lt_trans n.toNat_lt (by decide))
  simp [statementId?, hlen, n.toNat_lt_size]

theorem ofField_numeral {ds : List UInt8} (h : Numeral.isNumeral ds = true) :
    ofField ds = match statementId? ds with
      | some n => .ok (id n)
      | none => .error .idOutOfRange := by
  have hkeyword : ∀ keyword, Numeral.isNumeral keyword = false → ds ≠ keyword := by
    rintro keyword hk rfl
    simp [h] at hk
  have hbegin := hkeyword beginKeyword (by decide)
  have hcommit := hkeyword commitKeyword (by decide)
  have hrollback := hkeyword rollbackKeyword (by decide)
  exact (if_neg hbegin).trans ((if_neg hcommit).trans ((if_neg hrollback).trans (if_pos h)))

theorem ofField_field (tag : Tag) : ofField tag.field = tag.readBack := by
  cases tag with
  | begin => rfl
  | commit => rfl
  | rollback => rfl
  | id n => simp [field, readBack, ofField_numeral, statementId?_ofNat]
  | inline sql =>
    by_cases hn : Numeral.isNumeral (Text.bytes sql) = true
    · have hkeyword : ∀ keyword,
          Numeral.isNumeral (Text.bytes keyword) = false → sql ≠ keyword := by
        rintro keyword hk rfl
        simp [hn] at hk
      have hb := hkeyword "BEGIN" (by rw [bytes_begin]; decide)
      have hc := hkeyword "COMMIT" (by rw [bytes_commit]; decide)
      have hr := hkeyword "ROLLBACK" (by rw [bytes_rollback]; decide)
      simp only [field, ofField_numeral hn, readBack, hb, hc, hr, hn, if_false, if_true]
      by_cases hid : (Text.bytes sql).length ≤ 10 ∧
          Numeral.value (Text.bytes sql) < UInt32.size
      · have h : statementId? (Text.bytes sql) =
            some (UInt32.ofNat (Numeral.value (Text.bytes sql))) := if_pos hid
        rw [h, if_pos hid]
      · have h : statementId? (Text.bytes sql) = none := if_neg hid
        rw [h, if_neg hid]
    · simp [field, ofField, readBack, hn, bytes_eq_iff bytes_begin, bytes_eq_iff bytes_commit,
        bytes_eq_iff bytes_rollback, Text.ofBytes?_bytes]

/-- The tags that survive being written are those that do not collide. -/
theorem readBack_eq_self_iff (tag : Tag) : tag.readBack = .ok tag ↔ ¬ tag.Collides := by
  cases tag with
  | inline sql =>
    simp only [readBack, Collides]
    split_ifs <;> simp_all
  | begin => simp [readBack, Collides]
  | commit => simp [readBack, Collides]
  | rollback => simp [readBack, Collides]
  | id n => simp [readBack, Collides]

end Tag

namespace Record

theorem encode_eq_recordLine (r : Record) :
    r.encode = recordLine (encodeTime r.time) r.tag.field (Params.encode r.params) := rfl

theorem scan_encode (r : Record) (suf : List UInt8) :
    Record.scan (r.encode ++ suf) =
      match r.tag.readBack with
      | .ok tag => .done ⟨r.time, tag, r.params.map Value.canonical⟩ suf
      | .error problem => .malformed problem := by
  have htime := decodeTime_encodeTime r.time
  have hline : scanLine (r.encode ++ suf) =
      .done (r.time, r.tag.field, Params.encode r.params) suf :=
    scanLine_eq_done_iff.mpr ⟨_, htime, quotesPair_encode r.params, by rw [encode_eq_recordLine]⟩
  rw [Record.scan, encode_eq_recordLine, if_neg (head?_recordLine_ne htime _ _ _),
    ← encode_eq_recordLine, hline]
  simp only [Scan.bind, Record.ofFields, Tag.ofField_field, Params.decode_encode]
  cases r.tag.readBack <;> rfl

/-- A record written between any bytes is read back, its tag unless it collides. -/
theorem decode_encode_between (r : Record) (pre suf : List UInt8) :
    Record.decode (pre ++ r.encode ++ suf) pre.length =
      (match r.tag.readBack with
      | .ok tag => .ok (some (⟨r.time, tag, r.params.map Value.canonical⟩,
          pre.length + r.encode.length))
      | .error problem => .error (.malformedRecord pre.length problem)) ∧
    (r.tag.readBack = .ok r.tag ↔ ¬ r.tag.Collides) := by
  refine ⟨?_, r.tag.readBack_eq_self_iff⟩
  rw [Record.decode, List.append_assoc, List.drop_left, scan_encode]
  cases r.tag.readBack with
  | error problem => rfl
  | ok tag =>
    simp only [Scan.located, List.length_append, Except.ok.injEq, Option.some.injEq,
      Prod.mk.injEq, true_and]
    omega

end Record

theorem Entry.scan_encode (e : Entry) (suf : List UInt8) :
    Entry.scan (e.encode ++ suf) = .done e suf :=
  Entry.scan_eq_done_iff.mpr
    ⟨Numeral.ofNat e.id.toNat, Numeral.isNumeral_ofNat _, Tag.statementId?_ofNat e.id, rfl⟩

end WorkloadReplay.Trace

import WorkloadReplay.Proofs.SignedNumerals
import WorkloadReplay.Proofs.WrittenTimestamps

/-!
# The order of timestamps

Digits of one width are in the order of their numbers, dates in the order of their days, and the
parts of a timestamp stand from the longest to the shortest. So the timestamps of one zone are in
the order of their times exactly as their texts in front of the zone are in the order of bytes,
whatever a clock has read before them.
-/

namespace WorkloadReplay

/-! ## Dates -/

namespace Calendar

/-- Dates in their order: by year, then by month, then by day. -/
def Date.Before (d e : Date) : Prop :=
  d.year < e.year ∨ d.year = e.year ∧ (d.month < e.month ∨ d.month = e.month ∧ d.day < e.day)

theorem daysBeforeYear_mono {year later : Int} (h : year ≤ later) :
    daysBeforeYear year ≤ daysBeforeYear later := by
  unfold daysBeforeYear
  omega

theorem daysBeforeMonth_mono (year : Int) {month later : Nat} (hmonth : 1 ≤ month)
    (h : month ≤ later) : daysBeforeMonth year month ≤ daysBeforeMonth year later := by
  induction later, h using Nat.le_induction with
  | base => exact Nat.le_refl _
  | succ later hle ih =>
    rw [daysBeforeMonth_succ year (Nat.le_trans hmonth hle)]
    omega

theorem Date.dayOfYear_le {d : Date} (h : d.isValid = true) :
    daysBeforeMonth d.year d.month + d.day ≤ daysBeforeMonth d.year (d.month + 1) := by
  obtain ⟨-, hlast⟩ := Date.isValid_iff.mp h
  rw [daysBeforeMonth_succ d.year (Date.month_of_isValid h).1]
  omega

theorem Date.days_lt_newYear {d : Date} (h : d.isValid = true) :
    d.days < daysBeforeYear (d.year + 1) - daysBeforeYear 1970 := by
  have hday := Date.dayOfYear_le h
  have hmonth := daysBeforeMonth_mono d.year (Nat.le_add_left 1 d.month)
    (Nat.succ_le_succ (Date.month_of_isValid h).2)
  have hdecember := daysBeforeMonth_december d.year
  have hyear := daysBeforeYear_succ d.year
  rw [daysBeforeMonth_succ d.year (show 1 ≤ 12 by omega)] at hmonth
  have hlast : daysInMonth d.year 12 = 31 := rfl
  unfold Date.days
  cases hleap : isLeap d.year with
  | true =>
    rw [hleap, if_pos rfl] at hdecember hyear
    omega
  | false =>
    rw [hleap, if_neg Bool.false_ne_true] at hdecember hyear
    omega

theorem Date.days_lt_of_before {d e : Date} (hd : d.isValid = true) (he : e.isValid = true)
    (h : d.Before e) : d.days < e.days := by
  obtain ⟨hfirst, -⟩ := Date.isValid_iff.mp he
  rcases h with hyear | ⟨hyear, hmonth | ⟨hmonth, hday⟩⟩
  · have hnext := Date.days_lt_newYear hd
    have hmono := daysBeforeYear_mono (Int.add_one_le_of_lt hyear)
    have hdays : daysBeforeYear e.year - daysBeforeYear 1970 ≤ e.days := by
      unfold Date.days
      omega
    omega
  · have hend := Date.dayOfYear_le hd
    have hmono := daysBeforeMonth_mono d.year (Nat.le_add_left 1 d.month) hmonth
    unfold Date.days
    rw [← hyear]
    omega
  · unfold Date.days
    rw [← hyear, ← hmonth]
    omega

end Calendar

/-! ## Bytes -/

/-- Of bytes of one length, those behind them count only if they are the same. -/
theorem append_lt_append_iff {a b r s : List UInt8} (h : a.length = b.length) :
    a ++ r < b ++ s ↔ a < b ∨ a = b ∧ r < s := by
  induction a generalizing b with
  | nil =>
    obtain rfl := List.length_eq_zero_iff.mp h.symm
    simp
  | cons x a ih =>
    obtain ⟨y, b, rfl⟩ := List.exists_cons_of_length_eq_add_one h.symm
    rw [List.cons_append, List.cons_append, List.cons_lt_cons_iff, List.cons_lt_cons_iff,
      ih (Nat.succ.inj h), List.cons_eq_cons]
    grind

namespace Log
open Numeral

theorem digitValue_lt_digitValue {d e : UInt8} (hd : isDigit d = true) (h : d < e) :
    digitValue d < digitValue e := by
  simp only [isDigit, Bool.and_eq_true, decide_eq_true_eq, UInt8.le_iff_toNat_le] at hd
  have hlow : 48 ≤ d.toNat := hd.1
  have hlt : d.toNat < e.toNat := UInt8.lt_iff_toNat_lt.mp h
  unfold digitValue
  omega

namespace IsDigits

variable {width : Nat} {ds es : List UInt8}

theorem exists_last (h : IsDigits (width + 1) ds) :
    ∃ front d, ds = front ++ [d] ∧ IsDigits width front ∧ isDigit d = true := by
  rcases List.eq_nil_or_concat' ds with rfl | ⟨front, d, rfl⟩
  · cases h.length
  · obtain ⟨hfront, hlast⟩ := List.forall_mem_append.mp h.digits
    have hlength := h.length
    rw [List.length_append, List.length_singleton] at hlength
    exact ⟨front, d, rfl, ⟨Nat.succ.inj hlength, hfront⟩, hlast d (List.mem_singleton_self d)⟩

/-- Digits of one width are in the order of their numbers. -/
theorem value_lt (hds : IsDigits width ds) (hes : IsDigits width es) (h : ds < es) :
    value ds < value es := by
  induction width generalizing ds es with
  | zero =>
    obtain rfl := List.length_eq_zero_iff.mp hes.length
    exact absurd h (List.not_lt_nil ds)
  | succ width ih =>
    obtain ⟨ds, d, rfl, hds, hd⟩ := hds.exists_last
    obtain ⟨es, e, rfl, hes, he⟩ := hes.exists_last
    have hlast := digitValue_lt hd
    rw [value_append_digit, value_append_digit]
    rcases (append_lt_append_iff (hds.length.trans hes.length.symm)).mp h with hlt | ⟨rfl, hlt⟩
    · have hfront := ih hds hes hlt
      omega
    · have hdigit : d < e := by simpa [List.cons_lt_cons_iff] using hlt
      have hvalue := digitValue_lt_digitValue hd hdigit
      omega

theorem value_lt_pow (h : IsDigits width ds) : value ds < 10 ^ width := by
  rw [← h.length]
  exact positional.read_lt_pow (exists_digit_of_isDigit h.digits)

end IsDigits

/-! ## Timestamps -/

namespace TimestampText

def date (t : TimestampText) : Calendar.Date := ⟨value t.year, value t.month, value t.day⟩

def milliseconds (t : TimestampText) : Nat :=
  (value t.hour * 3600 + value t.minute * 60 + value t.second) * 1000 + value t.millisecond

structure InRange (t : TimestampText) : Prop where
  hour : value t.hour ≤ 23
  minute : value t.minute ≤ 59
  second : value t.second ≤ 59

variable {t u : TimestampText}

theorem nanos_eq (t : TimestampText) (days offset : Int) :
    t.nanos days offset = (days * 86400000 - offset * 1000 + t.milliseconds) * 10 ^ 6 := by
  simp only [nanos, milliseconds]
  omega

theorem InRange.milliseconds_lt (h : t.InRange) : t.milliseconds < 86400000 := by
  obtain ⟨hhour, hminute, hsecond⟩ := h
  have hmillisecond : value t.millisecond < 1000 := t.isMillisecond.value_lt_pow
  unfold milliseconds
  omega

/-- The parts of timestamps are compared from the longest to the shortest. -/
theorem front_lt_iff : t.front < u.front ↔
    t.year < u.year ∨ t.year = u.year ∧ (t.month < u.month ∨ t.month = u.month ∧
      (t.day < u.day ∨ t.day = u.day ∧ (t.hour < u.hour ∨ t.hour = u.hour ∧
        (t.minute < u.minute ∨ t.minute = u.minute ∧ (t.second < u.second ∨
          t.second = u.second ∧ t.millisecond < u.millisecond))))) := by
  have hwidth {width : Nat} {ds es : List UInt8} (hds : IsDigits width ds)
      (hes : IsDigits width es) : ds.length = es.length := hds.length.trans hes.length.symm
  simp only [front, List.cons_lt_cons_self, append_lt_append_iff (hwidth t.isYear u.isYear),
    append_lt_append_iff (hwidth t.isMonth u.isMonth),
    append_lt_append_iff (hwidth t.isDay u.isDay), append_lt_append_iff (hwidth t.isHour u.isHour),
    append_lt_append_iff (hwidth t.isMinute u.isMinute),
    append_lt_append_iff (hwidth t.isSecond u.isSecond)]

/-- A timestamp in front of another one has an earlier date, or the same one and an earlier time of
day. -/
theorem InRange.before_or_lt (h : t.InRange) (hlt : t.front < u.front) :
    t.date.Before u.date ∨ t.date = u.date ∧ t.milliseconds < u.milliseconds := by
  obtain ⟨hhour, hminute, hsecond⟩ := h
  have hmillisecond : value t.millisecond < 1000 := t.isMillisecond.value_lt_pow
  unfold Calendar.Date.Before date milliseconds
  rcases front_lt_iff.mp hlt with hyear | ⟨hyear, hmonth | ⟨hmonth, hday | ⟨hday, hclock⟩⟩⟩
  · exact .inl (.inl (Int.ofNat_lt.mpr (t.isYear.value_lt u.isYear hyear)))
  · exact .inl (.inr ⟨by rw [hyear], .inl (t.isMonth.value_lt u.isMonth hmonth)⟩)
  · exact .inl (.inr ⟨by rw [hyear], .inr ⟨by rw [hmonth], t.isDay.value_lt u.isDay hday⟩⟩)
  · refine .inr ⟨by rw [hyear, hmonth, hday], ?_⟩
    rcases hclock with hlt | ⟨heq, hlt | ⟨heq', hlt | ⟨heq'', hlt⟩⟩⟩
    · have := t.isHour.value_lt u.isHour hlt
      omega
    · have := t.isMinute.value_lt u.isMinute hlt
      rw [heq]
      omega
    · have := t.isSecond.value_lt u.isSecond hlt
      rw [heq, heq']
      omega
    · have := t.isMillisecond.value_lt u.isMillisecond hlt
      rw [heq, heq', heq'']
      omega

theorem eq_of_front_eq (h : t.front = u.front) :
    t.date = u.date ∧ t.milliseconds = u.milliseconds := by
  have hwidth {width : Nat} {ds es : List UInt8} (hds : IsDigits width ds)
      (hes : IsDigits width es) : ds.length = es.length := hds.length.trans hes.length.symm
  obtain ⟨hyear, h⟩ := List.append_inj h (hwidth t.isYear u.isYear)
  obtain ⟨hmonth, h⟩ := List.append_inj (List.tail_eq_of_cons_eq h) (hwidth t.isMonth u.isMonth)
  obtain ⟨hday, h⟩ := List.append_inj (List.tail_eq_of_cons_eq h) (hwidth t.isDay u.isDay)
  obtain ⟨hhour, h⟩ := List.append_inj (List.tail_eq_of_cons_eq h) (hwidth t.isHour u.isHour)
  obtain ⟨hminute, h⟩ := List.append_inj (List.tail_eq_of_cons_eq h) (hwidth t.isMinute u.isMinute)
  obtain ⟨hsecond, h⟩ := List.append_inj (List.tail_eq_of_cons_eq h) (hwidth t.isSecond u.isSecond)
  have hmillisecond := List.tail_eq_of_cons_eq h
  unfold date milliseconds
  rw [hyear, hmonth, hday, hhour, hminute, hsecond, hmillisecond]
  exact ⟨rfl, rfl⟩

theorem Means.exists_days {x : Int} (h : t.Means x) :
    t.date.isValid = true ∧ t.InRange ∧
      ∃ offset, zoneOffset? (Text.trimPadding t.behind) = some offset ∧
      x = (t.date.days * 86400000 - offset * 1000 + t.milliseconds) * 10 ^ 6 := by
  obtain ⟨-, days, offset, hdate, hzone, hhour, hminute, hsecond, rfl⟩ :=
    t.exactNanos?_bytes.mp (t.exactNanos?_bytes_eq_some_iff.mpr h)
  obtain ⟨hvalid, rfl⟩ := Calendar.dayNumber_iff.mp hdate
  exact ⟨hvalid, ⟨hhour, hminute, hsecond⟩, offset, zoneOffset?_eq_some_iff.mpr hzone,
    t.nanos_eq _ _⟩

theorem Means.lt_of_front_lt {x y : Int} (hx : t.Means x) (hy : u.Means y)
    (hzone : Text.trimPadding t.behind = Text.trimPadding u.behind) (h : t.front < u.front) :
    x < y := by
  obtain ⟨hvalid, hrange, offset, hoffset, rfl⟩ := hx.exists_days
  obtain ⟨hvalid', -, offset', hoffset', rfl⟩ := hy.exists_days
  obtain rfl : offset = offset' := Option.some.inj (hoffset.symm.trans (hzone ▸ hoffset'))
  rcases hrange.before_or_lt h with hbefore | ⟨hdate, hclock⟩
  · have hdays := Calendar.Date.days_lt_of_before hvalid hvalid' hbefore
    have hmidnight := hrange.milliseconds_lt
    omega
  · rw [hdate]
    omega

theorem Means.eq_of_front_eq {x y : Int} (hx : t.Means x) (hy : u.Means y)
    (hzone : Text.trimPadding t.behind = Text.trimPadding u.behind) (h : t.front = u.front) :
    x = y := by
  obtain ⟨-, -, offset, hoffset, rfl⟩ := hx.exists_days
  obtain ⟨-, -, offset', hoffset', rfl⟩ := hy.exists_days
  obtain rfl : offset = offset' := Option.some.inj (hoffset.symm.trans (hzone ▸ hoffset'))
  obtain ⟨hdate, hclock⟩ := TimestampText.eq_of_front_eq h
  rw [hdate, hclock]

end TimestampText

def frontText (raw : String) : List UInt8 := (Text.bytes raw).take 23

def zoneText (raw : String) : List UInt8 := Text.trimPadding ((Text.bytes raw).drop 24)

/-- A text is a timestamp, and a signed 64-bit word can hold its time. -/
def IsTimestamp (raw : String) : Prop :=
  ∃ nanos, TimestampMeans (Text.bytes raw) nanos ∧ -2 ^ 63 ≤ nanos ∧ nanos < 2 ^ 63

/-- Two times are in the order of two texts. -/
structure InOrderOf (front front' : List UInt8) (t t' : Int64) : Prop where
  earlier : t < t' ↔ front < front'
  same : t = t' ↔ front = front'
  later : t' < t ↔ front' < front

namespace InOrderOf

variable {front front' : List UInt8} {t t' : Int64}

theorem of_lt (hfront : front < front') (ht : t < t') : InOrderOf front front' t t' where
  earlier := iff_of_true ht hfront
  same := by
    apply iff_of_false
    · rintro rfl
      exact Int64.lt_irrefl ht
    · rintro rfl
      exact List.lt_irrefl front hfront
  later := iff_of_false (Int64.lt_asymm ht) (List.lt_asymm hfront)

theorem of_eq : InOrderOf front front t t where
  earlier := iff_of_false Int64.lt_irrefl (List.lt_irrefl front)
  same := iff_of_true rfl rfl
  later := iff_of_false Int64.lt_irrefl (List.lt_irrefl front)

theorem swap (h : InOrderOf front front' t t') : InOrderOf front' front t' t where
  earlier := h.later
  same := by rw [eq_comm, h.same, eq_comm]
  later := h.earlier

end InOrderOf

theorem lt_or_eq_or_gt (a b : List UInt8) : a < b ∨ a = b ∨ b < a := by
  by_contra h
  rw [not_or, not_or] at h
  exact h.2.1 (Std.Trichotomous.trichotomous a b h.1 h.2.2)

theorem TimestampMeans.inOrderOf {raw raw' : String} {t t' : Int64}
    (h : TimestampMeans (Text.bytes raw) t.toInt) (h' : TimestampMeans (Text.bytes raw') t'.toInt)
    (hzone : zoneText raw = zoneText raw') : InOrderOf (frontText raw) (frontText raw') t t' := by
  obtain ⟨s, hs, hmeans⟩ := h
  obtain ⟨s', hs', hmeans'⟩ := h'
  rw [zoneText, zoneText, hs, hs', s.parts_bytes.behind, s'.parts_bytes.behind] at hzone
  have hfront : frontText raw = s.front := by
    rw [frontText, hs, TimestampText.bytes, List.take_left' s.length_front]
  have hfront' : frontText raw' = s'.front := by
    rw [frontText, hs', TimestampText.bytes, List.take_left' s'.length_front]
  rw [hfront, hfront']
  rcases lt_or_eq_or_gt s.front s'.front with hlt | heq | hgt
  · apply InOrderOf.of_lt hlt
    exact Int64.lt_iff_toInt_lt.mpr (hmeans.lt_of_front_lt hmeans' hzone hlt)
  · obtain rfl : t = t' := Int64.toInt_inj.mp (hmeans.eq_of_front_eq hmeans' hzone heq)
    rw [heq]
    exact .of_eq
  · apply InOrderOf.swap
    apply InOrderOf.of_lt hgt
    exact Int64.lt_iff_toInt_lt.mpr (hmeans'.lt_of_front_lt hmeans hzone.symm hgt)

namespace Clock

def after (c : Clock) (raws : List String) : Clock := raws.foldl (fun c raw => (c.parse raw).1) c

theorem Faithful.after {c : Clock} (h : c.Faithful) (raws : List String) :
    (c.after raws).Faithful := by
  induction raws generalizing c with
  | nil => exact h
  | cons raw raws ih => exact ih (parse_spec h raw).2

theorem exists_parse_eq_ok {c : Clock} (hc : c.Faithful) {raw : String} (h : IsTimestamp raw) :
    ∃ t, (c.parse raw).2 = .ok t ∧ TimestampMeans (Text.bytes raw) t.toInt := by
  obtain ⟨nanos, hmeans, hlow, hhigh⟩ := h
  obtain ⟨t, hparse, htime⟩ := (answers_parse hc raw).time nanos hmeans
  exact ⟨t, hparse, (htime hlow hhigh).symm ▸ hmeans⟩

/-- Two timestamps of one zone are given times in the order of their first 23 bytes, whatever was
read before each of them. -/
theorem parse_inOrderOf {raw raw' : String} (h : IsTimestamp raw) (h' : IsTimestamp raw')
    (hzone : zoneText raw = zoneText raw') (before before' : List String) :
    ∃ t t', ((new.after before).parse raw).2 = .ok t ∧
      ((new.after before').parse raw').2 = .ok t' ∧
      InOrderOf (frontText raw) (frontText raw') t t' := by
  obtain ⟨t, hparse, hmeans⟩ := exists_parse_eq_ok (faithful_new.after before) h
  obtain ⟨t', hparse', hmeans'⟩ := exists_parse_eq_ok (faithful_new.after before') h'
  exact ⟨t, t', hparse, hparse', hmeans.inOrderOf hmeans' hzone⟩

theorem isTimestamp_of_exactNanos? {raw : String} (nanos : Int)
    (h : exactNanos? (Text.bytes raw) = some nanos) (hlow : -2 ^ 63 ≤ nanos)
    (hhigh : nanos < 2 ^ 63) : IsTimestamp raw :=
  ⟨nanos, exactNanos?_eq_some_iff.mp h, hlow, hhigh⟩

/-- The last millisecond of a leap day of a full century, and the first one behind it. -/
theorem parse_inOrderOf_leap_day :
    IsTimestamp "2000-02-29 23:59:59.999 EST" ∧ IsTimestamp "2000-03-01 00:00:00.000  EST" ∧
      zoneText "2000-02-29 23:59:59.999 EST" = zoneText "2000-03-01 00:00:00.000  EST" ∧
      ∃ t t', ((new.after ["1969-12-31 23:59:59.999 UTC"]).parse
          "2000-02-29 23:59:59.999 EST").2 = .ok t ∧
        ((new.after []).parse "2000-03-01 00:00:00.000  EST").2 = .ok t' ∧
        InOrderOf (frontText "2000-02-29 23:59:59.999 EST")
          (frontText "2000-03-01 00:00:00.000  EST") t t' := by
  have h : IsTimestamp "2000-02-29 23:59:59.999 EST" :=
    isTimestamp_of_exactNanos? 951886799999000000 (by decide +kernel) (by decide) (by decide)
  have h' : IsTimestamp "2000-03-01 00:00:00.000  EST" :=
    isTimestamp_of_exactNanos? 951886800000000000 (by decide +kernel) (by decide) (by decide)
  have hzone : zoneText "2000-02-29 23:59:59.999 EST" =
      zoneText "2000-03-01 00:00:00.000  EST" := by decide +kernel
  exact ⟨h, h', hzone, parse_inOrderOf h h' hzone ["1969-12-31 23:59:59.999 UTC"] []⟩

end Clock

end Log

end WorkloadReplay

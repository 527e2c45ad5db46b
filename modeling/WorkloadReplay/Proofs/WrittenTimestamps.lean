import WorkloadReplay.Proofs.CachedClock
import WorkloadReplay.Proofs.CalendarDays
import Mathlib.Data.List.Forall2
import Mathlib.Data.List.TakeWhile

/-!
# Timestamps as they are written

A timestamp is digits at their places, and a zone with blanks around it. What it means is said once,
by the calendar and the zone, without regard to what was read before it. A clock that reads
timestamps one after the other gives each of them this time, or refuses it if it has none.
-/

namespace WorkloadReplay.Log

/-- A number of so many digits. -/
structure IsDigits (width : Nat) (ds : List UInt8) : Prop where
  length : ds.length = width
  digits : ∀ d ∈ ds, Numeral.isDigit d = true

/-! ### Zones -/

/-- The digits of an offset and its seconds: two for the hours, and two or none for the minutes. -/
inductive OffsetDigits : List UInt8 → Int → Prop where
  | mk {hours minutes : List UInt8} (hh : IsDigits 2 hours)
      (hm : IsDigits 2 minutes ∨ minutes = []) (hhours : Numeral.value hours ≤ 15)
      (hminutes : Numeral.value minutes ≤ 59) :
      OffsetDigits (hours ++ minutes) (Numeral.value hours * 3600 + Numeral.value minutes * 60)

/-- The text of a zone, and its seconds ahead of UTC: one of the abbreviations, or a sign and digits
among which colons do not count. -/
inductive ZoneText : List UInt8 → Int → Prop where
  | named {name : String} {hours minutes : Int} (h : (name, hours, minutes) ∈ zones) :
      ZoneText (Text.bytes name) (hours * 3600 + minutes * 60)
  | ahead {text : List UInt8} {seconds : Int}
      (h : OffsetDigits (text.filter (· ≠ 0x3A)) seconds) : ZoneText (0x2B :: text) seconds
  | behind {text : List UInt8} {seconds : Int}
      (h : OffsetDigits (text.filter (· ≠ 0x3A)) seconds) : ZoneText (0x2D :: text) (-seconds)

theorem OffsetDigits.isDigit {ds : List UInt8} {seconds : Int} (h : OffsetDigits ds seconds) :
    ∀ d ∈ ds, Numeral.isDigit d = true := by
  cases h with
  | mk hh hm =>
    intro d hd
    rcases List.mem_append.mp hd with hd | hd
    · exact hh.digits d hd
    · rcases hm with hm | rfl
      · exact hm.digits d hd
      · cases hd

theorem digitsOffset?_eq_some_iff {ds : List UInt8} {seconds : Int} :
    digitsOffset? ds = some seconds ↔ OffsetDigits ds seconds := by
  constructor
  · intro h
    unfold digitsOffset? at h
    dsimp only at h
    split_ifs at h with hform hbounds
    cases h
    simp only [Bool.and_eq_true, Bool.or_eq_true, decide_eq_true_eq, List.all_eq_true]
      at hform hbounds
    obtain ⟨hdigits, hlength⟩ := hform
    have hhours : IsDigits 2 (ds.take 2) :=
      ⟨by rw [List.length_take]; omega, fun d hd => hdigits d (List.mem_of_mem_take hd)⟩
    have hminutes : IsDigits 2 (ds.drop 2) ∨ ds.drop 2 = [] := by
      rcases hlength with hlength | hlength
      · exact .inr (List.drop_of_length_le hlength.le)
      · exact .inl ⟨by rw [List.length_drop, hlength],
          fun d hd => hdigits d (List.mem_of_mem_drop hd)⟩
    have hparts := OffsetDigits.mk hhours hminutes hbounds.1 hbounds.2
    rwa [List.take_append_drop] at hparts
  · intro h
    have hdigits := h.isDigit
    cases h with
    | @mk hours minutes hh hm hhours hminutes =>
      have hlength : hours.length + minutes.length = 2 ∨ hours.length + minutes.length = 4 := by
        rcases hm with hm | rfl
        · exact .inr (by rw [hh.length, hm.length])
        · exact .inl hh.length
      unfold digitsOffset?
      rw [List.take_left' hh.length, List.drop_left' hh.length, if_pos, if_pos]
      · rfl
      · simp [hhours, hminutes]
      · simp only [Bool.and_eq_true, Bool.or_eq_true, decide_eq_true_eq, List.all_eq_true,
          List.length_append]
        exact ⟨hdigits, hlength⟩

theorem namedOffset?_of_mem : ∀ zone ∈ zones,
    namedOffset? (Text.bytes zone.1) = some (zoneSeconds zone.2.1 zone.2.2) := by
  decide +kernel

theorem head?_bytes_of_mem : ∀ zone ∈ zones, (Text.bytes zone.1).head? ≠ some 0x2B ∧
    (Text.bytes zone.1).head? ≠ some 0x2D := by
  decide +kernel

theorem namedOffset?_eq_some_iff {zone : List UInt8} {seconds : Int} :
    namedOffset? zone = some seconds ↔ ∃ name hours minutes, (name, hours, minutes) ∈ zones ∧
      zone = Text.bytes name ∧ seconds = hours * 3600 + minutes * 60 := by
  constructor
  · intro h
    obtain ⟨⟨name, hours, minutes⟩, hfind, rfl⟩ := Option.map_eq_some_iff.mp h
    have hname := List.find?_some hfind
    exact ⟨name, hours, minutes, List.mem_of_find?_eq_some hfind,
      (of_decide_eq_true hname).symm, rfl⟩
  · rintro ⟨name, hours, minutes, hmem, rfl, rfl⟩
    exact namedOffset?_of_mem _ hmem

theorem zoneOffset?_signed {sign : UInt8} (hsign : sign = 0x2B ∨ sign = 0x2D) (text : List UInt8) :
    zoneOffset? (sign :: text) = numericOffset? (sign :: text) := by
  have hnamed : namedOffset? (sign :: text) = none := by
    rw [Option.eq_none_iff_forall_not_mem]
    intro seconds hseconds
    obtain ⟨name, hours, minutes, hmem, hname, -⟩ := namedOffset?_eq_some_iff.mp hseconds
    have hhead := head?_bytes_of_mem _ hmem
    rw [← hname, List.head?_cons] at hhead
    rcases hsign with rfl | rfl
    · exact hhead.1 rfl
    · exact hhead.2 rfl
  rw [zoneOffset?, hnamed]
  rfl

theorem zoneOffset?_eq_some_iff {zone : List UInt8} {seconds : Int} :
    zoneOffset? zone = some seconds ↔ ZoneText zone seconds := by
  constructor
  · intro h
    unfold zoneOffset? at h
    cases hnamed : namedOffset? zone with
    | some named =>
      rw [hnamed] at h
      cases h
      obtain ⟨name, hours, minutes, hmem, rfl, rfl⟩ := namedOffset?_eq_some_iff.mp hnamed
      exact .named hmem
    | none =>
      rw [hnamed] at h
      have h : numericOffset? zone = some seconds := h
      cases zone with
      | nil => cases h
      | cons sign text =>
        unfold numericOffset? at h
        dsimp only at h
        split_ifs at h with hplus hminus
        · subst hplus
          exact .ahead (digitsOffset?_eq_some_iff.mp h)
        · subst hminus
          obtain ⟨s, hs, rfl⟩ := Option.map_eq_some_iff.mp h
          exact .behind (digitsOffset?_eq_some_iff.mp hs)
  · intro h
    cases h with
    | named hmem =>
      rw [zoneOffset?, namedOffset?_of_mem _ hmem]
      rfl
    | ahead h =>
      rw [zoneOffset?_signed (.inl rfl), numericOffset?, digitsOffset?_eq_some_iff.mpr h]
      rfl
    | behind h =>
      rw [zoneOffset?_signed (.inr rfl), numericOffset?, digitsOffset?_eq_some_iff.mpr h]
      rfl

/-! ### Blanks around a zone -/

theorem isPadding_of_mem_zones : ∀ zone ∈ zones,
    (Text.bytes zone.1).all (fun c => !Text.isPadding c) = true := by
  decide +kernel

/-- A zone holds no blanks. -/
theorem ZoneText.isPadding {zone : List UInt8} {seconds : Int} (h : ZoneText zone seconds) :
    ∀ c ∈ zone, Text.isPadding c = false := by
  have htext {text : List UInt8} {seconds : Int}
      (h : OffsetDigits (text.filter (· ≠ 0x3A)) seconds) :
      ∀ c ∈ text, Text.isPadding c = false := by
    intro c hc
    by_cases hcolon : c = 0x3A
    · subst hcolon
      decide
    · have hdigit := h.isDigit c (List.mem_filter.mpr ⟨hc, by simpa using hcolon⟩)
      rw [← Bool.not_eq_true]
      intro hpadding
      simp only [Text.isPadding, Bool.or_eq_true, decide_eq_true_eq] at hpadding
      rcases hpadding with (((rfl | rfl) | rfl) | rfl) | rfl <;> revert hdigit <;> decide
  cases h with
  | named hmem => simpa using isPadding_of_mem_zones _ hmem
  | ahead h => exact List.forall_mem_cons.mpr ⟨by decide, htext h⟩
  | behind h => exact List.forall_mem_cons.mpr ⟨by decide, htext h⟩

theorem exists_trimPadding (b : List UInt8) :
    ∃ before after, b = before ++ Text.trimPadding b ++ after ∧
      (∀ c ∈ before, Text.isPadding c = true) ∧ ∀ c ∈ after, Text.isPadding c = true := by
  let rest := b.dropWhile Text.isPadding
  have hrest : (rest.reverse.dropWhile Text.isPadding).reverse ++
      (rest.reverse.takeWhile Text.isPadding).reverse = rest := by
    rw [← List.reverse_append, List.takeWhile_append_dropWhile, List.reverse_reverse]
  refine ⟨b.takeWhile Text.isPadding, (rest.reverse.takeWhile Text.isPadding).reverse, ?_, ?_, ?_⟩
  · rw [List.append_assoc]
    exact (List.takeWhile_append_dropWhile.symm.trans (congrArg _ hrest.symm))
  · exact fun c hc => List.mem_takeWhile_imp hc
  · exact fun c hc => List.mem_takeWhile_imp (List.mem_reverse.mp hc)

theorem trimPadding_append {before zone after : List UInt8}
    (hbefore : ∀ c ∈ before, Text.isPadding c = true)
    (hzone : ∀ c ∈ zone, Text.isPadding c = false)
    (hafter : ∀ c ∈ after, Text.isPadding c = true) :
    Text.trimPadding (before ++ zone ++ after) = zone := by
  have hkeep (l : List UInt8) (hl : ∀ c ∈ l, Text.isPadding c = false) (hne : l ≠ [])
      (more : List UInt8) : (l ++ more).dropWhile Text.isPadding = l ++ more := by
    obtain ⟨c, l, rfl⟩ := List.exists_cons_of_ne_nil hne
    exact List.dropWhile_cons_of_neg (by simp [hl c List.mem_cons_self])
  unfold Text.trimPadding
  rw [List.append_assoc, List.dropWhile_append_of_pos hbefore]
  by_cases hne : zone = []
  · subst hne
    rw [List.nil_append, List.dropWhile_eq_nil_iff.mpr hafter]
    rfl
  · rw [hkeep zone hzone hne, List.reverse_append,
      List.dropWhile_append_of_pos fun c hc => hafter c (List.mem_reverse.mp hc)]
    have hreverse := hkeep zone.reverse (fun c hc => hzone c (List.mem_reverse.mp hc))
      (by simpa using hne) []
    rw [List.append_nil] at hreverse
    rw [hreverse, List.reverse_reverse]

/-! ### Digits at their places -/

/-- The parts of a timestamp: the digits of its numbers, and what stands behind the space. -/
structure TimestampText where
  year : List UInt8
  month : List UInt8
  day : List UInt8
  hour : List UInt8
  minute : List UInt8
  second : List UInt8
  millisecond : List UInt8
  behind : List UInt8
  isYear : IsDigits 4 year
  isMonth : IsDigits 2 month
  isDay : IsDigits 2 day
  isHour : IsDigits 2 hour
  isMinute : IsDigits 2 minute
  isSecond : IsDigits 2 second
  isMillisecond : IsDigits 3 millisecond

/-- The bytes fit the places of a form. -/
def Fits (form b : List UInt8) : Prop :=
  List.Forall₂ (fun place c => fitsForm place c = true) form b

theorem isTimestampForm_iff {b : List UInt8} : isTimestampForm b = true ↔ Fits timestampForm b := by
  have hzip (form b : List UInt8) (h : b.length = form.length) :
      (List.zipWith fitsForm form b).all id = true ↔ Fits form b := by
    induction form generalizing b with
    | nil => simp [Fits, List.length_eq_zero_iff.mp h]
    | cons place form ih =>
      obtain ⟨c, b, rfl⟩ := List.exists_cons_of_length_eq_add_one h
      simp only [List.zipWith_cons_cons, List.all_cons, id, Bool.and_eq_true,
        ih b (Nat.succ.inj h), Fits, List.forall₂_cons]
  unfold isTimestampForm
  rw [Bool.and_eq_true, decide_eq_true_eq]
  constructor
  · rintro ⟨hlength, hfits⟩
    exact (hzip _ _ hlength).mp hfits
  · intro h
    have hlength : b.length = timestampForm.length := h.length_eq.symm
    exact ⟨hlength, (hzip _ _ hlength).mpr h⟩

theorem fits_digits_iff {width : Nat} {b : List UInt8} :
    Fits (List.replicate width 0x64) b ↔ IsDigits width b := by
  unfold Fits
  constructor
  · intro h
    refine ⟨by simpa using h.length_eq.symm, fun d hd => ?_⟩
    obtain ⟨i, hi, rfl⟩ := List.getElem_of_mem hd
    have := (List.forall₂_iff_get.mp h).2 i (h.length_eq ▸ hi) hi
    simpa [fitsForm] using this
  · intro h
    refine List.forall₂_iff_get.mpr ⟨by simp [h.length], fun i _ hi => ?_⟩
    simpa [fitsForm] using h.digits _ (List.getElem_mem hi)

theorem fits_number_iff {width : Nat} {sign : UInt8} {form b : List UInt8} (hsign : sign ≠ 0x64) :
    Fits (List.replicate width 0x64 ++ sign :: form) b ↔
      ∃ ds r, b = ds ++ sign :: r ∧ IsDigits width ds ∧ Fits form r := by
  have hplace (c : UInt8) : fitsForm sign c = true ↔ c = sign := by
    rw [fitsForm, if_neg hsign, decide_eq_true_eq]
  constructor
  · intro h
    have hds := List.forall₂_take width h
    have hrest := List.forall₂_drop width h
    rw [List.take_left' List.length_replicate] at hds
    rw [List.drop_left' List.length_replicate] at hrest
    obtain ⟨c, r, hc, hr, hb⟩ := List.forall₂_cons_left_iff.mp hrest
    obtain rfl := (hplace c).mp hc
    exact ⟨b.take width, r, by rw [← hb, List.take_append_drop], fits_digits_iff.mp hds, hr⟩
  · rintro ⟨ds, r, rfl, hds, hr⟩
    exact List.rel_append (fits_digits_iff.mpr hds) (.cons ((hplace sign).mpr rfl) hr)

theorem timestampForm_eq : timestampForm =
    List.replicate 4 0x64 ++ 0x2D :: (List.replicate 2 0x64 ++ 0x2D :: (List.replicate 2 0x64 ++
      0x20 :: (List.replicate 2 0x64 ++ 0x3A :: (List.replicate 2 0x64 ++
        0x3A :: (List.replicate 2 0x64 ++ 0x2E :: List.replicate 3 0x64))))) := by
  decide

theorem units?_eq_some_iff {n most : Nat} {nanos x : Int} :
    Clock.units? n most nanos = some x ↔ n ≤ most ∧ x = n * nanos := by
  unfold Clock.units?
  split
  · rename_i h
    simp [h, eq_comm]
  · rename_i h
    simp [h]

namespace TimestampText

def front (t : TimestampText) : List UInt8 :=
  t.year ++ 0x2D :: (t.month ++ 0x2D :: (t.day ++ 0x20 :: (t.hour ++ 0x3A :: (t.minute ++
    0x3A :: (t.second ++ 0x2E :: t.millisecond)))))

def bytes (t : TimestampText) : List UInt8 := t.front ++ 0x20 :: t.behind

theorem isTimestampForm_front (t : TimestampText) : isTimestampForm t.front = true := by
  rw [isTimestampForm_iff, timestampForm_eq]
  exact (fits_number_iff (by decide)).mpr ⟨_, _, rfl, t.isYear,
    (fits_number_iff (by decide)).mpr ⟨_, _, rfl, t.isMonth,
    (fits_number_iff (by decide)).mpr ⟨_, _, rfl, t.isDay,
    (fits_number_iff (by decide)).mpr ⟨_, _, rfl, t.isHour,
    (fits_number_iff (by decide)).mpr ⟨_, _, rfl, t.isMinute,
    (fits_number_iff (by decide)).mpr ⟨_, _, rfl, t.isSecond,
    fits_digits_iff.mpr t.isMillisecond⟩⟩⟩⟩⟩⟩

theorem exists_front {b : List UInt8} (h : isTimestampForm b = true) (behind : List UInt8) :
    ∃ t : TimestampText, b = t.front ∧ t.behind = behind := by
  rw [isTimestampForm_iff, timestampForm_eq] at h
  obtain ⟨year, _, rfl, hyear, h⟩ := (fits_number_iff (by decide)).mp h
  obtain ⟨month, _, rfl, hmonth, h⟩ := (fits_number_iff (by decide)).mp h
  obtain ⟨day, _, rfl, hday, h⟩ := (fits_number_iff (by decide)).mp h
  obtain ⟨hour, _, rfl, hhour, h⟩ := (fits_number_iff (by decide)).mp h
  obtain ⟨minute, _, rfl, hminute, h⟩ := (fits_number_iff (by decide)).mp h
  obtain ⟨second, _, rfl, hsecond, h⟩ := (fits_number_iff (by decide)).mp h
  exact ⟨⟨year, month, day, hour, minute, second, _, behind, hyear, hmonth, hday, hhour, hminute,
    hsecond, fits_digits_iff.mp h⟩, rfl, rfl⟩

theorem length_front (t : TimestampText) : t.front.length = 23 :=
  (isTimestampForm_iff.mp t.isTimestampForm_front).length_eq.symm

theorem hasTimestampForm_iff {b : List UInt8} :
    hasTimestampForm b = true ↔ ∃ t : TimestampText, b = t.bytes ∧ t.behind ≠ [] := by
  unfold hasTimestampForm
  simp only [Bool.and_eq_true, decide_eq_true_eq]
  constructor
  · rintro ⟨⟨hlength, hform⟩, hspace⟩
    obtain ⟨t, hfront, hbehind⟩ := exists_front hform (b.drop 24)
    have hdrop : b.drop 23 = 0x20 :: b.drop 24 := by
      obtain ⟨hlt, hbyte⟩ := List.getElem?_eq_some_iff.mp hspace
      rw [List.drop_eq_getElem_cons hlt, hbyte]
    refine ⟨t, ?_, ?_⟩
    · rw [bytes, hbehind, ← hfront, ← hdrop, List.take_append_drop]
    · rw [hbehind]
      exact List.ne_nil_of_length_pos (by rw [List.length_drop]; omega)
  · rintro ⟨t, rfl, hbehind⟩
    have hlength := List.length_pos_of_ne_nil hbehind
    refine ⟨⟨?_, ?_⟩, ?_⟩
    · rw [bytes, List.length_append, List.length_cons, t.length_front]
      omega
    · rw [bytes, List.take_left' t.length_front]
      exact t.isTimestampForm_front
    · rw [bytes, List.getElem?_append_right t.length_front.le, t.length_front]
      rfl

/-- Where the clock looks for the parts of a timestamp. -/
structure Parts (t : TimestampText) (b : List UInt8) : Prop where
  date : dateOfBytes (b.take 10) =
    ⟨Numeral.value t.year, Numeral.value t.month, Numeral.value t.day⟩
  length_date : (b.take 10).length = 10
  hour : slice b 11 13 = t.hour
  minute : slice b 14 16 = t.minute
  second : slice b 17 19 = t.second
  millisecond : slice b 20 23 = t.millisecond
  behind : b.drop 24 = t.behind

theorem parts_bytes (t : TimestampText) : t.Parts t.bytes := by
  obtain ⟨year, month, day, hour, minute, second, millisecond, behind, isYear, isMonth, isDay,
    isHour, isMinute, isSecond, isMillisecond⟩ := t
  obtain ⟨_, year, rfl⟩ := List.exists_cons_of_length_eq_add_one isYear.length
  obtain ⟨_, _, _, rfl⟩ := List.length_eq_three.mp (Nat.succ.inj isYear.length)
  obtain ⟨_, _, rfl⟩ := List.length_eq_two.mp isMonth.length
  obtain ⟨_, _, rfl⟩ := List.length_eq_two.mp isDay.length
  obtain ⟨_, _, rfl⟩ := List.length_eq_two.mp isHour.length
  obtain ⟨_, _, rfl⟩ := List.length_eq_two.mp isMinute.length
  obtain ⟨_, _, rfl⟩ := List.length_eq_two.mp isSecond.length
  obtain ⟨_, _, _, rfl⟩ := List.length_eq_three.mp isMillisecond.length
  exact ⟨rfl, rfl, rfl, rfl, rfl, rfl, rfl⟩

def nanos (t : TimestampText) (days offset : Int) : Int :=
  (days * 86400 - offset + Numeral.value t.hour * 3600 + Numeral.value t.minute * 60 +
    Numeral.value t.second) * 10 ^ 9 + Numeral.value t.millisecond * 10 ^ 6

/-- What the parts of a timestamp mean: the date exists and has a number, the numbers of the time of
day are in range, and a zone stands between blanks. -/
inductive Means (t : TimestampText) : Int → Prop where
  | mk {days offset : Int} {before zone after : List UInt8}
      (hdate : Calendar.DayNumber
        ⟨Numeral.value t.year, Numeral.value t.month, Numeral.value t.day⟩ days)
      (hhour : Numeral.value t.hour ≤ 23) (hminute : Numeral.value t.minute ≤ 59)
      (hsecond : Numeral.value t.second ≤ 59) (hbehind : t.behind = before ++ zone ++ after)
      (hbefore : ∀ c ∈ before, Text.isPadding c = true) (hzone : ZoneText zone offset)
      (hafter : ∀ c ∈ after, Text.isPadding c = true) : Means t (t.nanos days offset)

theorem midnightOf?_eq_some_iff (t : TimestampText) {nanos : Int} :
    midnightOf? (t.bytes.take 10 ++ Text.trimPadding (t.bytes.drop 24)) = some nanos ↔
      ∃ days offset, Calendar.DayNumber
          ⟨Numeral.value t.year, Numeral.value t.month, Numeral.value t.day⟩ days ∧
        ZoneText (Text.trimPadding t.behind) offset ∧
        nanos = (days * 86400 - offset) * nanosPerSecond := by
  have hparts := t.parts_bytes
  rw [midnightOf?, List.take_left' hparts.length_date, List.drop_left' hparts.length_date,
    hparts.behind, midnight?, hparts.date]
  simp only [Calendar.dayNumber_iff, ← zoneOffset?_eq_some_iff]
  split
  · rename_i hvalid
    rw [Option.map_eq_some_iff]
    constructor
    · rintro ⟨offset, hoffset, rfl⟩
      exact ⟨_, offset, ⟨hvalid, rfl⟩, hoffset, rfl⟩
    · rintro ⟨_, offset, ⟨-, rfl⟩, hoffset, rfl⟩
      exact ⟨offset, hoffset, rfl⟩
  · rename_i hvalid
    simp only [reduceCtorEq, false_iff]
    rintro ⟨_, _, ⟨hvalid', -⟩, -⟩
    exact hvalid hvalid'

theorem hasTimestampForm_bytes (t : TimestampText) :
    hasTimestampForm t.bytes = true ↔ t.behind ≠ [] := by
  rw [hasTimestampForm_iff]
  constructor
  · rintro ⟨t', hbytes, hne⟩
    rw [← t.parts_bytes.behind, hbytes, t'.parts_bytes.behind]
    exact hne
  · exact fun hne => ⟨t, rfl, hne⟩

theorem exactNanos?_bytes (t : TimestampText) {x : Int} :
    exactNanos? t.bytes = some x ↔ t.behind ≠ [] ∧ ∃ days offset,
      Calendar.DayNumber
        ⟨Numeral.value t.year, Numeral.value t.month, Numeral.value t.day⟩ days ∧
      ZoneText (Text.trimPadding t.behind) offset ∧ Numeral.value t.hour ≤ 23 ∧
      Numeral.value t.minute ≤ 59 ∧ Numeral.value t.second ≤ 59 ∧ t.nanos days offset = x := by
  have hparts := t.parts_bytes
  have hsum (days offset : Int) : (days * 86400 - offset) * nanosPerSecond +
      Numeral.value t.hour * (3600 * nanosPerSecond) +
      Numeral.value t.minute * (60 * nanosPerSecond) +
      Numeral.value t.second * nanosPerSecond + Numeral.value t.millisecond * 1000000 =
        t.nanos days offset := by
    simp only [nanos, nanosPerSecond]
    omega
  unfold exactNanos?
  rw [← t.hasTimestampForm_bytes]
  split
  · rename_i hform
    simp only [Option.bind_eq_bind, Option.bind_eq_some_iff, field, hparts.hour, hparts.minute,
      hparts.second, hparts.millisecond, midnightOf?_eq_some_iff, units?_eq_some_iff, hours?,
      minutes?, Option.pure_def, Option.some.injEq, hform, true_and]
    constructor
    · rintro ⟨_, ⟨days, offset, hdate, hzone, rfl⟩, _, ⟨hhour, rfl⟩, _, ⟨hminute, rfl⟩, _,
        ⟨hsecond, rfl⟩, h⟩
      exact ⟨days, offset, hdate, hzone, hhour, hminute, hsecond, (hsum days offset).symm.trans h⟩
    · rintro ⟨days, offset, hdate, hzone, hhour, hminute, hsecond, h⟩
      exact ⟨_, ⟨days, offset, hdate, hzone, rfl⟩, _, ⟨hhour, rfl⟩, _, ⟨hminute, rfl⟩, _,
        ⟨hsecond, rfl⟩, (hsum days offset).trans h⟩
  · rename_i hform
    simp [hform]

theorem exactNanos?_bytes_eq_some_iff (t : TimestampText) {x : Int} :
    exactNanos? t.bytes = some x ↔ t.Means x := by
  rw [exactNanos?_bytes]
  constructor
  · rintro ⟨-, days, offset, hdate, hzone, hhour, hminute, hsecond, rfl⟩
    obtain ⟨before, after, hbehind, hbefore, hafter⟩ := exists_trimPadding t.behind
    exact .mk hdate hhour hminute hsecond hbehind hbefore hzone hafter
  · intro h
    cases h with
    | @mk days offset before zone after hdate hhour hminute hsecond hbehind hbefore hzone hafter =>
      have htrim : Text.trimPadding t.behind = zone :=
        hbehind ▸ trimPadding_append hbefore hzone.isPadding hafter
      refine ⟨?_, days, offset, hdate, htrim ▸ hzone, hhour, hminute, hsecond, rfl⟩
      rintro hnil
      rw [hnil] at htrim
      subst htrim
      cases zoneOffset?_eq_some_iff.mpr hzone

end TimestampText

def TimestampMeans (b : List UInt8) (nanos : Int) : Prop :=
  ∃ t : TimestampText, b = t.bytes ∧ t.Means nanos

theorem exactNanos?_eq_some_iff {b : List UInt8} {nanos : Int} :
    exactNanos? b = some nanos ↔ TimestampMeans b nanos := by
  constructor
  · intro h
    have hform : hasTimestampForm b = true := by
      unfold exactNanos? at h
      split at h
      · assumption
      · cases h
    obtain ⟨t, rfl, -⟩ := TimestampText.hasTimestampForm_iff.mp hform
    exact ⟨t, rfl, t.exactNanos?_bytes_eq_some_iff.mp h⟩
  · rintro ⟨t, rfl, h⟩
    exact t.exactNanos?_bytes_eq_some_iff.mpr h

/-! ### Timestamps one after the other -/

/-- The answer to a text, by what the text means: it is refused if it means no time, and its time
is given otherwise, where a signed 64-bit word can hold that. -/
structure Answers (raw : String) (answer : Except Fault Int64) : Prop where
  malformed : answer = .error (.invalidTimestamp raw) ↔
    ¬ ∃ nanos, TimestampMeans (Text.bytes raw) nanos
  time (nanos : Int) : TimestampMeans (Text.bytes raw) nanos →
    ∃ t, answer = .ok t ∧ (-2 ^ 63 ≤ nanos → nanos < 2 ^ 63 → t.toInt = nanos)

namespace Clock

theorem answers_parse {c : Clock} (h : c.Faithful) (raw : String) :
    Answers raw (c.parse raw).2 := by
  obtain ⟨hexact, -⟩ := nanos?_spec h (Text.bytes raw)
  unfold parse
  generalize c.nanos? (Text.bytes raw) = x at hexact
  obtain ⟨later, _ | nanos⟩ := x
  · have hnone : ¬ ∃ nanos, TimestampMeans (Text.bytes raw) nanos := by
      rintro ⟨nanos, hmeans⟩
      rw [← exactNanos?_eq_some_iff, ← hexact] at hmeans
      cases hmeans
    exact ⟨iff_of_true rfl hnone, fun nanos hmeans => absurd ⟨nanos, hmeans⟩ hnone⟩
  · have hmeans : TimestampMeans (Text.bytes raw) nanos := exactNanos?_eq_some_iff.mp hexact.symm
    refine ⟨iff_of_false nofun fun hnone => hnone ⟨nanos, hmeans⟩, fun nanos' hmeans' => ?_⟩
    rw [← exactNanos?_eq_some_iff, ← hexact] at hmeans'
    cases hmeans'
    exact ⟨_, rfl, fun hlow hhigh => Int64.toInt_ofInt_of_le hlow hhigh⟩

theorem parseAll_of_faithful {c : Clock} (h : c.Faithful) (raws : List String) :
    c.parseAll raws = raws.map (fun raw => (new.parse raw).2) ∧
      List.Forall₂ Answers raws (c.parseAll raws) := by
  induction raws generalizing c with
  | nil => exact ⟨rfl, .nil⟩
  | cons raw raws ih =>
    obtain ⟨hfresh, hlater⟩ := parse_spec h raw
    obtain ⟨hmap, hanswers⟩ := ih hlater
    refine ⟨?_, .cons (answers_parse h raw) hanswers⟩
    rw [parseAll, hfresh, hmap, List.map_cons]

/-- One clock answers each of the texts that it reads like a new one, with the time that the text
means. -/
theorem parseAll_answers (raws : List String) :
    new.parseAll raws = raws.map (fun raw => (new.parse raw).2) ∧
      List.Forall₂ Answers raws (new.parseAll raws) :=
  parseAll_of_faithful faithful_new raws

/-- A minute that does not exist is refused after the date and the hour have been kept. -/
example : new.parseAll ["2023-11-12 13:06:58.721 UTC", "2024-02-29 14:60:00.000 EST",
      "2024-02-29 14:06:58.721 EST"] =
    [.ok 1699794418721000000, .error (.invalidTimestamp "2024-02-29 14:60:00.000 EST"),
      .ok 1709233618721000000] := by
  decide +kernel

end Clock

end WorkloadReplay.Log

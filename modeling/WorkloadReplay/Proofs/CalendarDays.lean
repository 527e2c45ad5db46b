import WorkloadReplay.Calendar
import Mathlib.Data.Int.Init
import Mathlib.Tactic.IntervalCases

/-!
# Days counted one by one

The number of a date is worked out from its year, month and day at once. It is the number that one
comes to in counting the days from 1 January 1970 on, or back, over the ends of months and years.
-/

namespace WorkloadReplay.Calendar

theorem Date.isValid_iff {d : Date} :
    d.isValid = true ↔ 1 ≤ d.day ∧ d.day ≤ daysInMonth d.year d.month := by
  simp [Date.isValid]

theorem daysInMonth_pos_iff {year : Int} {month : Nat} :
    0 < daysInMonth year month ↔ 1 ≤ month ∧ month ≤ 12 := by
  constructor
  · intro h
    unfold daysInMonth at h
    split at h <;> omega
  · rintro ⟨hone, htwelve⟩
    interval_cases month <;> simp only [daysInMonth] <;> (try split) <;> omega

theorem Date.month_of_isValid {d : Date} (h : d.isValid = true) : 1 ≤ d.month ∧ d.month ≤ 12 := by
  obtain ⟨hone, hle⟩ := Date.isValid_iff.mp h
  exact daysInMonth_pos_iff.mp (Nat.lt_of_lt_of_le hone hle)

theorem daysBeforeMonth_succ (year : Int) {month : Nat} (h : 1 ≤ month) :
    daysBeforeMonth year (month + 1) = daysBeforeMonth year month + daysInMonth year month := by
  have hsum (n : Nat) : daysBeforeMonth year n =
      ((List.range' 1 (n - 1)).map (daysInMonth year)).sum := by
    rw [daysBeforeMonth, List.sum_eq_foldr, List.foldr_map]
  obtain ⟨k, rfl⟩ := Nat.exists_eq_add_of_le' h
  rw [hsum, hsum, Nat.add_sub_cancel, Nat.add_sub_cancel, List.range'_concat, List.map_append,
    List.sum_append]
  simp [Nat.add_comm]

theorem daysBeforeMonth_december (year : Int) :
    daysBeforeMonth year 12 + 31 = if isLeap year then 366 else 365 := by
  simp only [daysBeforeMonth, List.range', List.foldr, daysInMonth]
  split <;> rfl

/-- The day after a date that exists. -/
def Date.next (d : Date) : Date :=
  if d.day < daysInMonth d.year d.month then ⟨d.year, d.month, d.day + 1⟩
  else if d.month < 12 then ⟨d.year, d.month + 1, 1⟩
  else ⟨d.year + 1, 1, 1⟩

theorem Date.isValid_next {d : Date} (h : d.isValid = true) : d.next.isValid = true := by
  obtain ⟨hmonth, -⟩ := Date.month_of_isValid h
  unfold Date.next
  split
  · rename_i hday
    exact Date.isValid_iff.mpr ⟨Nat.le_add_left 1 _, hday⟩
  · split
    · rename_i hlast
      exact Date.isValid_iff.mpr ⟨Nat.le_refl 1, daysInMonth_pos_iff.mpr (by dsimp only; omega)⟩
    · exact Date.isValid_iff.mpr ⟨Nat.le_refl 1, (by decide : 1 ≤ 31)⟩

theorem Date.days_next {d : Date} (h : d.isValid = true) : d.next.days = d.days + 1 := by
  obtain ⟨hone, hle⟩ := Date.isValid_iff.mp h
  obtain ⟨hmonth, hdecember⟩ := Date.month_of_isValid h
  unfold Date.next
  split
  · simp only [Date.days]
    omega
  · rename_i hday
    split
    · have := daysBeforeMonth_succ d.year hmonth
      simp only [Date.days]
      omega
    · have hyear := daysBeforeYear_succ d.year
      have hmonths := daysBeforeMonth_december d.year
      have hfirst : daysBeforeMonth (d.year + 1) 1 = 0 := rfl
      have htwelve : d.month = 12 := by omega
      have hlast : daysInMonth d.year 12 = 31 := rfl
      rw [htwelve, hlast] at hday hle
      simp only [Date.days, htwelve, hfirst]
      cases hleap : isLeap d.year with
      | true =>
        rw [hleap, if_pos rfl] at hmonths hyear
        omega
      | false =>
        rw [hleap, if_neg Bool.false_ne_true] at hmonths hyear
        omega

/-- The date has this number, counted day by day from 1 January 1970. -/
inductive DayNumber : Date → Int → Prop where
  | epoch : DayNumber ⟨1970, 1, 1⟩ 0
  | next {d : Date} {n : Int} (h : DayNumber d n) : DayNumber d.next (n + 1)
  | previous {d : Date} {n : Int} (hd : d.isValid = true) (h : DayNumber d.next n) :
      DayNumber d (n - 1)

theorem DayNumber.eq_days {d : Date} {n : Int} (h : DayNumber d n) :
    d.isValid = true ∧ n = d.days := by
  induction h with
  | epoch => exact ⟨rfl, rfl⟩
  | next _ ih =>
    obtain ⟨hd, rfl⟩ := ih
    exact ⟨Date.isValid_next hd, (Date.days_next hd).symm⟩
  | previous hd _ ih =>
    obtain ⟨-, rfl⟩ := ih
    refine ⟨hd, ?_⟩
    rw [Date.days_next hd]
    omega

/-! Counting gets to every date. -/

/-- The date is one that the count gets to. -/
def Numbered (d : Date) : Prop := ∃ n, DayNumber d n

theorem numbered_next_iff {d : Date} (h : d.isValid = true) : Numbered d.next ↔ Numbered d := by
  constructor
  · rintro ⟨n, hn⟩
    exact ⟨n - 1, .previous h hn⟩
  · rintro ⟨n, hn⟩
    exact ⟨n + 1, .next hn⟩

theorem numbered_day_iff {year : Int} {month day : Nat} (h : day + 1 ≤ daysInMonth year month) :
    Numbered ⟨year, month, day + 1⟩ ↔ Numbered ⟨year, month, 1⟩ := by
  induction day with
  | zero => exact Iff.rfl
  | succ day ih =>
    have hvalid : Date.isValid ⟨year, month, day + 1⟩ = true :=
      Date.isValid_iff.mpr ⟨Nat.le_add_left 1 day, Nat.le_of_succ_le h⟩
    have hnext : Date.next ⟨year, month, day + 1⟩ = ⟨year, month, day + 1 + 1⟩ := if_pos h
    rw [← hnext, numbered_next_iff hvalid, ih (Nat.le_of_succ_le h)]

theorem numbered_month_iff {year : Int} {month : Nat} (h : month + 1 ≤ 12) :
    Numbered ⟨year, month + 1, 1⟩ ↔ Numbered ⟨year, 1, 1⟩ := by
  induction month with
  | zero => exact Iff.rfl
  | succ month ih =>
    have hpos : 0 < daysInMonth year (month + 1) :=
      daysInMonth_pos_iff.mpr ⟨Nat.le_add_left 1 month, Nat.le_of_succ_le h⟩
    obtain ⟨last, hlast⟩ := Nat.exists_eq_add_of_le' hpos
    have hvalid : Date.isValid ⟨year, month + 1, last + 1⟩ = true :=
      Date.isValid_iff.mpr ⟨Nat.le_add_left 1 last, hlast.ge⟩
    have hnext : Date.next ⟨year, month + 1, last + 1⟩ = ⟨year, month + 1 + 1, 1⟩ := by
      simp only [Date.next, hlast, Nat.lt_irrefl, if_false]
      exact if_pos h
    rw [← hnext, numbered_next_iff hvalid, numbered_day_iff hlast.ge, ih (Nat.le_of_succ_le h)]

theorem numbered_year_iff (year : Int) : Numbered ⟨year + 1, 1, 1⟩ ↔ Numbered ⟨year, 1, 1⟩ := by
  have hvalid : Date.isValid ⟨year, 12, 31⟩ = true := rfl
  have hnext : Date.next ⟨year, 12, 31⟩ = ⟨year + 1, 1, 1⟩ := rfl
  have hlast : Numbered ⟨year, 12, 31⟩ ↔ Numbered ⟨year, 12, 1⟩ := numbered_day_iff (Nat.le_refl 31)
  have hdecember : Numbered ⟨year, 12, 1⟩ ↔ Numbered ⟨year, 1, 1⟩ :=
    numbered_month_iff (Nat.le_refl 12)
  rw [← hnext, numbered_next_iff hvalid, hlast, hdecember]

theorem numbered_newYear (year : Int) : Numbered ⟨year, 1, 1⟩ := by
  induction year using Int.inductionOn' (b := 1970) with
  | zero => exact ⟨0, .epoch⟩
  | succ year _ ih => exact (numbered_year_iff year).mpr ih
  | pred year _ ih =>
    rw [← Int.sub_add_cancel year 1] at ih
    exact (numbered_year_iff (year - 1)).mp ih

theorem numbered_of_isValid {d : Date} (h : d.isValid = true) : Numbered d := by
  obtain ⟨year, month, day⟩ := d
  obtain ⟨hday, hlast⟩ := Date.isValid_iff.mp h
  obtain ⟨hmonth, hdecember⟩ := Date.month_of_isValid h
  obtain ⟨day, rfl⟩ := Nat.exists_eq_add_of_le' hday
  obtain ⟨month, rfl⟩ := Nat.exists_eq_add_of_le' hmonth
  exact (numbered_day_iff hlast).mpr ((numbered_month_iff hdecember).mpr (numbered_newYear year))

/-- The number of a date is what its days come to. -/
theorem dayNumber_iff {d : Date} {n : Int} : DayNumber d n ↔ d.isValid = true ∧ n = d.days := by
  constructor
  · exact DayNumber.eq_days
  · rintro ⟨h, rfl⟩
    obtain ⟨n, hn⟩ := numbered_of_isValid h
    rw [← hn.eq_days.2]
    exact hn

end WorkloadReplay.Calendar

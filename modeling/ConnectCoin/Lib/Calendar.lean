/-
The Gregorian calendar by counting. GENERAL: the epoch is any year.

- `monthDays`, `yearDays`: the lengths of months and years; `dayNumber epoch`: the days before a date, counted year by
  year and month by month from the first of January of the epoch.
- `CivilTime`: a date with a time of day; every field is in its range. `fields` in calendar order, compared as lists;
  `seconds epoch`.
Results: `dayNumber_lt`, `seconds_le_iff`: from the epoch on, counting keeps the calendar order.
-/
import Mathlib.Algebra.BigOperators.Intervals
import Mathlib.Algebra.Order.BigOperators.Group.Finset
import Mathlib.Data.Int.Interval
import Mathlib.Data.List.Lex
import Mathlib.Tactic

namespace ConnectCoin.Lib

open List

/-! ## Counting -/

def IsLeap (year : ℤ) : Prop := 4 ∣ year ∧ ¬ 100 ∣ year ∨ 400 ∣ year

instance (year : ℤ) : Decidable (IsLeap year) := inferInstanceAs (Decidable (_ ∧ _ ∨ _))

/-- thirty days have April, June, September and November -/
def monthDays (year month : ℤ) : ℤ :=
  if month = 2 then if IsLeap year then 29 else 28
  else if month = 4 ∨ month = 6 ∨ month = 9 ∨ month = 11 then 30
  else 31

noncomputable def yearDays (year : ℤ) : ℤ := ∑ month ∈ Finset.Icc 1 12, monthDays year month

/-- the days before a month of its year -/
noncomputable def daysBeforeMonth (year month : ℤ) : ℤ := ∑ k ∈ Finset.Ico 1 month, monthDays year k

/-- the days before a year, from the epoch on -/
noncomputable def daysBeforeYear (epoch year : ℤ) : ℤ := ∑ k ∈ Finset.Ico epoch year, yearDays k

noncomputable def dayNumber (epoch year month day : ℤ) :
    ℤ := daysBeforeYear epoch year + daysBeforeMonth year month + (day - 1)

theorem monthDays_pos (year month : ℤ) : 0 < monthDays year month := by
  unfold monthDays
  split_ifs <;> norm_num

theorem daysBeforeMonth_succ {year month : ℤ} (h : 1 ≤ month) :
    daysBeforeMonth year (month + 1) = daysBeforeMonth year month + monthDays year month := by
  rw [daysBeforeMonth, daysBeforeMonth, ← Finset.insert_Ico_right_eq_Ico_add_one h,
    Finset.sum_insert Finset.right_notMem_Ico]
  exact add_comm _ _

theorem daysBeforeYear_succ {epoch year : ℤ} (h : epoch ≤ year) :
    daysBeforeYear epoch (year + 1) = daysBeforeYear epoch year + yearDays year := by
  rw [daysBeforeYear, daysBeforeYear, ← Finset.insert_Ico_right_eq_Ico_add_one h,
    Finset.sum_insert Finset.right_notMem_Ico]
  exact add_comm _ _

theorem daysBeforeMonth_mono {year m n : ℤ} (h : m ≤ n) : daysBeforeMonth year m ≤ daysBeforeMonth year n :=
  Finset.sum_le_sum_of_subset_of_nonneg (Finset.Ico_subset_Ico_right h) fun k _ _ => (monthDays_pos year k).le

theorem daysBeforeYear_mono {epoch y z : ℤ} (h : y ≤ z) : daysBeforeYear epoch y ≤ daysBeforeYear epoch z :=
  Finset.sum_le_sum_of_subset_of_nonneg (Finset.Ico_subset_Ico_right h) fun _ _ _ =>
    Finset.sum_nonneg fun _ _ => (monthDays_pos _ _).le

theorem daysBeforeMonth_thirteen (year : ℤ) : daysBeforeMonth year 13 = yearDays year := rfl

/-- a month and a day of a year -/
structure IsDate (year month day : ℤ) : Prop where
  month_ok : 1 ≤ month ∧ month ≤ 12
  day_ok : 1 ≤ day ∧ day ≤ monthDays year month

/-- A date is before the end of its month. -/
theorem IsDate.before_month {year month day : ℤ} (h : IsDate year month day) {n : ℤ} (hn : month < n) :
    daysBeforeMonth year month + (day - 1) < daysBeforeMonth year n := by
  calc daysBeforeMonth year month + (day - 1) < daysBeforeMonth year month +
    monthDays year month := by linarith [h.day_ok.2]
    _ = daysBeforeMonth year (month + 1) := (daysBeforeMonth_succ h.month_ok.1).symm
    _ ≤ daysBeforeMonth year n := daysBeforeMonth_mono (by linarith)

/-- Counting keeps the order of dates. -/
theorem dayNumber_lt {epoch y m d y' m' d' : ℤ} (hy : epoch ≤ y) (h : IsDate y m d) (h' : IsDate y' m' d')
    (hlt : [y, m, d] < [y', m', d']) : dayNumber epoch y m d < dayNumber epoch y' m' d' := by
  have hstart : 0 ≤ daysBeforeMonth y' m' := Finset.sum_nonneg fun k _ => (monthDays_pos y' k).le
  rw [cons_lt_cons_iff, cons_lt_cons_iff, cons_lt_cons_iff] at hlt
  unfold dayNumber
  rcases hlt with hyear | ⟨rfl, hmonth | ⟨rfl, hday | ⟨-, hnil⟩⟩⟩
  · have hend := h.before_month (n := 13) (by linarith [h.month_ok.2])
    rw [daysBeforeMonth_thirteen] at hend
    calc daysBeforeYear epoch y + daysBeforeMonth y m + (d - 1) < daysBeforeYear epoch y + yearDays y := by linarith
      _ = daysBeforeYear epoch (y + 1) := (daysBeforeYear_succ hy).symm
      _ ≤ daysBeforeYear epoch y' := daysBeforeYear_mono (by linarith)
      _ ≤ daysBeforeYear epoch y' + daysBeforeMonth y' m' + (d' - 1) := by linarith [h'.day_ok.1]
  · linarith [h.before_month hmonth, h'.day_ok.1]
  · linarith
  · exact absurd hnil (lt_irrefl _)

/-! ## Times -/

/-- a date of the calendar with a time of day -/
structure CivilTime where
  year : ℤ
  month : ℤ
  day : ℤ
  hour : ℤ
  minute : ℤ
  second : ℤ
  date : IsDate year month day
  hour_ok : 0 ≤ hour ∧ hour ≤ 23
  minute_ok : 0 ≤ minute ∧ minute ≤ 59
  second_ok : 0 ≤ second ∧ second ≤ 59

namespace CivilTime

/-- from the year down to the second; times are compared as these lists -/
def fields (t : CivilTime) : List ℤ := [t.year, t.month, t.day, t.hour, t.minute, t.second]

def secondOfDay (t : CivilTime) : ℤ := t.hour * 3600 + t.minute * 60 + t.second

/-- the seconds since the beginning of the epoch, without leap seconds -/
noncomputable def seconds (epoch : ℤ) (t : CivilTime) :
    ℤ := 86400 * dayNumber epoch t.year t.month t.day + t.secondOfDay

theorem secondOfDay_range (t : CivilTime) : 0 ≤ t.secondOfDay ∧ t.secondOfDay < 86400 := by
  have hhour := t.hour_ok
  have hminute := t.minute_ok
  have hsecond := t.second_ok
  unfold secondOfDay
  omega

variable {epoch : ℤ} {a b : CivilTime}

theorem secondOfDay_lt (h : [a.hour, a.minute, a.second] < [b.hour, b.minute, b.second]) :
    a.secondOfDay < b.secondOfDay := by
  have hminute := a.minute_ok
  have hminute' := b.minute_ok
  have hsecond := a.second_ok
  have hsecond' := b.second_ok
  rw [cons_lt_cons_iff, cons_lt_cons_iff, cons_lt_cons_iff] at h
  unfold secondOfDay
  rcases h with hhour | ⟨hhour, hminutes | ⟨hminutes, hseconds | ⟨-, hnil⟩⟩⟩
  · omega
  · omega
  · omega
  · exact absurd hnil (lt_irrefl _)

/-- The calendar order is the order of dates, and then of times of day. -/
theorem fields_lt_iff : a.fields < b.fields ↔ [a.year, a.month, a.day] < [b.year, b.month, b.day] ∨
      (a.year = b.year ∧ a.month = b.month ∧ a.day = b.day) ∧
      [a.hour, a.minute, a.second] < [b.hour, b.minute, b.second] := by
  simp only [fields, cons_lt_cons_iff, not_lt_nil, and_false, or_false]
  tauto

theorem seconds_lt (ha : epoch ≤ a.year) (h : a.fields < b.fields) : a.seconds epoch < b.seconds epoch := by
  unfold seconds
  rcases fields_lt_iff.1 h with hdate | ⟨⟨hyear, hmonth, hday⟩, htime⟩
  · have hdays := dayNumber_lt ha a.date b.date hdate
    linarith [a.secondOfDay_range.2, b.secondOfDay_range.1]
  · rw [hyear, hmonth, hday]
    linarith [secondOfDay_lt htime]

theorem seconds_eq_of_fields (h : a.fields = b.fields) : a.seconds epoch = b.seconds epoch := by
  simp only [fields, List.cons.injEq, and_true] at h
  obtain ⟨hyear, hmonth, hday, hhour, hminute, hsecond⟩ := h
  rw [seconds, seconds, secondOfDay, secondOfDay, hyear, hmonth, hday, hhour, hminute, hsecond]

/-- From the epoch on, the seconds are in calendar order. -/
theorem seconds_lt_iff (ha : epoch ≤ a.year) (hb : epoch ≤ b.year) :
    a.seconds epoch < b.seconds epoch ↔ a.fields < b.fields := by
  refine ⟨fun h => ?_, seconds_lt ha⟩
  rcases lt_trichotomy a.fields b.fields with hlt | heq | hgt
  · exact hlt
  · exact absurd h (by rw [seconds_eq_of_fields heq]; exact lt_irrefl _)
  · exact absurd h (seconds_lt hb hgt).not_gt

theorem seconds_le_iff (ha : epoch ≤ a.year) (hb : epoch ≤ b.year) :
    a.seconds epoch ≤ b.seconds epoch ↔ a.fields ≤ b.fields := by
  rw [← not_lt, ← not_lt, seconds_lt_iff hb ha]

end CivilTime

end ConnectCoin.Lib

/-
Validity dates of certificates (`IsLeapYear`, `DaysInMonth`, `DaysFromCivil`, `X509TimeToUnix` and
`CheckSuppliedCertificateTimes` in `consensus/p2c_x509.cpp`).

`DaysFromCivil` is a closed formula: years begin in March, 400 of them are an era, and the month offsets are (153 m + 2)
/ 5. Here it is compared with the calendar as it is counted (`Lib.Calendar`).
- `daysFromCivil_eq`: the formula without eras; `daysFromCivil_year`, `daysFromCivil_month`: it steps by the length of
  each year and month.
- `ofCivil`: a calendar time in the fields of the certificate library.
Result: `certificate_times_convert`: every calendar time from 1970 on becomes its seconds, every other value is refused,
the seconds are in calendar order, and so certificates are accepted in their calendar intervals.
Premise: years fit the library's `int`.
-/
import ConnectCoin.Lib.Calendar
import ConnectCoin.P2C.X509

namespace ConnectCoin.P2C

open Lib

/-! ## The formula -/

variable {year day month : ℤ} {time : X509Time}

theorem isLeapYear_iff (h : 0 ≤ year) : isLeapYear year = true ↔ IsLeap year := by
  simp only [isLeapYear, IsLeap, Int.tmod_eq_emod_of_nonneg h, Bool.or_eq_true, Bool.and_eq_true, beq_iff_eq,
    bne_iff_ne, ne_eq]
  omega

theorem daysInMonth_eq (hyear : 0 ≤ year) (hmonth : 1 ≤ month ∧ month ≤ 12) :
    daysInMonth year month = monthDays year month := by
  obtain ⟨hlow, hhigh⟩ := hmonth
  unfold daysInMonth monthDays
  interval_cases month <;> simp [isLeapYear_iff hyear]
  split_ifs <;> norm_num

/-- The formula without eras, in years that begin in March. -/
theorem daysFromCivil_eq (hyear : 1 ≤ year) (hmonth : 1 ≤ month) :
    daysFromCivil year month day =
      let y := year - (if month ≤ 2 then 1 else 0)
      let m := if month > 2 then month - 3 else month + 9
      365 * y + y / 4 - y / 100 + y / 400 + (153 * m + 2) / 5 + day - 719469 := by
  unfold daysFromCivil
  dsimp only
  have hy : 0 ≤ year - (if month ≤ 2 then 1 else 0) := by split_ifs <;> linarith
  have hm : 0 ≤ 153 * (if month > 2 then month - 3 else month + 9) + 2 := by split_ifs <;> linarith
  generalize year - (if month ≤ 2 then 1 else 0) = y at hy ⊢
  generalize 153 * (if month > 2 then month - 3 else month + 9) + 2 = offset at hm ⊢
  have hera : 0 ≤ y - y / 400 * 400 := by omega
  rw [if_pos hy, Int.tdiv_eq_ediv_of_nonneg hy, Int.tdiv_eq_ediv_of_nonneg hm, Int.tdiv_eq_ediv_of_nonneg hera,
    Int.tdiv_eq_ediv_of_nonneg hera]
  omega

/-- The first of January moves on by the length of the year. -/
theorem daysFromCivil_year (h : 1 ≤ year) : daysFromCivil (year + 1) 1 1 = daysFromCivil year 1 1 + yearDays year := by
  have hlength : yearDays year = if IsLeap year then 366 else 365 := by
    have hmonths : Finset.Icc (1 : ℤ) 12 = {1, 2, 3, 4, 5, 6, 7, 8, 9, 10, 11, 12} := by decide
    rw [yearDays, hmonths]
    simp only [monthDays]
    split_ifs <;> rfl
  rw [daysFromCivil_eq (by linarith) le_rfl, daysFromCivil_eq h le_rfl, hlength]
  norm_num [IsLeap]
  split_ifs <;> omega

/-- The first of a month moves on by the length of the month. -/
theorem daysFromCivil_month (hyear : 1 ≤ year) (hmonth : 1 ≤ month ∧ month ≤ 11) :
    daysFromCivil year (month + 1) 1 = daysFromCivil year month 1 + monthDays year month := by
  obtain ⟨hlow, hhigh⟩ := hmonth
  rw [daysFromCivil_eq hyear (by linarith), daysFromCivil_eq hyear hlow, monthDays]
  rcases eq_or_ne month 2 with rfl | hfebruary
  · norm_num [IsLeap]
    split_ifs <;> omega
  · rw [if_neg hfebruary]
    interval_cases month <;> first | exact absurd rfl hfebruary | (norm_num; omega)

/-- The formula counts the days of the calendar. -/
theorem daysFromCivil_dayNumber (hyear : 1970 ≤ year) (hmonth : 1 ≤ month ∧ month ≤ 12) :
    daysFromCivil year month day = dayNumber 1970 year month day := by
  -- by induction on the years since 1970, and then on the months
  have hyears : daysFromCivil year 1 1 = daysBeforeYear 1970 year := by
    induction year, hyear using Int.leInduction with
    | base => rfl
    | succ y hy ih => rw [daysFromCivil_year (by linarith), ih, daysBeforeYear_succ hy]
  have hmonths : daysFromCivil year month 1 = daysBeforeYear 1970 year + daysBeforeMonth year month := by
    obtain ⟨hlow, hhigh⟩ := hmonth
    induction month, hlow using Int.leInduction with
    | base => rw [hyears, daysBeforeMonth, Finset.Ico_self, Finset.sum_empty, add_zero]
    | succ m hm ih =>
      rw [daysFromCivil_month (by linarith) ⟨hm, by linarith⟩, ih (by linarith), daysBeforeMonth_succ hm, add_assoc]
  rw [dayNumber, ← hmonths, daysFromCivil_eq (by linarith) hmonth.1, daysFromCivil_eq (by linarith) hmonth.1]
  linarith

/-! ## Times -/

/-- a calendar time in the fields of the certificate library -/
def ofCivil (t : CivilTime) : X509Time := ⟨t.year, t.month, t.day, t.hour, t.minute, t.second⟩

/-- A time that passes the field checks is a calendar time. -/
theorem exists_civil_of_unix {unix : ℤ} (h : x509TimeToUnix time = some unix) :
    ∃ t : CivilTime, 1970 ≤ t.year ∧ time = ofCivil t := by
  unfold x509TimeToUnix at h
  split_ifs at h with hfields
  simp only [not_or, not_lt] at hfields
  obtain ⟨hyear, hlow, hhigh, hday, hdays, hhour, hhours, hmin, hmins, hsec, hsecs⟩ := hfields
  rw [daysInMonth_eq (by linarith) ⟨hlow, hhigh⟩] at hdays
  exact ⟨⟨time.year, time.mon, time.day, time.hour, time.min, time.sec, ⟨⟨hlow, hhigh⟩, hday, hdays⟩,
    ⟨hhour, hhours⟩, ⟨hmin, hmins⟩, ⟨hsec, hsecs⟩⟩, hyear, rfl⟩

/-- A calendar time from 1970 on becomes its seconds; no `int` year is too large. -/
theorem x509TimeToUnix_civil {t : CivilTime} (hyear : 1970 ≤ t.year) (hint : t.year < 2 ^ 31) :
    x509TimeToUnix (ofCivil t) = some (t.seconds 1970) := by
  obtain ⟨⟨hlow, hhigh⟩, hday, hdays⟩ := t.date
  have hfields : ¬ (t.year < 1970 ∨ t.month < 1 ∨ t.month > 12 ∨ t.day < 1 ∨ t.day > daysInMonth t.year t.month ∨
      t.hour < 0 ∨ t.hour > 23 ∨ t.minute < 0 ∨ t.minute > 59 ∨ t.second < 0 ∨ t.second > 59) := by
    rw [daysInMonth_eq (by linarith) ⟨hlow, hhigh⟩]
    have hhour := t.hour_ok
    have hminute := t.minute_ok
    have hsecond := t.second_ok
    omega
  have hfits : ¬ daysFromCivil t.year t.month t.day > ((2 ^ 63 - 1) - 86399 : ℤ).tdiv 86400 := by
    have hlength : monthDays t.year t.month ≤ 31 := by
      unfold monthDays
      split_ifs <;> norm_num
    have hlimit : ((2 ^ 63 - 1) - 86399 : ℤ).tdiv 86400 = 106751991167299 := by decide
    rw [daysFromCivil_eq (by linarith) hlow, hlimit, not_lt]
    dsimp only
    split_ifs <;> omega
  calc x509TimeToUnix (ofCivil t)
      = some (daysFromCivil t.year t.month t.day * 86400 + t.hour * 3600 + t.minute * 60 + t.second) :=
        (if_neg hfields).trans (if_neg hfits)
    _ = some (t.seconds 1970) := by
      rw [daysFromCivil_dayNumber hyear ⟨hlow, hhigh⟩, CivilTime.seconds, CivilTime.secondOfDay, mul_comm, add_assoc,
        add_assoc, add_assoc]

/-- The seconds of a converted value compare as calendar times. -/
theorem exists_unix_iff (hint : time.year < 2 ^ 31) {P : ℤ → Prop} : (∃ s, x509TimeToUnix time = some s ∧ P s) ↔ ∃ a :
    CivilTime, 1970 ≤ a.year ∧ time = ofCivil a ∧ P (a.seconds 1970) := by
  constructor
  · rintro ⟨s, hs, hP⟩
    obtain ⟨a, hyear, rfl⟩ := exists_civil_of_unix hs
    rw [x509TimeToUnix_civil hyear hint] at hs
    exact ⟨a, hyear, rfl, Option.some_inj.1 hs ▸ hP⟩
  · rintro ⟨a, hyear, rfl, hP⟩
    exact ⟨_, x509TimeToUnix_civil hyear hint, hP⟩

/-- A chain is accepted at a positive time that no certificate's bounds exclude. -/
theorem checkSuppliedCertificateTimes_ok {Cert : Type} (lib : X509Library Cert) (chain : List Cert)
    {validationTime : Int64} (hpos : 0 < validationTime.toInt) :
    checkSuppliedCertificateTimes (.ofChain lib chain) validationTime = .ok () ↔
      ∀ crt ∈ chain, (∃ s, x509TimeToUnix (lib.validFrom crt) = some s ∧ s ≤ validationTime.toInt) ∧
        ∃ e, x509TimeToUnix (lib.validTo crt) = some e ∧ validationTime.toInt ≤ e := by
  have htime : ¬ validationTime ≤ 0 := by
    rw [Int64.le_iff_toInt_le, Int64.toInt_zero, not_le]
    exact hpos
  rw [checkSuppliedCertificateTimes, if_neg htime, ite_error_ok, ite_error_ok]
  simp only [CachedCertificateChain.ofChain, Bool.not_eq_true', Bool.not_eq_false, List.all_eq_true, Bool.and_eq_true,
    List.any_map, List.any_eq_true, Function.comp_apply, Bool.or_eq_true, decide_eq_true_eq, not_exists, not_and,
    not_or, not_lt, gt_iff_lt, and_true]
  rw [← forall₂_and]
  refine forall₂_congr fun crt _ => ?_
  rcases x509TimeToUnix (lib.validFrom crt) with _ | s <;> rcases x509TimeToUnix (lib.validTo crt) with _ | e <;> simp

/-- Certificate times convert correctly. A calendar time from 1970 on becomes 86400 times the counted days plus the
seconds of the day; a value that is not such a time is refused; the seconds are in calendar order. So a chain is
accepted at a block time, a calendar time itself, if and only if each of its certificates has two calendar dates from
1970 on with the block time between them in calendar order. -/
theorem certificate_times_convert : (∀ t : CivilTime, 1970 ≤ t.year → t.year < 2 ^ 31 → x509TimeToUnix (ofCivil t) =
        some (86400 * dayNumber 1970 t.year t.month t.day + (t.hour * 3600 + t.minute * 60 + t.second))) ∧
    (∀ time : X509Time, (∀ t : CivilTime, 1970 ≤ t.year → time ≠ ofCivil t) → x509TimeToUnix time = none) ∧
    (∀ a b : CivilTime, 1970 ≤ a.year ∧ a.year < 2 ^ 31 → 1970 ≤ b.year ∧ b.year < 2 ^ 31 → a.fields < b.fields →
      ∃ s t, x509TimeToUnix (ofCivil a) = some s ∧ x509TimeToUnix (ofCivil b) = some t ∧ s < t) ∧
    ∀ (Cert : Type) (lib : X509Library Cert) (chain : List Cert) (validationTime : Int64) (t : CivilTime),
      (∀ crt ∈ chain, (lib.validFrom crt).year < 2 ^ 31 ∧ (lib.validTo crt).year < 2 ^ 31) →
      0 < validationTime.toInt → 1970 ≤ t.year → validationTime.toInt = t.seconds 1970 →
      (checkSuppliedCertificateTimes (.ofChain lib chain) validationTime = .ok () ↔
        ∀ crt ∈ chain, ∃ a b : CivilTime, 1970 ≤ a.year ∧ 1970 ≤ b.year ∧ lib.validFrom crt = ofCivil a ∧
          lib.validTo crt = ofCivil b ∧ a.fields ≤ t.fields ∧ t.fields ≤ b.fields) := by
  refine ⟨fun t hyear hint => x509TimeToUnix_civil hyear hint, fun time h => ?_, fun a b ha hb hlt => ?_, ?_⟩
  · rcases hunix : x509TimeToUnix time with _ | unix
    · rfl
    · obtain ⟨t, hyear, htime⟩ := exists_civil_of_unix hunix
      exact absurd htime (h t hyear)
  · exact ⟨_, _, x509TimeToUnix_civil ha.1 ha.2, x509TimeToUnix_civil hb.1 hb.2, CivilTime.seconds_lt ha.1 hlt⟩
  · intro Cert lib chain validationTime t hint hpos hyear htime
    rw [checkSuppliedCertificateTimes_ok lib chain hpos, htime]
    refine forall₂_congr fun crt hcrt => ?_
    rw [exists_unix_iff (P := (· ≤ t.seconds 1970)) (hint crt hcrt).1,
      exists_unix_iff (P := (t.seconds 1970 ≤ ·)) (hint crt hcrt).2]
    constructor
    · rintro ⟨⟨a, ha, hfrom, hle⟩, b, hb, hto, hle'⟩
      exact ⟨a, b, ha, hb, hfrom, hto, (CivilTime.seconds_le_iff ha hyear).1 hle,
        (CivilTime.seconds_le_iff hyear hb).1 hle'⟩
    · rintro ⟨a, b, ha, hb, hfrom, hto, hle, hle'⟩
      exact ⟨⟨a, ha, hfrom, (CivilTime.seconds_le_iff ha hyear).2 hle⟩, b, hb, hto,
        (CivilTime.seconds_le_iff hyear hb).2 hle'⟩

end ConnectCoin.P2C

import Mathlib.Tactic.IntervalCases
import Dragomand.Gregorian

/-!
# Timestamps

`now_rfc3339` turns the clock's seconds into a date by arithmetic alone
(Hinnant's civil-from-days): days are counted from 0000-03-01 in eras of
400 years, and a year starts in March, so that the leap day is its last.

`InEra` says where a day of an era lies: in which century, which four-year
cycle of it, which year of that and on which day. The leap days make the
last of each a day longer or shorter, and `yearOfEra_eq` is where the
corrections of the code meet them. The month follows from the day of the
year alone (`monthDay`), and with both the date has the number it came
from (`exists_date`), so it is the calendar's (`timestamp_eq_utc`).
-/

namespace Dragomand

open Gregorian (Date DateTime isLeap monthLength daysBeforeMonth daysBeforeYear)

/-- The `i64`s of `now_rfc3339` after `days`, in the order of their `let`s;
`marchYear` is the first `year`. -/
structure Civil where
  z : Int
  era : Int
  doe : Int
  yoe : Int
  marchYear : Int
  doy : Int
  mp : Int
  day : Int
  month : Int
  year : Int
deriving DecidableEq, Repr

/-- `div_euclid` and `rem_euclid` by a positive number are `/` and `%`, the
truncating `/` of `i64` is `tdiv`. -/
def civilFromDays (days : Int) : Civil :=
  let z := days + 719468
  let era := z / 146097
  let doe := z % 146097
  let yoe := (doe - doe.tdiv 1460 + doe.tdiv 36524 - doe.tdiv 146096).tdiv 365
  let marchYear := yoe + era * 400
  let doy := doe - (365 * yoe + yoe.tdiv 4 - yoe.tdiv 100)
  let mp := (5 * doy + 2).tdiv 153
  let day := doy - (153 * mp + 2).tdiv 5 + 1
  let month := if mp < 10 then mp + 3 else mp - 9
  let year := if month ≤ 2 then marchYear + 1 else marchYear
  { z, era, doe, yoe, marchYear, doy, mp, day, month, year }

structure Timestamp where
  year : Int
  month : Int
  day : Int
  hour : Nat
  minute : Nat
  second : Nat
deriving DecidableEq, Repr

def timestamp (secs : Nat) : Timestamp :=
  let civil := civilFromDays (secs / 86400 : Nat)
  let rem := secs % 86400
  { year := civil.year
    month := civil.month
    day := civil.day
    hour := rem / 3600
    minute := rem % 3600 / 60
    second := rem % 60 }

/-- `{:0width}`: a sign counts towards the width. -/
def zeroPadded (width : Nat) (n : Int) : List Char :=
  if n < 0 then '-' :: (Nat.toDigits 10 n.natAbs).leftpad (width - 1) '0'
  else (Nat.toDigits 10 n.natAbs).leftpad width '0'

def Timestamp.text (t : Timestamp) : List Char :=
  zeroPadded 4 t.year ++ '-' :: zeroPadded 2 t.month ++ '-' :: zeroPadded 2 t.day
    ++ 'T' :: zeroPadded 2 t.hour ++ ':' :: zeroPadded 2 t.minute ++ ':' :: zeroPadded 2 t.second
    ++ ['Z']

/-- `now` is the clock's distance from the epoch, `none` before it. -/
def nowRfc3339 (now : Option Nat) : String :=
  String.ofList (timestamp (now.getD 0)).text

/-! ## The year of a day -/

/-- Day `d` of year `k` of cycle `q` of century `c`. The fourth year of a
cycle has 366 days, unless the cycle is the last of a century that is not
the last itself. -/
structure InEra (doe c q k d : Int) : Prop where
  century : 0 ≤ c ∧ c ≤ 3
  cycle : 0 ≤ q ∧ q ≤ 24
  year : 0 ≤ k ∧ k ≤ 3
  day : 0 ≤ d ∧ (d ≤ 364 ∨ d = 365 ∧ k = 3 ∧ (q < 24 ∨ c = 3))
  eq : doe = 36524 * c + 1461 * q + 365 * k + d

theorem exists_inEra {doe : Int} (h0 : 0 ≤ doe) (h1 : doe < 146097) :
    ∃ c q k d, InEra doe c q k d := by
  obtain ⟨c, r, hc, hr⟩ : ∃ c r : Int, (0 ≤ c ∧ c ≤ 3) ∧ 0 ≤ r
      ∧ (r < 36524 ∨ r = 36524 ∧ c = 3) ∧ doe = 36524 * c + r := by
    by_cases hlast : doe = 146096
    · exact ⟨3, 36524, by omega, by omega⟩
    · exact ⟨doe / 36524, doe % 36524, by omega, by omega⟩
  obtain ⟨k, d, hk, hd⟩ : ∃ k d : Int, (0 ≤ k ∧ k ≤ 3) ∧ 0 ≤ d
      ∧ (d ≤ 364 ∨ d = 365 ∧ k = 3) ∧ r % 1461 = 365 * k + d := by
    by_cases hlast : r % 1461 = 1460
    · exact ⟨3, 365, by omega, by omega⟩
    · exact ⟨r % 1461 / 365, r % 1461 % 365, by omega, by omega⟩
  exact ⟨c, r / 1461, k, d, hc, by omega, hk, by omega, by omega⟩

section YearOfEra

variable {doe c q k d : Int}

/-- The subtracted day for each 1460, the day given back for each 36524,
and the one for 146096 cancel the leap days before. -/
theorem yearOfEra_eq (h : InEra doe c q k d) :
    (doe - doe / 1460 + doe / 36524 - doe / 146096) / 365 = 100 * c + 4 * q + k := by
  obtain ⟨hc, hq, hk, hd, rfl⟩ := h
  by_cases hlast : 36524 * c + 1461 * q + 365 * k + d = 146096
  · rw [hlast]
    omega
  · have hcentury : (36524 * c + 1461 * q + 365 * k + d) / 36524 = c := by omega
    have hera : (36524 * c + 1461 * q + 365 * k + d) / 146096 = 0 := by omega
    rw [hcentury, hera]
    -- the cycle's own leap day is taken off near its end, where the year does not change
    by_cases hcycle : 24 * c + q + 365 * k + d < 1460
    · have hleap : (36524 * c + 1461 * q + 365 * k + d) / 1460 = 25 * c + q := by omega
      rw [hleap]
      omega
    · have hleap : (36524 * c + 1461 * q + 365 * k + d) / 1460 = 25 * c + q + 1 := by omega
      rw [hleap]
      omega

theorem dayOfYear_eq (h : InEra doe c q k d) {yoe : Int} (hyoe : yoe = 100 * c + 4 * q + k) :
    doe - (365 * yoe + yoe / 4 - yoe / 100) = d := by
  obtain ⟨hc, hq, hk, hd, rfl⟩ := h
  subst hyoe
  omega

end YearOfEra

/-! ## The month of a day -/

theorem daysBeforeMonth_eq : ∀ leap, ∀ month < 14, daysBeforeMonth leap month
    = [0, 0, 31, 59, 90, 120, 151, 181, 212, 243, 273, 304, 334, 365].getD month 0
      + if leap ∧ 2 < month then 1 else 0 := by
  decide +kernel

/-- A month and day that are in a year and count back to day `d` of the
year that starts in March. -/
structure MonthDay (leap : Bool) (d month day : Int) : Prop where
  month_pos : 1 ≤ month
  month_le : month ≤ 12
  day_pos : 1 ≤ day
  day_le : day ≤ monthLength leap month.toNat
  count : daysBeforeMonth leap month.toNat + (day - 1)
    = if month ≤ 2 then d - 306 else d - 306 + daysBeforeMonth leap 13

theorem monthDay {leap : Bool} {d mp : Int} (h0 : 0 ≤ d) (hd : d ≤ if leap then 365 else 364)
    (hmp : mp = (5 * d + 2) / 153) :
    MonthDay leap d (if mp < 10 then mp + 3 else mp - 9) (d - (153 * mp + 2) / 5 + 1) := by
  have hlow : 0 ≤ mp := by omega
  cases leap with
  | false =>
      simp only [Bool.false_eq_true, if_false] at hd
      have hhigh : mp ≤ 11 := by omega
      interval_cases mp <;> constructor <;> simp [daysBeforeMonth_eq, monthLength] <;> omega
  | true =>
      simp only [if_true] at hd
      have hhigh : mp ≤ 11 := by omega
      interval_cases mp <;> constructor <;> simp [daysBeforeMonth_eq, monthLength] <;> omega

/-! ## The date of a day -/

/-- What the arithmetic comes to: day `doy` of the year `marchYear` that
starts in March, in its month. -/
structure CivilOf (days : Int) (civil : Civil) (c q k : Int) : Prop where
  z : civil.z = days + 719468
  doe : civil.doe = civil.z - 146097 * civil.era
  era : InEra civil.doe c q k civil.doy
  yoe : civil.yoe = 100 * c + 4 * q + k
  marchYear : civil.marchYear = civil.yoe + civil.era * 400
  mp : civil.mp = (5 * civil.doy + 2) / 153
  day : civil.day = civil.doy - (153 * civil.mp + 2) / 5 + 1
  month : civil.month = if civil.mp < 10 then civil.mp + 3 else civil.mp - 9
  year : civil.year = if civil.month ≤ 2 then civil.marchYear + 1 else civil.marchYear

theorem civilFromDays_spec (days : Int) : ∃ c q k, CivilOf days (civilFromDays days) c q k := by
  have hlow : 0 ≤ (days + 719468) % 146097 := by omega
  have hhigh : (days + 719468) % 146097 < 146097 := by omega
  obtain ⟨c, q, k, d, hera⟩ := exists_inEra hlow hhigh
  obtain ⟨hc, hq, hk, hd, -⟩ := id hera
  have hyoe : (civilFromDays days).yoe = 100 * c + 4 * q + k := by
    rw [← yearOfEra_eq hera]
    show Int.tdiv (_ - Int.tdiv _ 1460 + Int.tdiv _ 36524 - Int.tdiv _ 146096) 365 = _
    rw [Int.tdiv_eq_ediv_of_nonneg hlow, Int.tdiv_eq_ediv_of_nonneg hlow,
      Int.tdiv_eq_ediv_of_nonneg hlow, Int.tdiv_eq_ediv_of_nonneg (by omega)]
  have hyoe0 : 0 ≤ (civilFromDays days).yoe := by omega
  have hdoy : (civilFromDays days).doy = d := by
    rw [← dayOfYear_eq hera hyoe]
    show _ - (_ + Int.tdiv (civilFromDays days).yoe 4 - Int.tdiv (civilFromDays days).yoe 100) = _
    rw [Int.tdiv_eq_ediv_of_nonneg hyoe0, Int.tdiv_eq_ediv_of_nonneg hyoe0]
    rfl
  have hmp : (civilFromDays days).mp = (5 * (civilFromDays days).doy + 2) / 153 := by
    show Int.tdiv (5 * (civilFromDays days).doy + 2) 153 = _
    exact Int.tdiv_eq_ediv_of_nonneg (by omega)
  refine ⟨c, q, k, rfl, Int.emod_def _ _, ?_, hyoe, rfl, hmp, ?_, rfl, rfl⟩
  · rw [hdoy]
    exact hera
  · show (civilFromDays days).doy - Int.tdiv (153 * (civilFromDays days).mp + 2) 5 + 1 = _
    rw [Int.tdiv_eq_ediv_of_nonneg (by omega)]

section CivilOf

variable {days c q k : Int} {civil : Civil}

/-- The last of 366 days is the 29th of February. -/
theorem CivilOf.doy_le (h : CivilOf days civil c q k) :
    civil.doy ≤ if isLeap civil.year then 365 else 364 := by
  obtain ⟨-, -, ⟨hc, hq, hk, hd, -⟩, hyoe, hmarch, hmp, -, hmonth, hyear⟩ := h
  cases hleap : isLeap civil.year with
  | true =>
      simp only [if_true]
      omega
  | false =>
      simp only [isLeap, Bool.and_eq_false_iff, Bool.or_eq_false_iff,
        decide_eq_false_iff_not] at hleap
      simp only [Bool.false_eq_true, if_false]
      by_contra hlast
      have hmp11 : civil.mp = 11 := by omega
      rw [hmp11] at hmonth
      norm_num at hmonth
      rw [hmonth] at hyear
      norm_num at hyear
      omega

theorem CivilOf.monthDay (h : CivilOf days civil c q k) :
    MonthDay (isLeap civil.year) civil.doy civil.month civil.day := by
  rw [h.day, h.month]
  exact Dragomand.monthDay h.era.day.1 h.doy_le h.mp

/-- The day is counted from the start of the year it is in. -/
theorem CivilOf.days_eq (h : CivilOf days civil c q k) :
    daysBeforeYear civil.year + daysBeforeMonth (isLeap civil.year) civil.month.toNat
      + (civil.day - 1) = days := by
  have hcount := h.monthDay.count
  obtain ⟨hz, hdoe, ⟨hc, hq, hk, -, heq⟩, hyoe, hmarch, -, -, -, hyear⟩ := h
  have hmarchDay : daysBeforeYear (civil.marchYear + 1) + (civil.doy - 306) = days := by
    unfold Gregorian.daysBeforeYear
    omega
  by_cases hm : civil.month ≤ 2
  · rw [if_pos hm] at hcount hyear
    rw [Int.add_assoc, hcount, hyear]
    exact hmarchDay
  · rw [if_neg hm] at hcount hyear
    rw [Int.add_assoc, hcount, hyear]
    rw [Gregorian.daysBeforeYear_succ] at hmarchDay
    omega

/-- The `i64`s, with those that have no name: the operands of each come
before it. -/
def Civil.values (civil : Civil) : List Int :=
  let { z, era, doe, yoe, marchYear, doy, mp, day, month, year } := civil
  [z, era, doe,
    doe.tdiv 1460, doe - doe.tdiv 1460, doe.tdiv 36524, doe - doe.tdiv 1460 + doe.tdiv 36524,
    doe.tdiv 146096, doe - doe.tdiv 1460 + doe.tdiv 36524 - doe.tdiv 146096, yoe,
    era * 400, marchYear,
    365 * yoe, yoe.tdiv 4, 365 * yoe + yoe.tdiv 4, yoe.tdiv 100,
    365 * yoe + yoe.tdiv 4 - yoe.tdiv 100, doy,
    5 * doy, 5 * doy + 2, mp,
    153 * mp, 153 * mp + 2, (153 * mp + 2).tdiv 5, doy - (153 * mp + 2).tdiv 5, day,
    month, year]

theorem CivilOf.values_lt (h : CivilOf days civil c q k) (h0 : 0 ≤ days) (hdays : days < 2 ^ 62) :
    ∀ n ∈ civil.values, 0 ≤ n ∧ n < 2 ^ 63 := by
  have hmonthDay := h.monthDay
  have hlength := Gregorian.monthLength_le (isLeap civil.year) civil.month.toNat
  obtain ⟨hmonth0, hmonth, hday0, hday, -⟩ := hmonthDay
  obtain ⟨hz, hdoe, ⟨hc, hq, hk, hd, heq⟩, hyoe, hmarch, hmp, -, -, hyear⟩ := h
  have hyear' : civil.year = civil.marchYear ∨ civil.year = civil.marchYear + 1 := by
    rw [hyear]
    split
    · exact Or.inr rfl
    · exact Or.inl rfl
  have hdoe0 : 0 ≤ civil.doe ∧ civil.doe < 146097 := by omega
  have hyoe0 : 0 ≤ civil.yoe ∧ civil.yoe < 400 := by omega
  have hmp0 : 0 ≤ civil.mp ∧ civil.mp ≤ 11 := by omega
  -- nothing is negative: the truncating division is the other one
  simp only [Civil.values, Int.tdiv_eq_ediv_of_nonneg hdoe0.1, Int.tdiv_eq_ediv_of_nonneg hyoe0.1,
    Int.tdiv_eq_ediv_of_nonneg (show 0 ≤ 153 * civil.mp + 2 by omega), List.forall_mem_cons]
  clear hyear
  and_intros <;> first | omega | exact List.forall_mem_nil _

end CivilOf

/-- The three `i64`s are a date, and its number is the day they were
computed from. -/
theorem exists_date (days : Int) : ∃ d : Date, (civilFromDays days).year = d.year
    ∧ (civilFromDays days).month = d.month ∧ (civilFromDays days).day = d.day
    ∧ d.number = days := by
  obtain ⟨c, q, k, h⟩ := civilFromDays_spec days
  have hdays := h.days_eq
  obtain ⟨hmonth0, hmonth, hday0, hday, -⟩ := h.monthDay
  refine ⟨⟨(civilFromDays days).year, (civilFromDays days).month.toNat,
    (civilFromDays days).day.toNat, by omega, by omega, by omega, by omega⟩, rfl, ?_, ?_, ?_⟩
  · exact (Int.toNat_of_nonneg (by omega)).symm
  · exact (Int.toNat_of_nonneg (by omega)).symm
  · show _ + _ + (((civilFromDays days).day.toNat : Int) - 1) = days
    rw [Int.toNat_of_nonneg (by omega)]
    exact hdays

/-! ## The timestamp -/

def Timestamp.ofDateTime (t : DateTime) : Timestamp :=
  ⟨t.date.year, t.date.month, t.date.day, t.hour, t.minute, t.second⟩

theorem timestamp_eq_utc (secs : Nat) :
    timestamp secs = .ofDateTime (Gregorian.utc secs) := by
  obtain ⟨d, hyear, hmonth, hday, hnumber⟩ := exists_date (secs / 86400 : Nat)
  obtain rfl := Gregorian.eq_iterate hnumber
  rw [timestamp, hyear, hmonth, hday, Timestamp.ofDateTime, Timestamp.mk.injEq]
  refine ⟨rfl, rfl, rfl, ?_, ?_, ?_⟩
  all_goals
    simp only [Gregorian.utc]
    omega

/-! ## Reading it back -/

/-- A number up to the separator. -/
def readNumber (sep : Char) (text : List Char) : Option (Nat × List Char) :=
  match text.dropWhile (· != sep) with
  | [] => none
  | _ :: rest => some (Nat.ofDigitChars 10 (text.takeWhile (· != sep)) 0, rest)

def Timestamp.read (text : List Char) : Option Timestamp := do
  let (year, text) ← readNumber '-' text
  let (month, text) ← readNumber '-' text
  let (day, text) ← readNumber 'T' text
  let (hour, text) ← readNumber ':' text
  let (minute, text) ← readNumber ':' text
  let (second, text) ← readNumber 'Z' text
  if text = [] then some ⟨year, month, day, hour, minute, second⟩ else none

theorem zeroPadded_natCast (width n : Nat) :
    zeroPadded width n = (Nat.toDigits 10 n).leftpad width '0' := by
  rw [zeroPadded, if_neg (by omega), Int.natAbs_natCast]

theorem isDigit_of_mem_zeroPadded {width n : Nat} {c : Char} (h : c ∈ zeroPadded width n) :
    c.isDigit := by
  rw [zeroPadded_natCast, List.leftpad, List.mem_append] at h
  rcases h with h | h
  · rw [List.eq_of_mem_replicate h]
    rfl
  · exact Nat.isDigit_of_mem_toDigits (by decide) (by decide) h

theorem readNumber_zeroPadded {sep : Char} (hsep : sep.isDigit = false) (width n : Nat)
    (rest : List Char) : readNumber sep (zeroPadded width n ++ sep :: rest) = some (n, rest) := by
  have hdigits : ∀ c ∈ zeroPadded width n, (c != sep) = true := by
    intro c hc
    refine bne_iff_ne.mpr fun heq => ?_
    rw [← heq, isDigit_of_mem_zeroPadded hc] at hsep
    cases hsep
  have hvalue : Nat.ofDigitChars 10 (zeroPadded width n) 0 = n := by
    rw [zeroPadded_natCast, List.leftpad, Nat.ofDigitChars_append, Nat.ofDigitChars_replicate_zero,
      Nat.mul_zero, Nat.ofDigitChars_ten_toDigits]
  rw [readNumber, List.dropWhile_append_of_pos hdigits, List.takeWhile_append_of_pos hdigits,
    List.dropWhile_cons_of_neg (by simp), List.takeWhile_cons_of_neg (by simp), List.append_nil,
    hvalue]

theorem read_text {t : DateTime} (h : 0 ≤ t.date.year) :
    Timestamp.read (Timestamp.ofDateTime t).text = some (.ofDateTime t) := by
  obtain ⟨year, hyear⟩ := Int.eq_ofNat_of_zero_le h
  have hdash := @readNumber_zeroPadded '-' rfl
  have hT := @readNumber_zeroPadded 'T' rfl
  have hcolon := @readNumber_zeroPadded ':' rfl
  have hZ := @readNumber_zeroPadded 'Z' rfl
  simp only [Timestamp.read, Timestamp.text, Timestamp.ofDateTime, hyear, List.append_assoc,
    List.cons_append, hdash, hT, hcolon, hZ, Option.bind_eq_bind, Option.bind_some, if_true]

structure Timestamp.Valid (t : Timestamp) : Prop where
  month : 1 ≤ t.month ∧ t.month ≤ 12
  day : 1 ≤ t.day ∧ t.day ≤ monthLength (isLeap t.year) t.month.toNat
  time : t.hour < 24 ∧ t.minute < 60 ∧ t.second < 60

theorem Timestamp.valid_ofDateTime (t : DateTime) : (Timestamp.ofDateTime t).Valid where
  month := ⟨Int.ofNat_le.mpr t.date.month_pos, Int.ofNat_le.mpr t.date.month_le⟩
  day := ⟨Int.ofNat_le.mpr t.date.day_pos, Int.ofNat_le.mpr t.date.day_le⟩
  time := ⟨t.hour_lt, t.minute_lt, t.second_lt⟩

/-- What is printed is the calendar's date and time of the instant, and
the arithmetic stays in `i64`. -/
theorem nowRfc3339_calendar {secs : Nat} (h : secs < 2 ^ 64) :
    (∀ n ∈ (civilFromDays (secs / 86400 : Nat)).values, 0 ≤ n ∧ n < 2 ^ 63)
      ∧ Timestamp.read (nowRfc3339 (some secs)).toList = some (timestamp secs)
      ∧ (timestamp secs).Valid
      ∧ timestamp secs = .ofDateTime (Gregorian.utc secs)
      ∧ (Gregorian.utc secs).seconds = secs
      ∧ (Gregorian.utc (secs + 86400)).date = (Gregorian.utc secs).date.next := by
  refine ⟨?_, ?_, ?_, timestamp_eq_utc secs, Gregorian.utc_seconds secs, ?_⟩
  · obtain ⟨c, q, k, hcivil⟩ := civilFromDays_spec (secs / 86400 : Nat)
    exact hcivil.values_lt (by omega) (by omega)
  · rw [nowRfc3339, String.toList_ofList, Option.getD_some, timestamp_eq_utc]
    exact read_text (le_trans (by decide) (Gregorian.year_iterate _))
  · rw [timestamp_eq_utc]
    exact Timestamp.valid_ofDateTime _
  · rw [Gregorian.utc_next]

theorem nowRfc3339_calendar_leap_day :
    nowRfc3339 (some 951868799) = "2000-02-29T23:59:59Z"
      ∧ timestamp 951868799 = .ofDateTime (Gregorian.utc 951868799)
      ∧ (Gregorian.utc 951868799).seconds = 951868799 := by
  have h := @nowRfc3339_calendar 951868799 (by decide)
  exact ⟨by decide +kernel, h.2.2.2.1, h.2.2.2.2.1⟩

end Dragomand

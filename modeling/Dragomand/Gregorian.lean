import Mathlib.Algebra.BigOperators.Intervals
import Mathlib.Algebra.Order.BigOperators.Group.Finset

/-!
# The proleptic Gregorian calendar

Dates are told by their rule alone: a month has its length, a leap year
one day more, and `Date.next` is the day after. The calendar of the days
from 1970-01-01 on is `Date.next` iterated (`utc`).

`Date.number` counts the days from that first one; it is what an algorithm
computes with. It goes up by one from day to day (`number_next`) and
tells dates apart (`number_injective`), so a date with number `n` is the
one the calendar arrives at after `n` days (`eq_iterate`).
-/

namespace Gregorian

def isLeap (year : Int) : Bool :=
  year % 4 = 0 && (year % 100 ≠ 0 || year % 400 = 0)

def monthLength (leap : Bool) : Nat → Nat
  | 2 => if leap then 29 else 28
  | 4 | 6 | 9 | 11 => 30
  | _ => 31

theorem monthLength_pos (leap : Bool) (month : Nat) : 1 ≤ monthLength leap month := by
  unfold monthLength
  split
  · split <;> decide
  all_goals decide

theorem monthLength_le (leap : Bool) (month : Nat) : monthLength leap month ≤ 31 := by
  unfold monthLength
  split
  · split <;> decide
  all_goals decide

@[ext] structure Date where
  year : Int
  month : Nat
  day : Nat
  month_pos : 1 ≤ month
  month_le : month ≤ 12
  day_pos : 1 ≤ day
  day_le : day ≤ monthLength (isLeap year) month
deriving DecidableEq

/-- 1970-01-01. -/
def epoch : Date where
  year := 1970
  month := 1
  day := 1
  month_pos := Nat.le_refl 1
  month_le := Nat.le_add_left 1 11
  day_pos := Nat.le_refl 1
  day_le := monthLength_pos _ _

/-- The day after. -/
def Date.next (d : Date) : Date :=
  if h : d.day < monthLength (isLeap d.year) d.month then
    ⟨d.year, d.month, d.day + 1, d.month_pos, d.month_le, Nat.le_add_left 1 d.day, h⟩
  else if h : d.month < 12 then
    ⟨d.year, d.month + 1, 1, Nat.le_add_left 1 d.month, h, Nat.le_refl 1, monthLength_pos _ _⟩
  else
    ⟨d.year + 1, 1, 1, Nat.le_refl 1, Nat.le_add_left 1 11, Nat.le_refl 1, monthLength_pos _ _⟩

/-! ## Counting days -/

/-- The days of the months before. -/
def daysBeforeMonth (leap : Bool) (month : Nat) : Nat :=
  ∑ m ∈ Finset.Ico 1 month, monthLength leap m

/-- The days from the start of 1970 to the start of the year. -/
def daysBeforeYear (year : Int) : Int :=
  365 * (year - 1970) + ((year - 1) / 4 - (year - 1) / 100 + (year - 1) / 400) - 477

/-- The days since 1970-01-01, negative before it. -/
def Date.number (d : Date) : Int :=
  daysBeforeYear d.year + daysBeforeMonth (isLeap d.year) d.month + (d.day - 1)

theorem daysBeforeMonth_succ (leap : Bool) {month : Nat} (h : 1 ≤ month) :
    daysBeforeMonth leap (month + 1) = daysBeforeMonth leap month + monthLength leap month :=
  Finset.sum_Ico_succ_top h _

theorem daysBeforeMonth_mono (leap : Bool) : Monotone (daysBeforeMonth leap) :=
  fun _ _ h => Finset.sum_le_sum_of_subset (Finset.Ico_subset_Ico_right h)

theorem daysBeforeMonth_year : ∀ leap, daysBeforeMonth leap 13 = if leap then 366 else 365 := by
  decide

theorem daysBeforeYear_succ (year : Int) :
    daysBeforeYear (year + 1) = daysBeforeYear year + daysBeforeMonth (isLeap year) 13 := by
  rw [daysBeforeMonth_year]
  unfold daysBeforeYear
  cases hleap : isLeap year with
  | true =>
      simp only [isLeap, Bool.and_eq_true, Bool.or_eq_true, decide_eq_true_eq] at hleap
      simp only [if_true]
      omega
  | false =>
      simp only [isLeap, Bool.and_eq_false_iff, Bool.or_eq_false_iff,
        decide_eq_false_iff_not] at hleap
      simp only [Bool.false_eq_true, if_false]
      omega

theorem daysBeforeYear_le {year year' : Int} (h : year ≤ year') :
    daysBeforeYear year ≤ daysBeforeYear year' := by
  unfold daysBeforeYear
  omega

theorem number_epoch : epoch.number = 0 := by decide

theorem number_next (d : Date) : d.next.number = d.number + 1 := by
  have hday := d.day_le
  unfold Date.next
  split
  · rename_i h
    simp only [Date.number]
    omega
  · rename_i hlast
    have hsucc := daysBeforeMonth_succ (isLeap d.year) d.month_pos
    have hday_pos := d.day_pos
    split
    · simp only [Date.number]
      omega
    · have hmonth : d.month = 12 := by
        have := d.month_le
        omega
      rw [hmonth] at hsucc hlast hday
      change daysBeforeMonth (isLeap d.year) 13 = _ at hsucc
      have hfirst : daysBeforeMonth (isLeap (d.year + 1)) 1 = 0 := rfl
      simp only [Date.number, daysBeforeYear_succ, hfirst, hmonth]
      omega

/-- No day comes after the last of its year. -/
theorem dayOfYear_le (d : Date) :
    daysBeforeMonth (isLeap d.year) d.month + d.day ≤ daysBeforeMonth (isLeap d.year) 13 := by
  have hmono : daysBeforeMonth (isLeap d.year) (d.month + 1) ≤ daysBeforeMonth (isLeap d.year) 13 :=
    daysBeforeMonth_mono (isLeap d.year) (Nat.succ_le_succ d.month_le)
  rw [daysBeforeMonth_succ _ d.month_pos] at hmono
  have := d.day_le
  omega

theorem number_lt_of_year_lt {d d' : Date} (h : d.year < d'.year) : d.number < d'.number := by
  have hyear := daysBeforeYear_le (Int.add_one_le_of_lt h)
  rw [daysBeforeYear_succ] at hyear
  have := dayOfYear_le d
  have := d'.day_pos
  unfold Date.number
  omega

theorem number_lt_of_month_lt {d d' : Date} (hyear : d.year = d'.year) (h : d.month < d'.month) :
    d.number < d'.number := by
  have hmonth := daysBeforeMonth_mono (isLeap d.year) (Nat.succ_le_of_lt h)
  rw [Nat.succ_eq_add_one, daysBeforeMonth_succ _ d.month_pos] at hmonth
  have := d.day_le
  have := d'.day_pos
  unfold Date.number
  rw [← hyear]
  omega

theorem number_injective : Function.Injective Date.number := by
  intro d d' h
  have hyear : d.year = d'.year := by
    rcases Int.lt_trichotomy d.year d'.year with hlt | heq | hlt
    · exact absurd h (Int.ne_of_lt (number_lt_of_year_lt hlt))
    · exact heq
    · exact absurd h.symm (Int.ne_of_lt (number_lt_of_year_lt hlt))
  have hmonth : d.month = d'.month := by
    rcases Nat.lt_trichotomy d.month d'.month with hlt | heq | hlt
    · exact absurd h (Int.ne_of_lt (number_lt_of_month_lt hyear hlt))
    · exact heq
    · exact absurd h.symm (Int.ne_of_lt (number_lt_of_month_lt hyear.symm hlt))
  refine Date.ext hyear hmonth ?_
  unfold Date.number at h
  rw [hyear, hmonth] at h
  omega

theorem number_iterate (n : Nat) : (Date.next^[n] epoch).number = n := by
  induction n with
  | zero => exact number_epoch
  | succ n ih =>
      rw [Function.iterate_succ_apply', number_next, ih]
      rfl

theorem eq_iterate {d : Date} {n : Nat} (h : d.number = n) : d = Date.next^[n] epoch :=
  number_injective (h.trans (number_iterate n).symm)

theorem year_le_next (d : Date) : d.year ≤ d.next.year := by
  unfold Date.next
  split
  · exact Int.le_refl _
  · split
    · exact Int.le_refl _
    · exact Int.le_add_one (Int.le_refl _)

theorem year_iterate (n : Nat) : 1970 ≤ (Date.next^[n] epoch).year := by
  induction n with
  | zero => exact Int.le_refl _
  | succ n ih =>
      rw [Function.iterate_succ_apply']
      exact ih.trans (year_le_next _)

/-! ## Date and time -/

@[ext] structure DateTime where
  date : Date
  hour : Nat
  minute : Nat
  second : Nat
  hour_lt : hour < 24
  minute_lt : minute < 60
  second_lt : second < 60
deriving DecidableEq

/-- The seconds since the start of 1970, with 86400 to every day. -/
def DateTime.seconds (t : DateTime) : Int :=
  t.date.number * 86400 + (t.hour * 3600 + t.minute * 60 + t.second)

/-- `secs` seconds after the start of 1970. -/
def utc (secs : Nat) : DateTime where
  date := Date.next^[secs / 86400] epoch
  hour := secs / 3600 % 24
  minute := secs / 60 % 60
  second := secs % 60
  hour_lt := Nat.mod_lt _ (Nat.succ_pos 23)
  minute_lt := Nat.mod_lt _ (Nat.succ_pos 59)
  second_lt := Nat.mod_lt _ (Nat.succ_pos 59)

theorem utc_seconds (secs : Nat) : (utc secs).seconds = secs := by
  simp only [DateTime.seconds, utc, number_iterate]
  omega

/-- The same time on the next day. -/
theorem utc_next (secs : Nat) :
    utc (secs + 86400) = { utc secs with date := (utc secs).date.next } := by
  have hdate : (secs + 86400) / 86400 = secs / 86400 + 1 := by omega
  refine DateTime.ext ?_ ?_ ?_ ?_
  · simp only [utc, hdate, Function.iterate_succ_apply']
  all_goals
    simp only [utc]
    omega

end Gregorian

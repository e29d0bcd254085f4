import Mathlib.Algebra.BigOperators.Intervals
import Mathlib.Tactic

/-!
The Gregorian calendar from 1970 on: the days of the months and years, and the moments, each a
well-formed date with a time of day. A number of seconds is that of one moment only.
-/

namespace Coherent.Lib.Gregorian

open Finset

def Leap (y : ℕ) : Prop := y % 4 = 0 ∧ (y % 100 ≠ 0 ∨ y % 400 = 0)

instance (y : ℕ) : Decidable (Leap y) := inferInstanceAs (Decidable (_ ∧ _))

def yearlen (y : ℕ) : ℕ := if Leap y then 366 else 365

/-- The length of a month, where January is month 0. -/
def monthlen (y m : ℕ) : ℕ :=
  match m with
  | 1 => if Leap y then 29 else 28
  | 3 | 5 | 8 | 10 => 30
  | _ => 31

/-- The days in front of a month of a year. -/
def monthstart (y m : ℕ) : ℕ := ∑ k ∈ range m, monthlen y k

/-- The days in front of a year. -/
def yearstart (y : ℕ) : ℕ := ∑ k ∈ Ico 1970 y, yearlen k

/-- The number of a day, where 1970-01-01 is day 0. -/
def dayno (y m d : ℕ) : ℕ := yearstart y + monthstart y m + (d - 1)

/-- The weekday, where 0 is Sunday: the first day was a Thursday. -/
def weekday (n : ℕ) : ℕ := (4 + n) % 7

/-- A second of a date. -/
@[ext]
structure Moment where
  year : ℕ
  mon : ℕ
  day : ℕ
  hour : ℕ
  min : ℕ
  sec : ℕ
  epoch : 1970 ≤ year
  mon_lt : mon < 12
  day_pos : 1 ≤ day
  day_le : day ≤ monthlen year mon
  hour_lt : hour < 24
  min_lt : min < 60
  sec_lt : sec < 60

variable {y y' m m' d d' : ℕ}

lemma yearlen_pos (y : ℕ) : 365 ≤ yearlen y := by
  unfold yearlen
  split <;> omega

lemma monthlen_pos (y m : ℕ) : 28 ≤ monthlen y m := by
  unfold monthlen
  split <;> first | omega | (split <;> omega)

@[simp] lemma monthstart_zero (y : ℕ) : monthstart y 0 = 0 := rfl

lemma monthstart_succ (y m : ℕ) : monthstart y (m + 1) = monthstart y m + monthlen y m :=
  sum_range_succ _ _

lemma monthstart_mono (y : ℕ) : Monotone (monthstart y) :=
  monotone_nat_of_le_succ fun m => by rw [monthstart_succ]; exact Nat.le_add_right _ _

/-- The months make up the year. -/
lemma monthstart_twelve (y : ℕ) : monthstart y 12 = yearlen y := by
  unfold monthstart yearlen
  by_cases h : Leap y <;> simp [sum_range_succ, monthlen, h]

@[simp] lemma yearstart_epoch : yearstart 1970 = 0 := rfl

lemma yearstart_succ (h : 1970 ≤ y) : yearstart (y + 1) = yearstart y + yearlen y :=
  sum_Ico_succ_top h _

lemma yearstart_mono (h : y ≤ y') : yearstart y ≤ yearstart y' :=
  sum_le_sum_of_subset (Ico_subset_Ico_right h)

namespace Moment

variable (M : Moment)

/-- The day of the year. -/
def yday : ℕ := monthstart M.year M.mon + (M.day - 1)

def days : ℕ := dayno M.year M.mon M.day

/-- The seconds since 1970-01-01 00:00. -/
def secs : ℕ := M.days * 86400 + M.hour * 3600 + M.min * 60 + M.sec

lemma days_eq : M.days = yearstart M.year + M.yday := Nat.add_assoc _ _ _

lemma yday_lt_next : M.yday < monthstart M.year (M.mon + 1) := by
  have h1 := M.day_pos
  have h2 := M.day_le
  rw [monthstart_succ, yday]
  omega

lemma yday_lt : M.yday < yearlen M.year := by
  rw [← monthstart_twelve]
  exact M.yday_lt_next.trans_le (monthstart_mono _ M.mon_lt)

lemma secs_div : M.secs / 86400 = M.days := by
  have h1 := M.hour_lt
  have h2 := M.min_lt
  have h3 := M.sec_lt
  unfold secs
  omega

variable {M} {N : Moment}

lemma year_le (h : M.days = N.days) : N.year ≤ M.year := by
  by_contra hlt
  have h1 : yearstart (M.year + 1) ≤ yearstart N.year := yearstart_mono (by omega)
  have h2 := M.yday_lt
  rw [yearstart_succ M.epoch] at h1
  rw [days_eq, days_eq] at h
  omega

lemma mon_le (hy : M.year = N.year) (h : M.yday = N.yday) : N.mon ≤ M.mon := by
  by_contra hlt
  have h1 := monthstart_mono M.year (show M.mon + 1 ≤ N.mon by omega)
  have h2 := M.yday_lt_next
  have h3 : N.yday = monthstart M.year N.mon + (N.day - 1) := by rw [hy, yday]
  omega

/-- **A number of seconds is that of one moment.** -/
theorem secs_injective : Function.Injective secs := by
  intro M N h
  have hd : M.days = N.days := by rw [← secs_div, ← secs_div, h]
  have hy : M.year = N.year := le_antisymm (year_le hd.symm) (year_le hd)
  have hyd : M.yday = N.yday := by
    rw [days_eq, days_eq, hy] at hd
    omega
  have hm : M.mon = N.mon := le_antisymm (mon_le hy.symm hyd.symm) (mon_le hy hyd)
  have hday : M.day = N.day := by
    have h1 := M.day_pos
    have h2 := N.day_pos
    rw [yday, yday, hy, hm] at hyd
    omega
  have h1 := M.min_lt
  have h2 := M.sec_lt
  have h3 := N.min_lt
  have h4 := N.sec_lt
  unfold secs at h
  rw [hd] at h
  ext
  · exact hy
  · exact hm
  · exact hday
  all_goals omega

/-! ### Before and after a month -/

/-- The seconds in front of a month. -/
def monthsecs (y m : ℕ) : ℕ := (yearstart y + monthstart y m) * 86400

lemma monthsecs_le (h : m ≤ M.mon) : monthsecs M.year m ≤ M.secs := by
  have h1 := monthstart_mono M.year h
  unfold monthsecs secs
  rw [days_eq, yday]
  omega

lemma secs_lt_monthsecs (h : M.mon < m) : M.secs < monthsecs M.year m := by
  have h1 := monthstart_mono M.year (show M.mon + 1 ≤ m by omega)
  have h2 := M.yday_lt_next
  have h3 := M.hour_lt
  have h4 := M.min_lt
  have h5 := M.sec_lt
  unfold monthsecs secs
  rw [days_eq]
  omega

end Moment

end Coherent.Lib.Gregorian

import Coherent.Lib.Gregorian
import Coherent.Lib.While

/-!
`gmtime` and `localtime` of `ctime.c`.

A long has 32 bits and an int 16; `days` is unsigned. `gmtime` counts the days down over the years
and then over the months, and sets the length of February in the table `dpm`. `localtime` adds the
daylight adjustment to what `gmtime` has left.
-/

namespace Coherent.Ctime

open Lib Lib.Gregorian

/-! ### The code -/

@[ext]
structure Tm where
  tm_sec : ℤ
  tm_min : ℤ
  tm_hour : ℤ
  tm_mday : ℤ
  tm_mon : ℤ
  tm_year : ℤ
  tm_wday : ℤ
  tm_yday : ℤ
  tm_isdst : ℤ
  deriving DecidableEq

/-- The static data: `tm`, and `dpm[FEB]`. -/
structure Static where
  tm : Tm
  feb : ℕ
  deriving DecidableEq

/-- The days per month. -/
def dpm (feb m : ℕ) : ℕ := ([31, feb, 31, 30, 31, 30, 31, 31, 30, 31, 30, 31][m]?).getD 0

def isleap (yr : ℕ) : Bool :=
  if yr % 4000 = 0 then false else yr % 400 = 0 || (yr % 100 ≠ 0 && yr % 4 = 0)

def ydays (year : ℕ) : ℕ := if isleap year then 366 else 365

/-- The loop over the years, on the year and the days. -/
def countyears (days : ℕ) : ℕ × ℕ :=
  whileDo (fun x => ydays x.1 ≤ x.2) (fun x => (x.1 + 1, x.2 - ydays x.1)) days (1970, days)

/-- The loop over the months, on the month and the days. -/
def countmonths (feb days : ℕ) : ℕ × ℕ :=
  whileDo (fun x => x.1 < 12 && dpm feb x.1 ≤ x.2) (fun x => (x.1 + 1, x.2 - dpm feb x.1)) 12
    (0, days)

def gmtime (s : Static) (t : ℤ) : Static :=
  let xtime := (if t < 0 then 0 else t).toNat
  let days := xtime / 86400 % 65536
  let secs := xtime % 86400
  let y := countyears days
  let feb := if isleap y.1 then 29 else 28
  let m := countmonths feb y.2
  { tm :=
      { tm_sec := secs % 3600 % 60
        tm_min := secs % 3600 / 60
        tm_hour := secs / 3600
        tm_mday := m.2 + 1
        tm_mon := m.1
        tm_year := y.1 - 1900
        tm_wday := (4 + days) % 65536 % 7
        tm_yday := y.2
        tm_isdst := s.tm.tm_isdst }
    feb := feb }

structure dsttimes where
  dst_month : ℤ
  dst_day : ℤ
  dst_occur : ℤ

/-- What `settz` sets. -/
structure Zone where
  timezone : ℤ
  /-- The name of the daylight time. -/
  tzname1 : List Char
  start : dsttimes
  stop : dsttimes
  dsthour : ℤ
  dstadjust : ℤ
  fits : -32768 ≤ dstadjust ∧ dstadjust < 32768

/-- The day of the month `s` is in that is the `dst_occur`-th of its weekday. -/
def nthday (s : Static) (dp : dsttimes) : ℤ :=
  let nthday := s.tm.tm_mday - s.tm.tm_wday + dp.dst_day
  let len : ℤ := dpm s.feb s.tm.tm_mon.toNat
  if 0 < dp.dst_occur then
    whileDo (fun x : ℤ => 0 < x) (· - 7) nthday.toNat nthday + 7 * dp.dst_occur
  else
    whileDo (fun x : ℤ => x < len) (· + 7) (len - nthday).toNat nthday -
      7 * max 1 (-dp.dst_occur)

/-- An int. -/
def int (x : ℤ) : ℤ := Int.bmod x 65536

def isdaylight (z : Zone) (s : Static) : Bool :=
  if z.tzname1 = [] then false
  else if s.tm.tm_mon < z.start.dst_month then false
  else if s.tm.tm_mon = z.start.dst_month then
    let xday := nthday s z.start
    if s.tm.tm_mday ≠ xday then xday < s.tm.tm_mday else z.dsthour ≤ s.tm.tm_hour
  else if s.tm.tm_mon < z.stop.dst_month then true
  else if s.tm.tm_mon = z.stop.dst_month then
    let xday := nthday s z.stop
    if s.tm.tm_mday ≠ xday then s.tm.tm_mday < xday else s.tm.tm_hour < int (z.dsthour - 1)
  else false

/-- The minutes are carried to the hours, and the hours to the day and the month. -/
def carry (s : Static) (dstadjust : ℤ) : Tm :=
  let min := int (s.tm.tm_min + dstadjust)
  let x := whileDo (fun x : ℤ × ℤ => 60 ≤ x.1) (fun x => (x.1 - 60, x.2 + 1)) min.toNat
    (min, s.tm.tm_hour)
  let tm : Tm :=
    { s.tm with
      tm_min := x.1
      tm_hour := x.2
      tm_isdst := 1 }
  if 23 < tm.tm_hour then
    let tm : Tm :=
      { tm with
        tm_hour := tm.tm_hour - 24
        tm_wday := (tm.tm_wday + 8) % 7
        tm_yday := tm.tm_yday + 1
        tm_mday := tm.tm_mday + 1 }
    if (dpm s.feb tm.tm_mon.toNat : ℤ) < tm.tm_mday then
      { tm with
        tm_mday := 1
        tm_mon := tm.tm_mon + 1 }
    else tm
  else tm

/-- `*tp - timezone` -/
def ltime (z : Zone) (tp : ℤ) : ℤ := Int.bmod (tp - z.timezone) 4294967296

def localtime (z : Zone) (s : Static) (tp : ℤ) : Static :=
  let s := gmtime s (ltime z tp)
  if isdaylight z s then { s with tm := carry s z.dstadjust }
  else { s with tm := { s.tm with tm_isdst := 0 } }

/-! ### Greenwich time -/

/-- What `tm` says at a moment. -/
def tmOf (M : Moment) (isdst : ℤ) : Tm where
  tm_sec := M.sec
  tm_min := M.min
  tm_hour := M.hour
  tm_mday := M.day
  tm_mon := M.mon
  tm_year := M.year - 1900
  tm_wday := weekday M.days
  tm_yday := M.yday
  tm_isdst := isdst

variable {y d n : ℕ}

lemma isleap_iff (hy : 1970 ≤ y) (h : y < 4000) : isleap y = true ↔ Leap y := by
  rw [isleap, if_neg (by omega)]
  simp only [Leap, Bool.or_eq_true, Bool.and_eq_true, decide_eq_true_eq]
  omega

lemma ydays_eq (hy : 1970 ≤ y) (h : y < 4000) : ydays y = yearlen y :=
  if_congr (isleap_iff hy h) rfl rfl

/-- The years from 1970 on take at least 365 days each, so that the count ends before 4000. -/
lemma countyears_spec (hn : n < 65536) :
    ∃ y d, countyears n = (y, d) ∧ 1970 ≤ y ∧ y < 4000 ∧ yearstart y + d = n ∧ d < yearlen y := by
  have hI : (1970 ≤ (countyears n).1 ∧ 365 * ((countyears n).1 - 1970) + (countyears n).2 ≤ n ∧
      yearstart (countyears n).1 + (countyears n).2 = n) ∧
        decide (ydays (countyears n).1 ≤ (countyears n).2) = false := by
    refine whileDo_rule (I := fun x : ℕ × ℕ => 1970 ≤ x.1 ∧ 365 * (x.1 - 1970) + x.2 ≤ n ∧
      yearstart x.1 + x.2 = n) (fun x => x.2) ⟨le_rfl, by simp, by simp⟩ le_rfl ?_
    rintro ⟨y, d⟩ ⟨h1, h2, h3⟩ hc
    dsimp only at h1 h2 h3 hc ⊢
    have hle : ydays y ≤ d := of_decide_eq_true hc
    rw [ydays_eq h1 (by omega)] at hle ⊢
    have hpos := yearlen_pos y
    rw [yearstart_succ h1]
    omega
  rcases hc : countyears n with ⟨y, d⟩
  rw [hc] at hI
  obtain ⟨⟨h1, h2, h3⟩, h4⟩ := hI
  dsimp only at h1 h2 h3 h4
  have hy : y < 4000 := by omega
  have hd : ¬ ydays y ≤ d := of_decide_eq_false h4
  rw [ydays_eq h1 hy] at hd
  exact ⟨y, d, rfl, h1, hy, h3, by omega⟩

lemma dpm_eq (y : ℕ) {m : ℕ} (hm : m < 12) : dpm (monthlen y 1) m = monthlen y m := by
  interval_cases m <;> rfl

/-- Twelve months hold the days of the year. -/
lemma countmonths_spec (hd : d < yearlen y) :
    ∃ m r, countmonths (monthlen y 1) d = (m, r) ∧ m < 12 ∧ monthstart y m + r = d ∧
      r < monthlen y m := by
  have hI : ((countmonths (monthlen y 1) d).1 ≤ 12 ∧
      monthstart y (countmonths (monthlen y 1) d).1 + (countmonths (monthlen y 1) d).2 = d) ∧
        (decide ((countmonths (monthlen y 1) d).1 < 12) && decide
          (dpm (monthlen y 1) (countmonths (monthlen y 1) d).1 ≤
            (countmonths (monthlen y 1) d).2)) = false := by
    refine whileDo_rule (I := fun x : ℕ × ℕ => x.1 ≤ 12 ∧ monthstart y x.1 + x.2 = d)
      (fun x => 12 - x.1) ⟨by simp, by simp⟩ le_rfl ?_
    rintro ⟨m, r⟩ ⟨h1, h2⟩ hc
    dsimp only at h1 h2 hc ⊢
    rw [Bool.and_eq_true, decide_eq_true_eq, decide_eq_true_eq] at hc
    rw [dpm_eq y hc.1] at hc ⊢
    rw [monthstart_succ]
    omega
  rcases hc : countmonths (monthlen y 1) d with ⟨m, r⟩
  rw [hc] at hI
  obtain ⟨⟨h1, h2⟩, h3⟩ := hI
  dsimp only at h1 h2 h3
  have hm : m < 12 := by
    by_contra hm
    obtain rfl : m = 12 := by omega
    rw [monthstart_twelve] at h2
    omega
  rw [dpm_eq y hm, decide_eq_true hm, Bool.true_and] at h3
  exact ⟨m, r, rfl, hm, h2, by simpa using h3⟩

/-- **`gmtime` finds the moment of a time.** -/
theorem gmtime_spec (s : Static) {t : ℤ} (h0 : 0 ≤ t) (ht : t < 2147483648) :
    ∃ M : Moment, (M.secs : ℤ) = t ∧ gmtime s t = ⟨tmOf M s.tm.tm_isdst, monthlen M.year 1⟩ := by
  obtain ⟨t, rfl⟩ := Int.eq_ofNat_of_zero_le h0
  obtain ⟨y, d, hy, hy0, hy1, hd, hdl⟩ := countyears_spec (n := t / 86400) (by omega)
  obtain ⟨m, r, hm, hm0, hr, hrl⟩ := countmonths_spec hdl
  have hfeb : (if isleap y then 29 else 28) = monthlen y 1 := if_congr (isleap_iff hy0 hy1) rfl rfl
  let M : Moment :=
    { year := y
      mon := m
      day := r + 1
      hour := t % 86400 / 3600
      min := t % 86400 % 3600 / 60
      sec := t % 86400 % 3600 % 60
      epoch := hy0
      mon_lt := hm0
      day_pos := by omega
      day_le := hrl
      hour_lt := by omega
      min_lt := by omega
      sec_lt := by omega }
  have hyd : M.yday = d := by
    change monthstart y m + (r + 1 - 1) = d
    omega
  have hdays : M.days = t / 86400 := by
    rw [M.days_eq, hyd]
    exact hd
  refine ⟨M, ?_, ?_⟩
  · have hs : M.secs = M.days * 86400 + t % 86400 / 3600 * 3600 + t % 86400 % 3600 / 60 * 60 +
        t % 86400 % 3600 % 60 := rfl
    rw [hs, hdays]
    omega
  · have hx : (if (t : ℤ) < 0 then (0 : ℤ) else t).toNat = t := by
      rw [if_neg (by omega)]
      exact Int.toNat_natCast t
    have h16 : t / 86400 % 65536 = t / 86400 := by omega
    have hw : (4 + t / 86400) % 65536 % 7 = weekday (t / 86400) := by
      unfold weekday
      omega
    simp only [gmtime, hx, h16, hy, hfeb, hm, tmOf, hyd, hdays]
    rw [← hw]
    push_cast [M]
    rfl

/-- The date of a time is the only one. -/
theorem moment_unique {M N : Moment} {t : ℤ} (hM : (M.secs : ℤ) = t) (hN : (N.secs : ℤ) = t) :
    M = N :=
  Moment.secs_injective (Int.ofNat_inj.mp (hM.trans hN.symm))

end Coherent.Ctime

import Coherent.Ctime

/-!
Daylight time: when `localtime` gives the local date.

A setting names a weekday of a month at which daylight time starts, and one at which it stops.
Counted from the end of the month the code misses the last day; it stops an hour, not the
adjustment, before the hour in standard time; and it carries to the month, but not to the year.
-/

namespace Coherent.Ctime

open Lib Lib.Gregorian

/-- Day `d` of month `m` is the one that the setting names, the last one being number -1. -/
structure NthDay (y : ℕ) (dp : dsttimes) (m d : ℕ) : Prop where
  mon : dp.dst_month = m
  mon_lt : m < 12
  pos : 1 ≤ d
  le : d ≤ monthlen y m
  day : (weekday (dayno y m d) : ℤ) = dp.dst_day
  nth : if 0 < dp.dst_occur then 7 * (dp.dst_occur - 1) < d ∧ d ≤ 7 * dp.dst_occur
    else 7 * (-dp.dst_occur - 1) < (monthlen y m : ℤ) - d + 1 ∧
      (monthlen y m : ℤ) - d + 1 ≤ 7 * -dp.dst_occur

/-- A second of a day of a month, for any number of the day. -/
def instant (y m : ℕ) (d h : ℤ) : ℤ := Moment.monthsecs y m + (d - 1) * 86400 + h * 3600

/-- Daylight time starts, in standard time. -/
def starts (z : Zone) (y m d : ℕ) : ℤ := instant y m d z.dsthour

/-- Daylight time stops, in standard time: the hour is one of daylight time. -/
def stops (z : Zone) (y m d : ℕ) : ℤ := instant y m d z.dsthour - z.dstadjust * 60

/-- `localtime` gives the date of the local standard time, moved by the adjustment if `tm_isdst` is
set, and it is set between the two times of the year. -/
structure Right (z : Zone) (s : Static) (tp : ℤ) (y m₁ d₁ m₂ d₂ : ℕ) : Prop where
  date : ∃ N : Moment, (N.secs : ℤ) = ltime z tp +
      (if (localtime z s tp).tm.tm_isdst = 1 then z.dstadjust * 60 else 0) ∧
    (localtime z s tp).tm = tmOf N (localtime z s tp).tm.tm_isdst
  isdst : (localtime z s tp).tm.tm_isdst =
    if z.tzname1 ≠ [] ∧ starts z y m₁ d₁ ≤ ltime z tp ∧ ltime z tp < stops z y m₂ d₂ then 1 else 0

/-! ### Where the code turns -/

/-- The day the code finds: a week too early, where the month ends on the weekday. -/
def found (y : ℕ) (dp : dsttimes) (m d : ℕ) : ℤ :=
  if dp.dst_occur < 0 ∧ (weekday (dayno y m (monthlen y m)) : ℤ) = dp.dst_day then d - 7 else d

/-- The time from which on the code takes it to be past a day and an hour: within the month, and
within the day. -/
def turn (y m : ℕ) (x h : ℤ) : ℤ :=
  if x < 1 then Moment.monthsecs y m else instant y m x (max 0 (min 24 h))

def codeStarts (z : Zone) (y m d : ℕ) : ℤ := turn y m (found y z.start m d) z.dsthour

def codeStops (z : Zone) (y m d : ℕ) : ℤ := turn y m (found y z.stop m d) (int (z.dsthour - 1))

/-- The adjustment reaches the same day or the next, and not the next year. -/
def Carries (z : Zone) (M : Moment) : Prop :=
  0 ≤ M.min + z.dstadjust ∧ M.hour * 60 + M.min + z.dstadjust < 2880 ∧
    (M.hour * 60 + M.min + z.dstadjust < 1440 ∨ ¬ (M.mon = 11 ∧ M.day = 31))

/-- The times at which the code agrees with the setting. -/
structure Clear (z : Zone) (M : Moment) (m₁ d₁ m₂ d₂ : ℕ) : Prop where
  /-- Not after the start of the code and before that of the setting. -/
  startEarly : ¬ (codeStarts z M.year m₁ d₁ ≤ M.secs ∧ M.secs < codeStops z M.year m₂ d₂ ∧
    M.secs < starts z M.year m₁ d₁)
  /-- Not the other way round. -/
  startLate : ¬ (starts z M.year m₁ d₁ ≤ M.secs ∧ M.secs < stops z M.year m₂ d₂ ∧
    M.secs < codeStarts z M.year m₁ d₁)
  /-- Not after the end of the setting and before that of the code. -/
  stopLate : ¬ (codeStarts z M.year m₁ d₁ ≤ M.secs ∧ M.secs < codeStops z M.year m₂ d₂ ∧
    stops z M.year m₂ d₂ ≤ M.secs)
  /-- Not the other way round. -/
  stopEarly : ¬ (starts z M.year m₁ d₁ ≤ M.secs ∧ M.secs < stops z M.year m₂ d₂ ∧
    codeStops z M.year m₂ d₂ ≤ M.secs)
  /-- In daylight time the adjustment can be carried. -/
  carries : starts z M.year m₁ d₁ ≤ M.secs → M.secs < stops z M.year m₂ d₂ → Carries z M

variable {z : Zone} {s : Static} {M N : Moment} {i : ℤ} {y m d : ℕ} {dp : dsttimes}

/-- What `gmtime` leaves at a moment. -/
def statOf (M : Moment) (i : ℤ) : Static := ⟨tmOf M i, monthlen M.year 1⟩

lemma down_spec {x : ℤ} (h : -7 < x) :
    ∃ r, whileDo (fun x : ℤ => 0 < x) (· - 7) x.toNat x = r ∧ r % 7 = x % 7 ∧ -7 < r ∧ r ≤ 0 := by
  have hI := whileDo_rule (c := fun x : ℤ => decide (0 < x)) (f := (· - 7))
    (I := fun r => r % 7 = x % 7 ∧ -7 < r) Int.toNat ⟨rfl, h⟩ le_rfl fun r hr hc => by
      have hc := of_decide_eq_true hc
      omega
  refine ⟨_, rfl, hI.1.1, hI.1.2, ?_⟩
  exact not_lt.mp (of_decide_eq_false hI.2)

lemma up_spec {x n : ℤ} (h : x < n + 7) :
    ∃ r, whileDo (fun x : ℤ => x < n) (· + 7) (n - x).toNat x = r ∧ r % 7 = x % 7 ∧ n ≤ r ∧
      r < n + 7 := by
  have hI := whileDo_rule (c := fun x : ℤ => decide (x < n)) (f := (· + 7))
    (I := fun r => r % 7 = x % 7 ∧ r < n + 7) (fun r => (n - r).toNat) ⟨rfl, h⟩ le_rfl
    fun r hr hc => by
      have hc := of_decide_eq_true hc
      omega
  refine ⟨_, rfl, hI.1.1, ?_, hI.1.2⟩
  exact not_lt.mp (of_decide_eq_false hI.2)

/-- **The search for the weekday** finds the day, or is a week early. -/
lemma nthday_spec (h : NthDay M.year dp M.mon d) :
    nthday (statOf M i) dp = found M.year dp M.mon d := by
  have hlen : ((dpm (monthlen M.year 1) (M.mon : ℤ).toNat : ℕ) : ℤ) = monthlen M.year M.mon := by
    rw [Int.toNat_natCast, dpm_eq _ M.mon_lt]
  have hmday := M.day_pos
  have hmle := M.day_le
  have hpos := h.pos
  have hle := h.le
  have hday := h.day
  have hnth := h.nth
  unfold nthday found
  simp only [statOf, tmOf, hlen]
  generalize hL : monthlen M.year M.mon = len at *
  have hw : (weekday M.days : ℤ) = (4 + (yearstart M.year + monthstart M.year M.mon : ℕ) +
      (M.day : ℤ) - 1) % 7 := by
    unfold weekday Moment.days dayno
    omega
  have hwd : (weekday (dayno M.year M.mon d) : ℤ) =
      (4 + (yearstart M.year + monthstart M.year M.mon : ℕ) + (d : ℤ) - 1) % 7 := by
    unfold weekday dayno
    omega
  have hwl : (weekday (dayno M.year M.mon len) : ℤ) =
      (4 + (yearstart M.year + monthstart M.year M.mon : ℕ) + (len : ℤ) - 1) % 7 := by
    unfold weekday dayno
    omega
  rw [hwl, ← hday, hwd, hw]
  generalize ((yearstart M.year + monthstart M.year M.mon : ℕ) : ℤ) = b
  by_cases hn : 0 < dp.dst_occur
  · rw [if_pos hn] at hnth ⊢
    obtain ⟨r, hr, h1, h2, h3⟩ := down_spec (x := (M.day : ℤ) - (4 + b + M.day - 1) % 7 +
      (4 + b + d - 1) % 7) (by omega)
    rw [hr, if_neg (by omega)]
    omega
  · rw [if_neg hn] at hnth ⊢
    obtain ⟨r, hr, h1, h2, h3⟩ := up_spec (n := len) (x := (M.day : ℤ) - (4 + b + M.day - 1) % 7 +
      (4 + b + d - 1) % 7) (by omega)
    rw [hr, max_eq_right (by omega)]
    by_cases hs : (4 + b + (len : ℤ) - 1) % 7 = (4 + b + d - 1) % 7
    · rw [if_pos ⟨by omega, hs⟩]
      omega
    · rw [if_neg fun h => hs h.2]
      omega

lemma secs_eq (M : Moment) : (M.secs : ℤ) = Moment.monthsecs M.year M.mon +
    ((M.day : ℤ) - 1) * 86400 + M.hour * 3600 + M.min * 60 + M.sec := by
  have h := M.day_pos
  unfold Moment.secs Moment.monthsecs Moment.days dayno
  push_cast
  omega

/-- The comparison of the code within a month. -/
lemma past_iff (x h : ℤ) :
    (if (M.day : ℤ) ≠ x then decide (x < M.day) else decide (h ≤ M.hour)) = true ↔
      turn M.year M.mon x h ≤ M.secs := by
  have h1 := M.day_pos
  have h2 := M.hour_lt
  have h3 := M.min_lt
  have h4 := M.sec_lt
  have hs := secs_eq M
  unfold turn instant
  by_cases hd : (M.day : ℤ) = x
  · rw [if_neg (not_not.mpr hd), if_neg (by omega), decide_eq_true_eq]
    omega
  · rw [if_pos hd, decide_eq_true_eq]
    split <;> omega

lemma not_past_iff (x h : ℤ) :
    (if (M.day : ℤ) ≠ x then decide (M.day < x) else decide (M.hour < h)) = true ↔
      M.secs < turn M.year M.mon x h := by
  refine Iff.trans ?_ not_le
  rw [← past_iff]
  by_cases hd : (M.day : ℤ) = x
  · rw [if_neg (not_not.mpr hd), if_neg (not_not.mpr hd), decide_eq_true_eq, decide_eq_true_eq,
      not_le]
  · rw [if_pos hd, if_pos hd, decide_eq_true_eq, decide_eq_true_eq]
    omega

lemma found_le (h : NthDay y dp m d) : found y dp m d ≤ monthlen y m := by
  have hle := h.le
  unfold found
  split <;> omega

lemma le_turn (y m : ℕ) (x h : ℤ) : (Moment.monthsecs y m : ℤ) ≤ turn y m x h := by
  unfold turn instant
  split <;> omega

lemma turn_le {x h : ℤ} (hx : x ≤ monthlen y m) : turn y m x h ≤ Moment.monthsecs y (m + 1) := by
  have hs : (Moment.monthsecs y (m + 1) : ℤ) = Moment.monthsecs y m + monthlen y m * 86400 := by
    unfold Moment.monthsecs
    rw [monthstart_succ]
    push_cast
    ring
  unfold turn instant
  split <;> omega

/-- Before its month the code is not there yet. -/
lemma lt_turn {x h : ℤ} (hm : M.mon < m) : (M.secs : ℤ) < turn M.year m x h :=
  (Int.ofNat_lt.mpr (Moment.secs_lt_monthsecs hm)).trans_le (le_turn _ _ _ _)

/-- After its month it is past. -/
lemma turn_le_secs {x h : ℤ} (hx : x ≤ monthlen M.year m) (hm : m < M.mon) :
    turn M.year m x h ≤ M.secs :=
  (turn_le hx).trans (Int.ofNat_le.mpr (Moment.monthsecs_le hm))

variable {m₁ d₁ m₂ d₂ : ℕ}

/-- **When the code takes it to be daylight time.** -/
theorem isdaylight_iff (h₁ : NthDay M.year z.start m₁ d₁) (h₂ : NthDay M.year z.stop m₂ d₂)
    (hm : m₁ < m₂) : isdaylight z (statOf M i) = true ↔ z.tzname1 ≠ [] ∧
      codeStarts z M.year m₁ d₁ ≤ M.secs ∧ M.secs < codeStops z M.year m₂ d₂ := by
  have hx₁ := found_le h₁
  have hx₂ := found_le h₂
  unfold isdaylight codeStarts codeStops
  by_cases hn : z.tzname1 = []
  · simp [hn]
  have hmon : (statOf M i).tm.tm_mon = M.mon := rfl
  have hday : (statOf M i).tm.tm_mday = M.day := rfl
  have hhour : (statOf M i).tm.tm_hour = M.hour := rfl
  rw [if_neg hn, hmon, hday, hhour, h₁.mon, h₂.mon]
  refine Iff.trans ?_ (and_iff_right hn).symm
  rcases lt_trichotomy M.mon m₁ with hlt | rfl | hgt
  · rw [if_pos (Int.ofNat_lt.mpr hlt)]
    have := lt_turn (x := found M.year z.start m₁ d₁) (h := z.dsthour) hlt
    simp only [Bool.false_eq_true, false_iff]
    omega
  · rw [if_neg (lt_irrefl _), if_pos rfl, nthday_spec h₁]
    have := lt_turn (x := found M.year z.stop m₂ d₂) (h := int (z.dsthour - 1)) hm
    rw [and_iff_left this]
    exact past_iff _ _
  · rw [if_neg (by omega), if_neg (by omega)]
    have hs := turn_le_secs (h := z.dsthour) hx₁ hgt
    rw [and_iff_right hs]
    rcases lt_trichotomy M.mon m₂ with hlt | rfl | hgt
    · rw [if_pos (Int.ofNat_lt.mpr hlt)]
      exact ⟨fun _ => lt_turn hlt, fun _ => rfl⟩
    · rw [if_neg (lt_irrefl _), if_pos rfl, nthday_spec h₂]
      exact not_past_iff _ _
    · rw [if_neg (by omega), if_neg (by omega)]
      have := turn_le_secs (h := int (z.dsthour - 1)) hx₂ hgt
      simp only [Bool.false_eq_true, false_iff]
      omega

/-! ### The carry -/

lemma minutes_spec (m h : ℤ) :
    whileDo (fun x : ℤ × ℤ => 60 ≤ x.1) (fun x => (x.1 - 60, x.2 + 1)) m.toNat (m, h) =
      if m < 0 then (m, h) else (m % 60, h + m / 60) := by
  have hI : ∀ x, whileDo (fun x : ℤ × ℤ => 60 ≤ x.1) (fun x => (x.1 - 60, x.2 + 1)) m.toNat (m, h)
      = x → (x.1 + 60 * x.2 = m + 60 * h ∧ (0 ≤ m → 0 ≤ x.1) ∧ (m < 0 → x.1 = m)) ∧ ¬ 60 ≤ x.1 := by
    rintro x rfl
    obtain ⟨h1, h2⟩ := whileDo_rule (c := fun x : ℤ × ℤ => decide (60 ≤ x.1))
      (f := fun x => (x.1 - 60, x.2 + 1)) (x := (m, h)) (n := m.toNat)
      (I := fun x => x.1 + 60 * x.2 = m + 60 * h ∧ (0 ≤ m → 0 ≤ x.1) ∧ (m < 0 → x.1 = m))
      (fun x => x.1.toNat) ⟨rfl, id, fun _ => rfl⟩ le_rfl fun x hx hc => by
        have hc : 60 ≤ x.1 := of_decide_eq_true hc
        dsimp only at hx ⊢
        omega
    exact ⟨h1, of_decide_eq_false h2⟩
  rcases hx : whileDo (fun x : ℤ × ℤ => 60 ≤ x.1) (fun x => (x.1 - 60, x.2 + 1)) m.toNat (m, h)
    with ⟨a, b⟩
  obtain ⟨⟨h1, h2, h3⟩, h4⟩ := hI _ hx
  dsimp only at h1 h2 h3 h4
  split <;> rw [Prod.mk.injEq] <;> omega

lemma int_of_fits {x : ℤ} (h : -32768 ≤ x) (h' : x < 32768) : int x = x := by
  unfold int Int.bmod
  dsimp only
  split <;> omega

lemma int_of_over {x : ℤ} (h : 32768 ≤ x) (h' : x < 65536) : int x < 0 := by
  unfold int Int.bmod
  dsimp only
  split <;> omega

/-- The minute and the hour that the carry works on. -/
lemma carry_eq (z : Zone) (M : Moment) (i : ℤ) {a b : ℤ}
    (h : (if int (M.min + z.dstadjust) < 0 then (int (M.min + z.dstadjust), (M.hour : ℤ))
      else (int (M.min + z.dstadjust) % 60, M.hour + int (M.min + z.dstadjust) / 60)) = (a, b)) :
    carry (statOf M i) z.dstadjust =
      if 23 < b then
        if (monthlen M.year M.mon : ℤ) < M.day + 1 then
          { tmOf M 1 with
            tm_min := a
            tm_hour := b - 24
            tm_wday := (weekday M.days + 8) % 7
            tm_yday := M.yday + 1
            tm_mday := 1
            tm_mon := M.mon + 1 }
        else
          { tmOf M 1 with
            tm_min := a
            tm_hour := b - 24
            tm_wday := (weekday M.days + 8) % 7
            tm_yday := M.yday + 1
            tm_mday := M.day + 1 }
      else
        { tmOf M 1 with
          tm_min := a
          tm_hour := b } := by
  have hlen : ((dpm (monthlen M.year 1) (M.mon : ℤ).toNat : ℕ) : ℤ) = monthlen M.year M.mon := by
    rw [Int.toNat_natCast, dpm_eq _ M.mon_lt]
  simp only [carry, statOf, tmOf, minutes_spec, h, hlen]

/-- The next day, at some time. -/
lemma exists_next (M : Moment) (hl : ¬ (M.mon = 11 ∧ M.day = 31)) {h m : ℕ} (hh : h < 24)
    (hm : m < 60) : ∃ N : Moment, N.year = M.year ∧ N.hour = h ∧ N.min = m ∧ N.sec = M.sec ∧
      N.yday = M.yday + 1 ∧
      ((M.day + 1 ≤ monthlen M.year M.mon ∧ N.mon = M.mon ∧ N.day = M.day + 1) ∨
        (monthlen M.year M.mon < M.day + 1 ∧ N.mon = M.mon + 1 ∧ N.day = 1)) := by
  have h1 := M.day_pos
  have h2 := M.day_le
  have h3 := M.mon_lt
  by_cases hd : M.day + 1 ≤ monthlen M.year M.mon
  · refine ⟨{ M with
      day := M.day + 1
      hour := h
      min := m
      day_pos := by omega
      day_le := hd
      hour_lt := hh
      min_lt := hm }, rfl, rfl, rfl, rfl, ?_, .inl ⟨hd, rfl, rfl⟩⟩
    unfold Moment.yday
    dsimp only
    omega
  · have hmon : M.mon + 1 < 12 := by
      by_contra hc
      have h11 : M.mon = 11 := by omega
      have h31 : monthlen M.year 11 = 31 := rfl
      rw [h11, h31] at hd h2
      exact hl ⟨h11, by omega⟩
    refine ⟨{ M with
      mon := M.mon + 1
      day := 1
      hour := h
      min := m
      mon_lt := hmon
      day_pos := le_rfl
      day_le := (by decide : 1 ≤ 28).trans (monthlen_pos _ _)
      hour_lt := hh
      min_lt := hm }, rfl, rfl, rfl, rfl, ?_, .inr ⟨by omega, rfl, rfl⟩⟩
    unfold Moment.yday
    dsimp only
    rw [monthstart_succ]
    omega

/-- **The carry is right** exactly where it stays in the year and within a day. -/
theorem carry_iff : (∃ N : Moment, (N.secs : ℤ) = M.secs + z.dstadjust * 60 ∧
    carry (statOf M i) z.dstadjust = tmOf N 1) ↔ Carries z M := by
  obtain ⟨hf1, hf2⟩ := z.fits
  have h1 := M.hour_lt
  have h2 := M.min_lt
  have h3 := M.sec_lt
  constructor
  · rintro ⟨N, -, hN⟩
    have h4 := N.hour_lt
    have h5 := N.mon_lt
    have h6 := N.min_lt
    rcases hab : (if int (M.min + z.dstadjust) < 0 then (int (M.min + z.dstadjust), (M.hour : ℤ))
      else (int (M.min + z.dstadjust) % 60, M.hour + int (M.min + z.dstadjust) / 60)) with ⟨a, b⟩
    rw [carry_eq z M i hab] at hN
    have hmin : a = N.min := by
      have := congrArg Tm.tm_min hN
      split at this <;> [split at this; skip] <;> exact this
    have hhour : (if 23 < b then b - 24 else b) = N.hour := by
      have := congrArg Tm.tm_hour hN
      split at this <;> [(rw [if_pos ‹_›]; split at this); rw [if_neg ‹_›]] <;> exact this
    have hmon : 23 < b → (monthlen M.year M.mon : ℤ) < M.day + 1 → (M.mon : ℤ) + 1 = N.mon := by
      intro hb hl
      rw [if_pos hb, if_pos hl] at hN
      exact congrArg Tm.tm_mon hN
    have hsum : 0 ≤ M.min + z.dstadjust ∧ a + 60 * b = M.hour * 60 + M.min + z.dstadjust := by
      have hpos : ¬ int (M.min + z.dstadjust) < 0 := fun hneg => by
        rw [if_pos hneg, Prod.mk.injEq] at hab
        omega
      rw [if_neg hpos, Prod.mk.injEq] at hab
      by_cases hlow : (M.min : ℤ) + z.dstadjust < 32768
      · rw [int_of_fits (by omega) hlow] at hpos hab
        omega
      · exact absurd (int_of_over (by omega) (by omega)) hpos
    refine ⟨hsum.1, by split at hhour <;> omega, ?_⟩
    by_cases hb : 23 < b
    · refine .inr fun hlast => ?_
      have h31 : monthlen M.year 11 = 31 := rfl
      have := hmon hb (by rw [hlast.1, h31, hlast.2]; decide)
      omega
    · exact .inl (by omega)
  · rintro ⟨hc1, hc2, hc3⟩
    have hi : int (M.min + z.dstadjust) = M.min + z.dstadjust :=
      int_of_fits (by omega) (by omega)
    rw [carry_eq z M i (by rw [hi, if_neg (by omega)])]
    obtain ⟨k, hk⟩ := Int.eq_ofNat_of_zero_le hc1
    rw [hk]
    have hmin : k % 60 < 60 := Nat.mod_lt _ (by decide)
    by_cases hb : 23 < (M.hour : ℤ) + (k : ℤ) / 60
    · obtain ⟨N, hy, hh, hm, hs, hyd, hday⟩ :=
        exists_next M (hc3.resolve_left (by omega)) (h := M.hour + k / 60 - 24) (by omega) hmin
      have hdays : N.days = M.days + 1 := by
        rw [N.days_eq, M.days_eq, hy, hyd, Nat.add_assoc]
      have hwd : ((weekday M.days : ℤ) + 8) % 7 = weekday N.days := by
        rw [hdays]
        unfold weekday
        omega
      refine ⟨N, ?_, ?_⟩
      · unfold Moment.secs
        rw [hdays, hh, hm, hs]
        omega
      · rw [if_pos hb]
        rcases hday with ⟨hl, hmo, hd⟩ | ⟨hl, hmo, hd⟩
        · rw [if_neg (by omega)]
          ext <;> simp only [tmOf, hy, hh, hm, hs, hyd, hmo, hd, hwd] <;> omega
        · rw [if_pos (by omega)]
          ext <;> simp only [tmOf, hy, hh, hm, hs, hyd, hmo, hd, hwd] <;> omega
    · refine ⟨{ M with
        hour := M.hour + k / 60
        min := k % 60
        hour_lt := by omega
        min_lt := hmin }, ?_, ?_⟩
      · have hd : ∀ h m hh hm,
            Moment.days { M with hour := h, min := m, hour_lt := hh, min_lt := hm } = M.days :=
          fun _ _ _ _ => rfl
        unfold Moment.secs
        rw [hd]
        dsimp only
        omega
      · rw [if_neg hb]
        ext <;> simp [tmOf, Moment.days, Moment.yday]

@[simp] lemma carry_isdst (s : Static) (a : ℤ) : (carry s a).tm_isdst = 1 := by
  unfold carry
  dsimp only
  split
  · split <;> rfl
  · rfl

/-! ### The whole -/

lemma gmtime_eq {t : ℤ} (ht : t < 2147483648) (hM : (M.secs : ℤ) = t) :
    gmtime s t = statOf M s.tm.tm_isdst := by
  obtain ⟨N, hN, h⟩ := gmtime_spec s (by omega) ht
  rw [h, moment_unique hN hM]
  rfl

section Whole

variable {tp : ℤ} (hM : (M.secs : ℤ) = ltime z tp)
include hM

lemma localtime_eq : localtime z s tp =
    if isdaylight z (statOf M s.tm.tm_isdst) then
      ⟨carry (statOf M s.tm.tm_isdst) z.dstadjust, monthlen M.year 1⟩
    else ⟨tmOf M 0, monthlen M.year 1⟩ := by
  have hlt : ltime z tp < 2147483648 := Int.bmod_lt (by decide)
  rw [localtime, gmtime_eq hlt hM]
  rfl

lemma right_off (h : isdaylight z (statOf M s.tm.tm_isdst) = false) :
    Right z s tp y m₁ d₁ m₂ d₂ ↔
      ¬ (z.tzname1 ≠ [] ∧ starts z y m₁ d₁ ≤ M.secs ∧ M.secs < stops z y m₂ d₂) := by
  have he : localtime z s tp = ⟨tmOf M 0, monthlen M.year 1⟩ := by
    rw [localtime_eq hM, h]
    rfl
  have h0 : (localtime z s tp).tm.tm_isdst = 0 := by
    rw [he]
    rfl
  constructor
  · rintro ⟨-, hd⟩ hs
    rw [h0, ← hM, if_pos hs] at hd
    exact absurd hd (by decide)
  · intro hs
    refine ⟨⟨M, ?_, ?_⟩, ?_⟩
    · rw [h0, if_neg (by decide), hM, add_zero]
    · rw [h0, he]
    · rw [h0, ← hM, if_neg hs]

lemma right_on (h : isdaylight z (statOf M s.tm.tm_isdst) = true) :
    Right z s tp y m₁ d₁ m₂ d₂ ↔
      (z.tzname1 ≠ [] ∧ starts z y m₁ d₁ ≤ M.secs ∧ M.secs < stops z y m₂ d₂) ∧ Carries z M := by
  have he : (localtime z s tp).tm = carry (statOf M s.tm.tm_isdst) z.dstadjust := by
    rw [localtime_eq hM, h]
    rfl
  have h1 : (localtime z s tp).tm.tm_isdst = 1 := by rw [he, carry_isdst]
  rw [← carry_iff (M := M) (i := s.tm.tm_isdst)]
  constructor
  · rintro ⟨⟨N, hN, ht⟩, hd⟩
    rw [h1, if_pos rfl, ← hM] at hN
    rw [h1, he] at ht
    rw [h1, ← hM] at hd
    refine ⟨?_, N, hN, ht⟩
    by_contra hs
    rw [if_neg hs] at hd
    exact absurd hd (by decide)
  · rintro ⟨hs, N, hN, ht⟩
    refine ⟨⟨N, ?_, ?_⟩, ?_⟩
    · rw [h1, if_pos rfl, ← hM, hN]
    · rw [h1, he, ht]
    · rw [h1, ← hM, if_pos hs]

end Whole

/-- **`gmtime` finds the only date of a time, and `localtime` is right** exactly at the times at
which the code agrees with the setting: it starts and stops where the setting does, and the
adjustment can be carried. -/
theorem localtime_right_iff (z : Zone) (s : Static) :
    (∀ t : ℤ, 0 ≤ t → t < 2147483648 → (∃! M : Moment, (M.secs : ℤ) = t) ∧
      ∀ M : Moment, (M.secs : ℤ) = t → (gmtime s t).tm = tmOf M s.tm.tm_isdst) ∧
    ∀ (tp : ℤ) (M : Moment), (M.secs : ℤ) = ltime z tp → ∀ m₁ d₁ m₂ d₂ : ℕ,
      NthDay M.year z.start m₁ d₁ → NthDay M.year z.stop m₂ d₂ → m₁ < m₂ →
        (Right z s tp M.year m₁ d₁ m₂ d₂ ↔ z.tzname1 = [] ∨ Clear z M m₁ d₁ m₂ d₂) := by
  refine ⟨fun t h0 ht => ⟨?_, fun M hM => by rw [gmtime_eq ht hM]; rfl⟩,
    fun tp M hM m₁ d₁ m₂ d₂ h₁ h₂ hm => ?_⟩
  · obtain ⟨M, hM, -⟩ := gmtime_spec s h0 ht
    exact ⟨M, hM, fun N hN => moment_unique hN hM⟩
  · have hiff := isdaylight_iff (i := s.tm.tm_isdst) h₁ h₂ hm
    by_cases hn : z.tzname1 = []
    · have hf : isdaylight z (statOf M s.tm.tm_isdst) = false := by
        simpa using fun h => (hiff.mp h).1 hn
      rw [right_off hM hf]
      exact iff_of_true (fun h => h.1 hn) (.inl hn)
    rw [or_iff_right hn]
    by_cases hb : isdaylight z (statOf M s.tm.tm_isdst) = true
    · obtain ⟨-, hb1, hb2⟩ := hiff.mp hb
      rw [right_on hM hb]
      constructor
      · rintro ⟨⟨-, h3, h4⟩, hc⟩
        exact ⟨by omega, by omega, by omega, by omega, fun _ _ => hc⟩
      · intro h
        have h3 : starts z M.year m₁ d₁ ≤ M.secs := not_lt.mp fun hc => h.startEarly ⟨hb1, hb2, hc⟩
        have h4 : M.secs < stops z M.year m₂ d₂ := not_le.mp fun hc => h.stopLate ⟨hb1, hb2, hc⟩
        exact ⟨⟨hn, h3, h4⟩, h.carries h3 h4⟩
    · have hoff : ¬ (codeStarts z M.year m₁ d₁ ≤ M.secs ∧ M.secs < codeStops z M.year m₂ d₂) :=
        fun h => hb (hiff.mpr ⟨hn, h⟩)
      rw [right_off hM (by simpa using hb)]
      constructor
      · intro h
        have hs : ¬ (starts z M.year m₁ d₁ ≤ M.secs ∧ M.secs < stops z M.year m₂ d₂) := fun hs =>
          h ⟨hn, hs⟩
        exact ⟨by omega, by omega, by omega, by omega, fun h3 h4 => absurd ⟨h3, h4⟩ hs⟩
      · rintro ⟨-, h1, -, h2, -⟩ ⟨-, h3, h4⟩
        rcases not_and_or.mp hoff with h | h
        · exact h1 ⟨h3, h4, not_le.mp h⟩
        · exact h2 ⟨h3, h4, not_lt.mp h⟩

/-- `TIMEZONE=EST:300:EDT`, with the days that `settz` takes then. -/
def eastern : Zone where
  timezone := 18000
  tzname1 := ['E', 'D', 'T']
  start := ⟨3, 0, -1⟩
  stop := ⟨9, 0, -1⟩
  dsthour := 2
  dstadjust := 60
  fits := by decide

/-- What the static data hold at first. -/
def cleared : Static := ⟨⟨0, 0, 0, 0, 0, 0, 0, 0, 0⟩, 28⟩

/-- Noon of 1999-07-04, in standard time. -/
def july : Moment where
  year := 1999
  mon := 6
  day := 4
  hour := 12
  min := 0
  sec := 0
  epoch := by decide
  mon_lt := by decide
  day_pos := by decide
  day_le := by decide
  hour_lt := by decide
  min_lt := by decide
  sec_lt := by decide

lemma eastern_days : NthDay 1999 eastern.start 3 25 ∧ NthDay 1999 eastern.stop 9 31 :=
  ⟨⟨rfl, by decide, by decide, by decide, by decide +kernel, by decide⟩,
    ⟨rfl, by decide, by decide, by decide, by decide +kernel, by decide⟩⟩

theorem localtime_july : Right eastern cleared 931107600 1999 3 25 9 31 ↔
    eastern.tzname1 = [] ∨ Clear eastern july 3 25 9 31 :=
  (localtime_right_iff eastern cleared).2 931107600 july (by decide +kernel) 3 25 9 31
    eastern_days.1 eastern_days.2 (by decide)

/-- In 1999 the last Sunday in October was its last day, and the code stops a week before: at noon
of the 27th it has standard time. -/
theorem localtime_october : NthDay 1999 eastern.start 3 25 ∧ NthDay 1999 eastern.stop 9 31 ∧
    ¬ Right eastern cleared 941043600 1999 3 25 9 31 := by
  refine ⟨eastern_days.1, eastern_days.2, fun h => ?_⟩
  have h0 : (localtime eastern cleared 941043600).tm.tm_isdst = 0 := by decide +kernel
  have hs : eastern.tzname1 ≠ [] ∧ starts eastern 1999 3 25 ≤ ltime eastern 941043600 ∧
      ltime eastern 941043600 < stops eastern 1999 9 31 := by decide +kernel
  have h1 := h.isdst
  rw [h0, if_pos hs] at h1
  exact absurd h1 (by decide)

end Coherent.Ctime

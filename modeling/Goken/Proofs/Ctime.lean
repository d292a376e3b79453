import Goken.Ctime
import Mathlib.Algebra.BigOperators.Group.List.Basic
import Mathlib.Tactic.IntervalCases

/-! `gmtime` finds the Gregorian date and the time of day, and `tm2sec` goes
back. -/

namespace Goken.Proofs.Ctime
open Goken.Ctime

/-! The calendar. -/

def Leap (y : Int) : Prop := y % 4 = 0 ∧ (y % 100 ≠ 0 ∨ y % 400 = 0)

instance (y : Int) : Decidable (Leap y) := inferInstanceAs (Decidable (_ ∧ _))

/-- The days from the start of 1970 to the start of the year. -/
def daysBefore (y : Int) : Int := 365 * (y - 1970) + ((y - 1) / 4 - (y - 1) / 100 + (y - 1) / 400) - 477

def monthSizes (y : Int) : List Int := [31, if Leap y then 29 else 28, 31, 30, 31, 30, 31, 31, 30, 31, 30, 31]

/-- The date and the time of day of `t`; the first day was a Thursday. -/
structure Gregorian (t : Int) (tm : Tm) : Prop where
  month : 0 ≤ tm.mon ∧ tm.mon < 12
  day : 1 ≤ tm.mday ∧ tm.mday ≤ (monthSizes (tm.year + 1900)).getD tm.mon.toNat 0
  yday : tm.yday = ((monthSizes (tm.year + 1900)).take tm.mon.toNat).sum + tm.mday - 1
  days : t / 86400 = daysBefore (tm.year + 1900) + tm.yday
  hour : 0 ≤ tm.hour ∧ tm.hour < 24
  min : 0 ≤ tm.min ∧ tm.min < 60
  sec : 0 ≤ tm.sec ∧ tm.sec < 60
  time : t % 86400 = tm.hour * 3600 + tm.min * 60 + tm.sec
  wday : tm.wday = (t / 86400 + 4) % 7

theorem tmod_eq_zero_iff (y k : Int) : y.tmod k = 0 ↔ y % k = 0 := by
  rw [← Int.dvd_iff_tmod_eq_zero, Int.dvd_iff_emod_eq_zero]

theorem leap_test (y : Int) : (decide (y.tmod 4 = 0) && (decide (y.tmod 100 ≠ 0) || decide (y.tmod 400 = 0))) = decide (Leap y) := by
  rw [Bool.eq_iff_iff]
  rw [decide_eq_true_iff]
  simp only [Leap, Bool.and_eq_true, Bool.or_eq_true, decide_eq_true_eq, ne_eq, tmod_eq_zero_iff]

theorem dysize_eq (y : Int) : dysize y = if Leap y then 366 else 365 := by
  rw [dysize, leap_test]
  exact if_congr decide_eq_true_iff rfl rfl

theorem daysBefore_succ (y : Int) : daysBefore (y + 1) = daysBefore y + dysize y := by
  rw [dysize_eq, daysBefore, daysBefore]
  split
  · rename_i leap
    obtain ⟨four, others⟩ := leap
    rcases others with notCentury | fourHundred <;> omega
  · rename_i common
    rw [Leap, not_and_or, not_or, not_not] at common
    omega

theorem sum_monthSizes (y : Int) : (monthSizes y).sum = dysize y := by
  rw [dysize_eq, monthSizes]
  split <;> rfl

theorem int32_of_small {v : Int} (low : 0 ≤ v) (high : v < 2 ^ 31) : int32 v = v := by
  rw [int32_eq_emod]
  omega

/-! `gmtime`. -/

theorem years_spec (day d1 : Int) (nonneg : 0 ≤ day) :
    daysBefore (years day d1).2 + (years day d1).1 = daysBefore d1 + day ∧ 0 ≤ (years day d1).1 ∧
      (years day d1).1 < dysize (years day d1).2 ∧ d1 ≤ (years day d1).2 := by
  fun_induction years day d1 with
  | case1 day d1 more ih =>
      have next := daysBefore_succ d1
      obtain ⟨total, low, high, later⟩ := ih (by omega)
      exact ⟨by omega, low, high, by omega⟩
  | case2 day d1 enough => exact ⟨rfl, nonneg, Int.not_le.mp enough, Int.le_refl _⟩

theorem months_spec (sizes : List Int) (d0 d1 : Int) (nonneg : 0 ≤ d0) (inside : d0 < sizes.sum) :
    ∃ (k : Nat) (r : Int), months sizes d0 d1 = some (r, d1 + k) ∧ k < sizes.length ∧ (sizes.take k).sum + r = d0 ∧ 0 ≤ r ∧ r < sizes.getD k 0 := by
  induction sizes generalizing d0 d1 with
  | nil => exact absurd inside (Int.not_lt.mpr nonneg)
  | cons size sizes ih =>
      rw [List.sum_cons] at inside
      rw [months]
      split
      · obtain ⟨k, r, found, short, total, low, high⟩ := ih (d0 - size) (d1 + 1) (by omega) (by omega)
        refine ⟨k + 1, r, ?_, Nat.succ_lt_succ short, ?_, low, high⟩
        · rw [found, Nat.cast_succ, Int.add_assoc, Int.add_comm 1]
        · rw [List.take_succ_cons, List.sum_cons]
          omega
      · exact ⟨0, d0, by simp, Nat.succ_pos _, by simp, nonneg, Int.not_le.mp ‹_›⟩

theorem patched_eq (y : Int) : (if dysize y = 366 then dmsize.set 1 29 else dmsize) = monthSizes y ∧
    (monthSizes y).set 1 28 = dmsize := by
  rw [dysize_eq, monthSizes]
  by_cases leap : Leap y
  · simp only [if_pos leap]
    exact ⟨rfl, rfl⟩
  · simp only [if_neg leap]
    exact ⟨rfl, rfl⟩

theorem gmtime_spec {t : Int} (low : 0 ≤ t) (high : t < 2 ^ 31) :
    ∃ tm, gmtime dmsize t = some (tm, dmsize) ∧ Gregorian t tm ∧ tm.zone = "GMT" ∧ 70 ≤ tm.year := by
  obtain ⟨total, nonneg, short, later⟩ := years_spec (t / 86400) 1970 (by omega)
  generalize found : years (t / 86400) 1970 = year at total nonneg short later
  obtain ⟨yday, y⟩ := year
  dsimp only at total nonneg short later
  rw [← sum_monthSizes] at short
  obtain ⟨mon, d0, month, inside, monthTotal, first, last⟩ := months_spec (monthSizes y) yday 0 nonneg short
  have ulong : t % 2 ^ 32 = t := Int.emod_eq_of_lt low (by omega)
  have days : int32 (t / 86400) = t / 86400 := int32_of_small (by omega) (by omega)
  have secs : int32 (t % 86400) = t % 86400 := int32_of_small (by omega) (by omega)
  have start : daysBefore 1970 = 0 := rfl
  have year : y - 1900 + 1900 = y := by omega
  refine ⟨⟨(t % 86400) % 60, t % 86400 / 60 % 60, t % 86400 / 60 / 60, d0 + 1, mon, y - 1900, (t / 86400 + 7340036) % 7, yday, "GMT"⟩,
    ?_, ⟨?_, ?_, ?_, ?_, ?_, ?_, ?_, ?_, ?_⟩, rfl, ?_⟩
  · obtain ⟨patched, restored⟩ := patched_eq y
    have time : 0 ≤ t % 86400 := Int.emod_nonneg t (by decide)
    have positive : 0 ≤ t / 86400 := by omega
    rw [gmtime, ulong, days, secs]
    dsimp only
    rw [if_neg (Int.not_lt.mpr time)]
    dsimp only
    rw [if_pos positive, found]
    dsimp only
    rw [patched, month, Option.bind_eq_bind, Option.bind_some]
    dsimp only
    rw [restored, Int.tmod_eq_emod_of_nonneg time, Int.tdiv_eq_ediv_of_nonneg time, Int.tmod_eq_emod_of_nonneg (by omega),
      Int.tdiv_eq_ediv_of_nonneg (by omega), Int.tmod_eq_emod_of_nonneg (by omega), Int.zero_add]
    rfl
  all_goals dsimp only
  · have twelve : (monthSizes y).length = 12 := rfl
    omega
  · rw [year, Int.toNat_natCast]
    omega
  · rw [year, Int.toNat_natCast]
    omega
  · rw [year]
    omega
  · omega
  · omega
  · omega
  · omega
  · omega
  · omega

/-! `tm2sec`. -/

theorem daysBefore_mono {y z : Int} (order : y ≤ z) : daysBefore y ≤ daysBefore z := by
  rw [daysBefore, daysBefore]
  omega

theorem yrsize_head (y : Int) : (yrsize y).getD 0 0 = dysize y := by
  rw [dysize_eq, yrsize, leap_test]
  by_cases leap : Leap y
  · simp only [leap, decide_true, if_true]
    rfl
  · simp only [leap, decide_false, if_false]
    rfl

theorem yearSecs_eq {y : Int} (low : 1970 ≤ y) (small : daysBefore y * 86400 < 2 ^ 31) : yearSecs y = daysBefore y * 86400 := by
  have run : ∀ n : Nat, daysBefore (1970 + n) * 86400 < 2 ^ 31 → yearSecs (1970 + n) = daysBefore (1970 + n) * 86400 := by
    intro n
    induction n with
    | zero => exact fun _ => rfl
    | succ n ih =>
        intro small
        have next := daysBefore_succ (1970 + n)
        have positive := dysize_pos (1970 + n)
        have later : (1970 : Int) + (n + 1 : Nat) = 1970 + n + 1 := by omega
        have before : 0 ≤ daysBefore (1970 + n) := daysBefore_mono (y := 1970) (by omega)
        rw [later] at small
        have step : yearSecs (1970 + n + 1) = int32 (yearSecs (1970 + n) + dysize (1970 + n) * 86400) := by
          have length : (1970 + (n : Int) + 1 - 1970).toNat = (1970 + (n : Int) - 1970).toNat + 1 := by omega
          have index : ((1970 + (n : Int) - 1970).toNat : Int) = n := by omega
          rw [yearSecs, length, List.range_succ, List.foldl_append, List.foldl_cons, List.foldl_nil, index, yearSecs, yrsize_head]
        rw [later, step, ih (by omega), int32_of_small (by omega) (by omega), next, Int.add_mul]
  obtain ⟨n, same⟩ := Int.eq_ofNat_of_zero_le (Int.sub_nonneg.mpr low)
  obtain rfl : y = 1970 + n := by omega
  exact run n small

theorem monthDays_eq (y : Int) {mon : Nat} (inside : mon < 12) : monthDays y mon = ((monthSizes y).take mon).sum := by
  rw [monthDays, yrsize, leap_test, monthSizes]
  by_cases leap : Leap y
  · simp only [leap, decide_true, if_true]
    interval_cases mon <;> rfl
  · simp only [leap, decide_false, if_false]
    interval_cases mon <;> rfl

theorem take_nonneg (y : Int) {mon : Nat} (inside : mon < 12) : 0 ≤ ((monthSizes y).take mon).sum := by
  rw [monthSizes]
  by_cases leap : Leap y
  · simp only [if_pos leap]
    interval_cases mon <;> decide
  · simp only [if_neg leap]
    interval_cases mon <;> decide

/-- The zones before and after a file has not been found. -/
def Fileless (tz : Timezone) : Prop := tz = noTimezone ∨ tz = readtimezone noTimezone

theorem tm2sec_eq {tz : Timezone} (fileless : Fileless tz) {t : Int} {tm : Tm} (low : 0 ≤ t) (high : t < 2 ^ 31) (date : Gregorian t tm)
    (zone : tm.zone = "GMT") (since : 70 ≤ tm.year) : tm2sec tz tm = t := by
  obtain ⟨mon, month⟩ := Int.eq_ofNat_of_zero_le date.month.1
  have short : mon < 12 := by
    have bound := date.month.2
    omega
  have first := date.day.1
  have yday := date.yday
  have days := date.days
  have time := date.time
  have hour := date.hour
  have min := date.min
  have sec := date.sec
  have sum := take_nonneg (tm.year + 1900) short
  rw [month, Int.toNat_natCast] at yday
  have before : 0 ≤ daysBefore (tm.year + 1900) := daysBefore_mono (y := 1970) (by omega)
  have soon : tm.year < 2 ^ 20 := by
    have growth : 365 * (tm.year + 1900 - 1970) ≤ daysBefore (tm.year + 1900) + 477 := by
      rw [daysBefore]
      omega
    omega
  have year : int32 (tm.year + 1900) = tm.year + 1900 := int32_of_small (by omega) (by omega)
  have yearly : yearSecs (tm.year + 1900) = daysBefore (tm.year + 1900) * 86400 := yearSecs_eq (by omega) (by omega)
  have monthly : int32 (monthDays (tm.year + 1900) tm.mon + int32 (tm.mday - 1)) = tm.yday := by
    rw [month, monthDays_eq _ short, int32_of_small (v := tm.mday - 1) (by omega) (by omega), int32_of_small (by omega) (by omega)]
    omega
  have daily : int32 (daysBefore (tm.year + 1900) * 86400 + int32 (tm.yday * 86400)) = t / 86400 * 86400 := by
    rw [int32_of_small (v := tm.yday * 86400) (by omega) (by omega), int32_of_small (by omega) (by omega)]
    omega
  have hourly : int32 (t / 86400 * 86400 + int32 (tm.hour * 3600)) = t / 86400 * 86400 + tm.hour * 3600 := by
    rw [int32_of_small (v := tm.hour * 3600) (by omega) (by omega), int32_of_small (by omega) (by omega)]
  have minutely : int32 (t / 86400 * 86400 + tm.hour * 3600 + int32 (tm.min * 60)) = t / 86400 * 86400 + tm.hour * 3600 + tm.min * 60 := by
    rw [int32_of_small (v := tm.min * 60) (by omega) (by omega), int32_of_small (by omega) (by omega)]
  have whole : int32 (t / 86400 * 86400 + tm.hour * 3600 + tm.min * 60 + tm.sec) = t := by
    rw [int32_of_small (by omega) (by omega)]
    omega
  have unread : (decide (tm.zone ≠ "GMT") && decide (tz.stname = "")) = false := by rw [zone]; rfl
  have unzoned : (if tm.zone = tz.stname then int32 (t - tz.stdiff) else if tm.zone = tz.dlname then int32 (t - tz.dldiff) else t) = t := by
    rw [zone]
    rcases fileless with rfl | rfl
    · rfl
    · have same : int32 (t - (readtimezone noTimezone).stdiff) = t := by
        rw [readtimezone, Int.sub_zero]
        exact int32_of_small low high
      exact same
  have set : tm.mday ≠ 0 := by omega
  rw [tm2sec, unread, if_neg Bool.false_ne_true, year, yearly, if_pos set, monthly, daily, hourly, minutely, whole, unzoned]
  exact if_neg (Int.not_lt.mpr low)

/-- `tm2sec` goes back from what `gmtime` gives. -/
theorem tm2sec_gmtime {tz : Timezone} (fileless : Fileless tz) {t : Int} (low : 0 ≤ t) (high : t < 2 ^ 31) :
    ∃ tm, gmtime dmsize t = some (tm, dmsize) ∧ Gregorian t tm ∧ tm.zone = "GMT" ∧ tm2sec tz tm = t := by
  obtain ⟨tm, runs, date, zone, since⟩ := gmtime_spec low high
  exact ⟨tm, runs, date, zone, tm2sec_eq fileless low high date zone since⟩

/-- The last second that fits. -/
theorem tm2sec_gmtime_last :
    ∃ tm, gmtime dmsize 2147483647 = some (tm, dmsize) ∧ Gregorian 2147483647 tm ∧ tm.zone = "GMT" ∧ tm2sec noTimezone tm = 2147483647 :=
  tm2sec_gmtime (.inl rfl) (by decide) (by decide)

end Goken.Proofs.Ctime

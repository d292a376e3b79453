import Goken.Types

/-! Broken-down time: `gmtime` (`ctime.c`) and `tm2sec` (`tm2sec.c`). `long` is of
32 bits. -/

namespace Goken.Ctime

/-- `Tm`; `tzoff` is not used here. -/
structure Tm where
  sec : Int
  min : Int
  hour : Int
  mday : Int
  mon : Int
  year : Int
  wday : Int
  yday : Int
  zone : String
  deriving DecidableEq, Repr

/-! `ctime.c`. -/

def dmsize : List Int := [31, 28, 31, 30, 31, 30, 31, 31, 30, 31, 30, 31]

/-- C's `%` is for a dividend that may be negative. -/
def dysize (y : Int) : Int := if y.tmod 4 = 0 && (y.tmod 100 ≠ 0 || y.tmod 400 = 0) then 366 else 365

theorem dysize_pos (y : Int) : 0 < dysize y := by
  rw [dysize]
  split <;> decide

/-- `for (d1 = 1970; day >= dysize(d1); d1++)`. -/
def years (day d1 : Int) : Int × Int := if dysize d1 ≤ day then years (day - dysize d1) (d1 + 1) else (day, d1)
termination_by day.toNat
decreasing_by
  have := dysize_pos d1
  omega

/-- `for (d1 = 1970; day < 0; d1--)`. -/
def yearsBack (day d1 : Int) : Int × Int := if day < 0 then yearsBack (day + dysize (d1 - 1)) (d1 - 1) else (day, d1)
termination_by (-day).toNat
decreasing_by
  have := dysize_pos (d1 - 1)
  omega

/-- `for (d1 = 0; d0 >= dmsize[d1]; d1++)`, over the sizes from `d1` on. -/
def months : List Int → Int → Int → Option (Int × Int)
  | [], _, _ => none
  | size :: sizes, d0, d1 => if size ≤ d0 then months sizes (d0 - size) (d1 + 1) else some (d0, d1)

/-- The result, and `dmsize` as it is left. -/
def gmtime (dmsize : List Int) (tim : Int) : Option (Tm × List Int) := do
  let ulong := tim % 2 ^ 32
  let hms := int32 (ulong % 86400)
  let day := int32 (ulong / 86400)
  let (hms, day) := if hms < 0 then (hms + 86400, day - 1) else (hms, day)
  let sec := hms.tmod 60
  let d1 := hms.tdiv 60
  let min := d1.tmod 60
  let hour := d1.tdiv 60
  let wday := (day + 7340036).tmod 7
  let (day, d1) := if 0 ≤ day then years day 1970 else yearsBack day 1970
  let year := d1 - 1900
  let dmsize := if dysize d1 = 366 then dmsize.set 1 29 else dmsize
  let (d0, mon) ← months dmsize day 0
  return (⟨sec, min, hour, d0 + 1, mon, year, wday, day, "GMT"⟩, dmsize.set 1 28)

/-! `tm2sec.c`, where the tables start with the days of the year. -/

def dmsize' : List Int := [365, 31, 28, 31, 30, 31, 30, 31, 31, 30, 31, 30, 31]
def ldmsize : List Int := [366, 31, 29, 31, 30, 31, 30, 31, 31, 30, 31, 30, 31]

def yrsize (y : Int) : List Int := if y.tmod 4 = 0 && (y.tmod 100 ≠ 0 || y.tmod 400 = 0) then ldmsize else dmsize'

structure Timezone where
  stname : String
  dlname : String
  stdiff : Int
  dldiff : Int
  deriving DecidableEq, Repr

/-- As it is allocated. -/
def noTimezone : Timezone := ⟨"", "", 0, 0⟩

/-- `readtimezone` when there is no file. -/
def readtimezone (tz : Timezone) : Timezone := { tz with stdiff := 0, stname := "GMT" }

/-- The seconds of the years before `year`. -/
def yearSecs (year : Int) : Int :=
  (List.range (year - 1970).toNat).foldl (fun secs (i : Nat) => int32 (secs + (yrsize (1970 + (i : Int))).getD 0 0 * 86400)) 0

/-- The days of the months before `mon`. -/
def monthDays (year mon : Int) : Int := (List.range mon.toNat).foldl (fun yday (i : Nat) => int32 (yday + (yrsize year).getD (i + 1) 0)) 0

def tm2sec (tz : Timezone) (tm : Tm) : Int :=
  let tz := if tm.zone ≠ "GMT" && tz.stname = "" then readtimezone tz else tz
  let year := int32 (tm.year + 1900)
  let secs := yearSecs year
  let yday := if tm.mday ≠ 0 then int32 (monthDays year tm.mon + int32 (tm.mday - 1)) else tm.yday
  let secs := int32 (secs + int32 (yday * 86400))
  let secs := int32 (secs + int32 (tm.hour * 3600))
  let secs := int32 (secs + int32 (tm.min * 60))
  let secs := int32 (secs + tm.sec)
  let secs := if tm.zone = tz.stname then int32 (secs - tz.stdiff) else if tm.zone = tz.dlname then int32 (secs - tz.dldiff) else secs
  if secs < 0 then 0 else secs

end Goken.Ctime

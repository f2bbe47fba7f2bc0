import Synos.Cmos.Clock
import Mathlib.Tactic.IntervalCases

namespace Synos.Cmos

open Synos.Data

/-! The time that the clock is started with, computed from the registers of the
chip. -/

/-- What `cmos_read` gives for each register. -/
abbrev Registers := Nat → UInt8

def cmosTimeSeconds : Nat := 0x00

def cmosTimeMinutes : Nat := 0x02

def cmosTimeHours : Nat := 0x04

def cmosTimeDay : Nat := 0x07

def cmosTimeMonth : Nat := 0x08

def cmosTimeYear : Nat := 0x09

def cmosStatusA : Nat := 0x0A

def cmosTimeYearOffset : Nat := 2000

/-- A product of two nonnegative numbers, in the type `int`. -/
def intMul (left right : Nat) : Except Fault Nat :=
  if left * right < 2 ^ 31 then .ok (left * right) else .error .intOverflow

/-- The hours, of which a set top bit stands for twelve. -/
def readHours (cmos : Registers) : UInt8 :=
  let hours := cmos cmosTimeHours
  if hours &&& 0x80 ≠ 0 then (hours &&& 0x7F) + 12 else hours

def unixTime (seconds minutes hours day month : UInt8) (year : Nat) :
    Except Fault (BitVec 64) := do
  let unixT := BitVec.ofNat 64 seconds.toNat
  let unixT := unixT + BitVec.ofNat 64 (← intMul minutes.toNat 60)
  let unixT := unixT + BitVec.ofNat 64 (← intMul hours.toNat 3600)
  let unixT := unixT + BitVec.ofNat 64 (← intMul day.toNat 86400)
  let unixT := unixT + BitVec.ofNat 64 (← intMul month.toNat 2629800)
  -- the year is at least 2000, so the difference is no smaller than 29
  let unixT := unixT + BitVec.ofNat 64 (← intMul (year - 1971) 31557600)
  pure unixT

/-- `arch_time_init`, for registers that do not change while they are read. -/
def archTimeInit (cmos : Registers) : Except Fault Clock :=
  if cmos cmosStatusA &&& 0x80 ≠ 0 then .error .spin
  else
    let seconds := cmos cmosTimeSeconds
    let minutes := cmos cmosTimeMinutes
    let hours := readHours cmos
    let day := cmos cmosTimeDay
    let month := cmos cmosTimeMonth
    let year := (cmos cmosTimeYear).toNat + cmosTimeYearOffset
    (unixTime seconds minutes hours day month year).map fun unixT =>
      startClock ⟨0, 0, unixT, seconds, minutes, hours, day, month,
        UInt16.ofNat year⟩

/-! ### The calendar -/

def daysOf (year month : Nat) : Nat :=
  if month = 2 then
    if year % 4 = 0 ∧ (year % 100 ≠ 0 ∨ year % 400 = 0) then 29 else 28
  else if month = 4 ∨ month = 6 ∨ month = 9 ∨ month = 11 then 30
  else 31

/-- A date and a time of day, in binary and with 24 hours. -/
structure Valid (cmos : Registers) : Prop where
  ready : cmos cmosStatusA &&& 0x80 = 0
  seconds : (cmos cmosTimeSeconds).toNat ≤ 59
  minutes : (cmos cmosTimeMinutes).toNat ≤ 59
  hours : (cmos cmosTimeHours).toNat ≤ 23
  day : 1 ≤ (cmos cmosTimeDay).toNat ∧ (cmos cmosTimeDay).toNat ≤
    daysOf ((cmos cmosTimeYear).toNat + cmosTimeYearOffset)
      (cmos cmosTimeMonth).toNat
  month : 1 ≤ (cmos cmosTimeMonth).toNat ∧ (cmos cmosTimeMonth).toNat ≤ 12
  year : (cmos cmosTimeYear).toNat ≤ 99

/-- The reading, most significant part first. -/
def calendar (cmos : Registers) : List Nat :=
  [(cmos cmosTimeYear).toNat, (cmos cmosTimeMonth).toNat,
    (cmos cmosTimeDay).toNat, (cmos cmosTimeHours).toNat,
    (cmos cmosTimeMinutes).toNat, (cmos cmosTimeSeconds).toNat]

/-- Both times are computed within `int`, and an earlier one is smaller. -/
structure Ordered (first second : Registers) : Prop where
  first_fits : archTimeInit first ≠ .error .intOverflow
  second_fits : archTimeInit second ≠ .error .intOverflow
  monotone : calendar first < calendar second →
    ∃ clock other, archTimeInit first = .ok clock ∧
      archTimeInit second = .ok other ∧
      clock.ctime.unixT < other.ctime.unixT

def secondOfDay (cmos : Registers) : Nat :=
  (cmos cmosTimeSeconds).toNat + 60 * (cmos cmosTimeMinutes).toNat +
    3600 * (cmos cmosTimeHours).toNat

def monthCount (cmos : Registers) : Nat :=
  12 * (cmos cmosTimeYear).toNat + (cmos cmosTimeMonth).toNat

/-- From a 31st to the first of the month after, at least ten and a half hours
earlier in the day. Every month is counted as 30 days and these hours. -/
structure Crosses (first second : Registers) : Prop where
  next_month : monthCount second = monthCount first + 1
  last_day : (first cmosTimeDay).toNat = 31
  first_day : (second cmosTimeDay).toNat = 1
  earlier : secondOfDay second + 37800 ≤ secondOfDay first

section

variable {cmos first second : Registers}

theorem top_bit_clear {hours : UInt8} (hhours : hours.toNat ≤ 23) :
    hours &&& 0x80 = 0 := by
  rw [← UInt8.toNat_inj, UInt8.toNat_and]
  change hours.toNat &&& 128 = 0
  interval_cases hours.toNat <;> rfl

theorem daysOf_le (year month : Nat) : daysOf year month ≤ 31 := by
  unfold daysOf
  split
  · split
    · decide
    · decide
  · split
    · decide
    · decide

theorem intMul_of_lt {left right : Nat} (hlt : left * right < 2 ^ 31) :
    intMul left right = .ok (left * right) :=
  if_pos hlt

theorem unixTime_eq (hvalid : Valid cmos) (year : Nat) :
    unixTime (cmos cmosTimeSeconds) (cmos cmosTimeMinutes) (cmos cmosTimeHours)
        (cmos cmosTimeDay) (cmos cmosTimeMonth) year =
      (intMul (year - 1971) 31557600).map fun years =>
        BitVec.ofNat 64 (secondOfDay cmos + 86400 * (cmos cmosTimeDay).toNat +
          2629800 * (cmos cmosTimeMonth).toNat + years) := by
  have hminutes := hvalid.minutes
  have hhours := hvalid.hours
  have hday := hvalid.day.2.trans (daysOf_le _ _)
  have hmonth := hvalid.month.2
  have hminutesFit : (cmos cmosTimeMinutes).toNat * 60 < 2 ^ 31 := by omega
  have hhoursFit : (cmos cmosTimeHours).toNat * 3600 < 2 ^ 31 := by omega
  have hdayFit : (cmos cmosTimeDay).toNat * 86400 < 2 ^ 31 :=
    (Nat.mul_le_mul_right 86400 hday).trans_lt (by decide)
  have hmonthFit : (cmos cmosTimeMonth).toNat * 2629800 < 2 ^ 31 :=
    (Nat.mul_le_mul_right 2629800 hmonth).trans_lt (by decide)
  rw [unixTime, intMul_of_lt hminutesFit, intMul_of_lt hhoursFit,
    intMul_of_lt hdayFit, intMul_of_lt hmonthFit]
  cases intMul (year - 1971) 31557600 with
  | error fault => rfl
  | ok years =>
      refine congrArg Except.ok ?_
      simp only [← BitVec.ofNat_add, secondOfDay, Nat.mul_comm]

/-- The seconds that the reading is counted for, from 1971 on. -/
def secondCount (cmos : Registers) : Nat :=
  secondOfDay cmos + 86400 * (cmos cmosTimeDay).toNat +
    2629800 * (monthCount cmos + 12 * 29)

theorem secondOfDay_lt (hvalid : Valid cmos) : secondOfDay cmos < 86400 := by
  have hseconds := hvalid.seconds
  have hminutes := hvalid.minutes
  have hhours := hvalid.hours
  rw [secondOfDay]
  omega

theorem archTimeInit_cases (hvalid : Valid cmos) :
    ((cmos cmosTimeYear).toNat ≤ 39 ∧
        ∃ clock, archTimeInit cmos = .ok clock ∧
          clock.ctime.unixT.toNat = secondCount cmos) ∨
      (39 < (cmos cmosTimeYear).toNat ∧
        archTimeInit cmos = .error .intOverflow) := by
  have hread : readHours cmos = cmos cmosTimeHours := by
    simp only [readHours, top_bit_clear hvalid.hours, ne_eq, not_true_eq_false,
      if_false]
  have hready : ¬ (cmos cmosStatusA &&& 0x80 ≠ 0) :=
    not_not.mpr hvalid.ready
  rw [archTimeInit, if_neg hready]
  simp only [hread, unixTime_eq hvalid, cmosTimeYearOffset]
  by_cases hyear : (cmos cmosTimeYear).toNat ≤ 39
  · have hfits : ((cmos cmosTimeYear).toNat + 2000 - 1971) * 31557600 <
        2 ^ 31 := by omega
    rw [intMul_of_lt hfits]
    refine .inl ⟨hyear, _, rfl, ?_⟩
    have hday := hvalid.day.2.trans (daysOf_le _ _)
    have hmonth := hvalid.month.2
    have hsecond := secondOfDay_lt hvalid
    simp only [startClock, BitVec.toNat_ofNat, secondCount, monthCount]
    omega
  · have hlarge : ¬ ((cmos cmosTimeYear).toNat + 2000 - 1971) * 31557600 <
        2 ^ 31 := by omega
    rw [intMul, if_neg hlarge]
    exact .inr ⟨by omega, rfl⟩

theorem archTimeInit_counted {clock : Clock} (hvalid : Valid cmos)
    (hclock : archTimeInit cmos = .ok clock) :
    clock.ctime.unixT.toNat = secondCount cmos := by
  rcases archTimeInit_cases hvalid with ⟨-, other, hok, hcount⟩ | ⟨-, herror⟩
  · rw [hok] at hclock
    cases hclock
    exact hcount
  · rw [herror] at hclock
    cases hclock

theorem secondOfDay_lt_iff (hfirst : Valid first) (hsecond : Valid second) :
    secondOfDay first < secondOfDay second ↔
      (first cmosTimeHours).toNat < (second cmosTimeHours).toNat ∨
        (first cmosTimeHours).toNat = (second cmosTimeHours).toNat ∧
          ((first cmosTimeMinutes).toNat < (second cmosTimeMinutes).toNat ∨
            (first cmosTimeMinutes).toNat = (second cmosTimeMinutes).toNat ∧
              (first cmosTimeSeconds).toNat <
                (second cmosTimeSeconds).toNat) := by
  have hminutes := hfirst.minutes
  have hseconds := hfirst.seconds
  have hotherMinutes := hsecond.minutes
  have hotherSeconds := hsecond.seconds
  rw [secondOfDay, secondOfDay]
  omega

theorem monthCount_lt_iff (hfirst : Valid first) (hsecond : Valid second) :
    monthCount first < monthCount second ↔
      (first cmosTimeYear).toNat < (second cmosTimeYear).toNat ∨
        (first cmosTimeYear).toNat = (second cmosTimeYear).toNat ∧
          (first cmosTimeMonth).toNat < (second cmosTimeMonth).toNat := by
  have hmonth := hfirst.month
  have hother := hsecond.month
  rw [monthCount, monthCount]
  omega

theorem calendar_lt_iff (hfirst : Valid first) (hsecond : Valid second) :
    calendar first < calendar second ↔
      monthCount first < monthCount second ∨
        monthCount first = monthCount second ∧
          ((first cmosTimeDay).toNat < (second cmosTimeDay).toNat ∨
            (first cmosTimeDay).toNat = (second cmosTimeDay).toNat ∧
              secondOfDay first < secondOfDay second) := by
  have hmonth := hfirst.month
  have hother := hsecond.month
  have hsame : monthCount first = monthCount second ↔
      (first cmosTimeYear).toNat = (second cmosTimeYear).toNat ∧
        (first cmosTimeMonth).toNat = (second cmosTimeMonth).toNat := by
    rw [monthCount, monthCount]
    omega
  rw [secondOfDay_lt_iff hfirst hsecond, monthCount_lt_iff hfirst hsecond,
    hsame]
  simp only [calendar, List.cons_lt_cons_iff, List.lt_irrefl, and_false,
    or_false]
  tauto

theorem secondCount_lt_iff (hfirst : Valid first) (hsecond : Valid second)
    (hearlier : calendar first < calendar second) :
    secondCount first < secondCount second ↔ ¬ Crosses first second := by
  have htime := secondOfDay_lt hfirst
  have hotherTime := secondOfDay_lt hsecond
  have hday := hfirst.day.2.trans (daysOf_le _ _)
  have hotherDay := hsecond.day.2.trans (daysOf_le _ _)
  have hpos := hfirst.day.1
  have hotherPos := hsecond.day.1
  have horder := (calendar_lt_iff hfirst hsecond).mp hearlier
  rw [secondCount, secondCount]
  constructor
  · intro hless hcrosses
    have hnext := hcrosses.next_month
    have hlast := hcrosses.last_day
    have hstart := hcrosses.first_day
    have hlate := hcrosses.earlier
    omega
  · intro hcrosses
    by_contra hnot
    refine hcrosses ⟨?_, ?_, ?_, ?_⟩
    · omega
    · omega
    · omega
    · omega

theorem Crosses.calendar_lt (hcrosses : Crosses first second)
    (hfirst : Valid first) (hsecond : Valid second) : calendar first < calendar second := by
  have hnext := hcrosses.next_month
  exact (calendar_lt_iff hfirst hsecond).mpr (.inl (by omega))

theorem archTimeInit_fits_iff (hvalid : Valid cmos) :
    archTimeInit cmos ≠ .error .intOverflow ↔
      (cmos cmosTimeYear).toNat ≤ 39 := by
  rcases archTimeInit_cases hvalid with ⟨hyear, clock, hok, -⟩ | ⟨hyear, herror⟩
  · rw [hok]
    exact iff_of_true (fun hfault => by cases hfault) hyear
  · rw [herror]
    exact iff_of_false (fun hne => hne rfl) (by omega)

/-- Two readings are counted in their order within `int` exactly when both are
from before 2040 and they do not lie around the end of a month of 31 days. -/
theorem archTimeInit_ordered_iff (hfirst : Valid first)
    (hsecond : Valid second) :
    Ordered first second ↔
      (first cmosTimeYear).toNat ≤ 39 ∧ (second cmosTimeYear).toNat ≤ 39 ∧
        ¬ Crosses first second := by
  have hfit := archTimeInit_fits_iff hfirst
  have hotherFit := archTimeInit_fits_iff hsecond
  constructor
  · intro hordered
    refine ⟨hfit.mp hordered.first_fits, hotherFit.mp hordered.second_fits, ?_⟩
    intro hcrosses
    have hearlier := hcrosses.calendar_lt hfirst hsecond
    obtain ⟨clock, other, hclock, hother, hlt⟩ := hordered.monotone hearlier
    rw [BitVec.lt_def, (archTimeInit_counted hfirst hclock),
      (archTimeInit_counted hsecond hother)] at hlt
    exact (secondCount_lt_iff hfirst hsecond hearlier).mp hlt hcrosses
  · rintro ⟨hyear, hotherYear, hcrosses⟩
    refine ⟨hfit.mpr hyear, hotherFit.mpr hotherYear, ?_⟩
    intro hearlier
    rcases archTimeInit_cases hfirst with ⟨-, clock, hclock, hcount⟩ | ⟨hlate, -⟩
    · rcases archTimeInit_cases hsecond with
        ⟨-, other, hother, hotherCount⟩ | ⟨hlate, -⟩
      · refine ⟨clock, other, hclock, hother, ?_⟩
        rw [BitVec.lt_def, hcount, hotherCount]
        exact (secondCount_lt_iff hfirst hsecond hearlier).mpr hcrosses
      · omega
    · omega

end

def registersAt (year month day hours minutes seconds : UInt8) : Registers :=
  fun register =>
    if register = cmosTimeYear then year
    else if register = cmosTimeMonth then month
    else if register = cmosTimeDay then day
    else if register = cmosTimeHours then hours
    else if register = cmosTimeMinutes then minutes
    else if register = cmosTimeSeconds then seconds
    else 0

/-- The leap day and the day after. -/
theorem archTimeInit_ordered_leap :
    Ordered (registersAt 24 2 29 23 59 59) (registersAt 24 3 1 0 0 0) ↔
      (registersAt 24 2 29 23 59 59 cmosTimeYear).toNat ≤ 39 ∧
        (registersAt 24 3 1 0 0 0 cmosTimeYear).toNat ≤ 39 ∧
        ¬ Crosses (registersAt 24 2 29 23 59 59) (registersAt 24 3 1 0 0 0) :=
  archTimeInit_ordered_iff
    ⟨by decide, by decide, by decide, by decide, by decide, by decide,
      by decide⟩
    ⟨by decide, by decide, by decide, by decide, by decide, by decide,
      by decide⟩

def lastOfJanuary : Registers := registersAt 24 1 31 23 59 59

def firstOfFebruary : Registers := registersAt 24 2 1 0 0 0

def newYear2040 : Registers := registersAt 40 1 1 0 0 0

/-- Midnight after the last day of January is counted as half a day before it,
and a reading from 2040 leaves the range of `int`. -/
theorem archTimeInit_goes_back :
    (Valid lastOfJanuary ∧ Valid firstOfFebruary ∧
      calendar lastOfJanuary < calendar firstOfFebruary ∧
      ¬ Ordered lastOfJanuary firstOfFebruary) ∧
    Valid newYear2040 ∧ ¬ Ordered lastOfJanuary newYear2040 := by
  have hfirst : Valid lastOfJanuary := ⟨by decide, by decide, by decide,
    by decide, by decide, by decide, by decide⟩
  have hsecond : Valid firstOfFebruary := ⟨by decide, by decide, by decide,
    by decide, by decide, by decide, by decide⟩
  have hlate : Valid newYear2040 := ⟨by decide, by decide, by decide,
    by decide, by decide, by decide, by decide⟩
  refine ⟨⟨hfirst, hsecond, by decide, ?_⟩, hlate, ?_⟩
  · intro hordered
    obtain ⟨clock, other, hclock, hother, hlt⟩ := hordered.monotone (by decide)
    have hcount : (archTimeInit lastOfJanuary).map
        (fun clock => clock.ctime.unixT) = .ok 1677947399 := by
      decide +kernel
    have hotherCount : (archTimeInit firstOfFebruary).map
        (fun clock => clock.ctime.unixT) = .ok 1677898800 := by
      decide +kernel
    rw [hclock] at hcount
    rw [hother] at hotherCount
    have hnow : clock.ctime.unixT = 1677947399 := Except.ok.inj hcount
    have hthen : other.ctime.unixT = 1677898800 := Except.ok.inj hotherCount
    rw [hnow, hthen] at hlt
    exact absurd hlt (by decide)
  · intro hordered
    have hfits := (archTimeInit_fits_iff hlate).mp hordered.second_fits
    exact absurd hfits (by decide)

end Synos.Cmos

import Synos.Data.Machine
import Mathlib.Logic.Function.Iterate

namespace Synos.Cmos

open Synos.Data

/-! The clock: counters that the interrupt of the real-time clock moves on, 8192
times a second. -/

structure Time where
  microseconds : BitVec 64
  milliseconds : BitVec 64
  unixT : BitVec 64
  seconds : UInt8
  minutes : UInt8
  hours : UInt8
  day : UInt8
  month : UInt8
  year : UInt16

structure Clock where
  ctime : Time
  irqCount : BitVec 64

/-- The head of `ms_update`: what 1024 times 122 microseconds fall short of an
eighth of a second. -/
def addRest (clock : Clock) : Clock :=
  if 1024 ≤ clock.irqCount then
    { ctime :=
        { clock.ctime with microseconds := clock.ctime.microseconds + 72 }
      irqCount := 0 }
  else clock

/-- The rest of it, with the operands of the subtractions it evaluates. -/
def addTickTraced (ctime : Time) : Time × List (BitVec 64 × BitVec 64) :=
  let ctime := { ctime with microseconds := ctime.microseconds + 122 }
  let carry := (ctime.microseconds, ctime.milliseconds * 1000)
  let ctime :=
    { ctime with
      milliseconds :=
        if 1000 ≤ carry.1 - carry.2 then ctime.milliseconds + 1
        else ctime.milliseconds }
  if 1000 ≤ ctime.milliseconds then
    ({ ctime with
        microseconds := ctime.microseconds - 1000000
        milliseconds := ctime.milliseconds - 1000
        unixT := ctime.unixT + 1 },
      [carry, (ctime.microseconds, 1000000), (ctime.milliseconds, 1000)])
  else (ctime, [carry])

/-- `ms_update`. The message to the log and the acknowledgement to the chip touch
no counter. -/
def msUpdateTraced (clock : Clock) : Clock × List (BitVec 64 × BitVec 64) :=
  let clock := addRest clock
  let ticked := addTickTraced clock.ctime
  ({ clock with ctime := ticked.1 }, ticked.2)

def msUpdate (clock : Clock) : Clock := (msUpdateTraced clock).1

def countIrq (clock : Clock) : Clock :=
  { clock with irqCount := clock.irqCount + 1 }

def irq8 (clock : Clock) : Clock := msUpdate (countIrq clock)

/-- No subtraction of the interrupt wraps around. -/
def Exact (clock : Clock) : Prop :=
  ∀ operands ∈ (msUpdateTraced (countIrq clock)).2, operands.2 ≤ operands.1

/-- The counters after `ticks` interrupts: every 1024 of them make up 125
milliseconds. -/
structure OnTime (start : BitVec 64) (ticks : Nat) (clock : Clock) : Prop where
  unixT_eq : clock.ctime.unixT = start + BitVec.ofNat 64 (ticks / 8192)
  microseconds_eq : clock.ctime.microseconds.toNat =
    122 * (ticks % 8192) + 72 * (ticks % 8192 / 1024)
  milliseconds_eq : clock.ctime.milliseconds.toNat =
    clock.ctime.microseconds.toNat / 1000
  irqCount_eq : clock.irqCount.toNat = ticks % 1024

section

variable {start : BitVec 64} {ticks : Nat} {clock : Clock} {ctime : Time}

theorem OnTime.microseconds_lt (htime : OnTime start ticks clock) :
    clock.ctime.microseconds.toNat < 1000000 := by
  have hmicro := htime.microseconds_eq
  omega

theorem ticked_toNat {micro : Nat}
    (hmicro : ctime.microseconds.toNat + 122 = micro)
    (hsecond : micro ≤ 1000000) :
    (ctime.microseconds + 122).toNat = micro := by
  rw [BitVec.toNat_add]
  change (ctime.microseconds.toNat + 122) % 2 ^ 64 = micro
  omega

theorem thousands_toNat {milli : Nat} (hmilli : ctime.milliseconds.toNat = milli)
    (hsecond : milli * 1000 ≤ 1000000) :
    (ctime.milliseconds * 1000).toNat = milli * 1000 := by
  rw [BitVec.toNat_mul, hmilli]
  change milli * 1000 % 2 ^ 64 = milli * 1000
  omega

theorem carried_toNat {micro milli : Nat}
    (hmicro : ctime.microseconds.toNat + 122 = micro)
    (hmilli : ctime.milliseconds.toNat = milli)
    (hbehind : milli * 1000 ≤ micro) (hahead : micro < milli * 1000 + 2000)
    (hsecond : micro ≤ 1000000) :
    (if 1000 ≤ ctime.microseconds + 122 - ctime.milliseconds * 1000 then
      ctime.milliseconds + 1 else ctime.milliseconds).toNat = micro / 1000 := by
  have hticked := ticked_toNat hmicro hsecond
  have hthousands := thousands_toNat hmilli (by omega)
  have hcarry : 1000 ≤ ctime.microseconds + 122 - ctime.milliseconds * 1000 ↔
      1000 ≤ micro - milli * 1000 := by
    rw [BitVec.le_def, BitVec.toNat_sub_of_le (by
      rw [BitVec.le_def, hticked, hthousands]
      exact hbehind), hticked, hthousands]
    rfl
  split
  · next hover =>
      rw [BitVec.toNat_add, hmilli]
      change (milli + 1) % 2 ^ 64 = micro / 1000
      have hmore := hcarry.mp hover
      omega
  · next hunder =>
      have hless := mt hcarry.mpr hunder
      omega

theorem addTick_eq {micro milli : Nat}
    (hmicro : ctime.microseconds.toNat + 122 = micro)
    (hmilli : ctime.milliseconds.toNat = milli)
    (hbehind : milli * 1000 ≤ micro) (hahead : micro < milli * 1000 + 2000)
    (hsecond : micro ≤ 1000000) :
    (addTickTraced ctime).1.microseconds.toNat = micro % 1000000 ∧
      (addTickTraced ctime).1.milliseconds.toNat = micro % 1000000 / 1000 ∧
      (addTickTraced ctime).1.unixT =
        ctime.unixT + BitVec.ofNat 64 (micro / 1000000) ∧
      ∀ operands ∈ (addTickTraced ctime).2, operands.2 ≤ operands.1 := by
  have hticked := ticked_toNat hmicro hsecond
  have hcarried := carried_toNat hmicro hmilli hbehind hahead hsecond
  have hordered : ctime.milliseconds * 1000 ≤ ctime.microseconds + 122 := by
    rw [BitVec.le_def, hticked, thousands_toNat hmilli (by omega)]
    exact hbehind
  unfold addTickTraced
  simp only
  generalize (if 1000 ≤ ctime.microseconds + 122 -
    ctime.milliseconds * 1000 then ctime.milliseconds + 1
    else ctime.milliseconds) = next at hcarried ⊢
  have hfull : 1000 ≤ next ↔ micro = 1000000 := by
    rw [BitVec.le_def, hcarried]
    change 1000 ≤ micro / 1000 ↔ _
    omega
  by_cases hrolls : micro = 1000000
  · rw [if_pos (hfull.mpr hrolls)]
    have hmillion : (1000000 : BitVec 64) ≤ ctime.microseconds + 122 := by
      rw [BitVec.le_def, hticked, hrolls]
      exact Nat.le_refl _
    have hthousand := hfull.mpr hrolls
    refine ⟨?_, ?_, ?_, ?_⟩
    · rw [BitVec.toNat_sub_of_le hmillion, hticked, hrolls]
      rfl
    · rw [BitVec.toNat_sub_of_le hthousand, hcarried, hrolls]
      rfl
    · rw [hrolls]
      rfl
    · simp only [List.forall_mem_cons, List.not_mem_nil, IsEmpty.forall_iff,
        implies_true, and_true]
      exact ⟨hordered, hmillion, hthousand⟩
  · rw [if_neg (mt hfull.mp hrolls)]
    refine ⟨?_, ?_, ?_, ?_⟩
    · rw [hticked]
      omega
    · rw [hcarried]
      omega
    · rw [Nat.div_eq_of_lt (by omega)]
      exact (BitVec.add_zero _).symm
    · simp only [List.forall_mem_cons, List.not_mem_nil, IsEmpty.forall_iff,
        implies_true, and_true]
      exact hordered

theorem OnTime.addRest (htime : OnTime start ticks clock) :
    (addRest (countIrq clock)).ctime.microseconds.toNat + 122 =
        122 * (ticks % 8192 + 1) + 72 * ((ticks % 8192 + 1) / 1024) ∧
      (addRest (countIrq clock)).ctime.milliseconds =
        clock.ctime.milliseconds ∧
      (addRest (countIrq clock)).ctime.unixT = clock.ctime.unixT ∧
      (addRest (countIrq clock)).irqCount.toNat = (ticks + 1) % 1024 := by
  have hmicro := htime.microseconds_eq
  have hcount := htime.irqCount_eq
  have hnext : (clock.irqCount + 1).toNat = ticks % 1024 + 1 := by
    rw [BitVec.toNat_add, hcount]
    change (ticks % 1024 + 1) % 2 ^ 64 = ticks % 1024 + 1
    omega
  have hfull : 1024 ≤ (countIrq clock).irqCount ↔ ticks % 1024 = 1023 := by
    rw [countIrq, BitVec.le_def, hnext]
    change 1024 ≤ ticks % 1024 + 1 ↔ _
    omega
  by_cases hcomplete : ticks % 1024 = 1023
  · rw [Cmos.addRest, if_pos (hfull.mpr hcomplete)]
    refine ⟨?_, rfl, rfl, ?_⟩
    · simp only [countIrq]
      rw [BitVec.toNat_add, hmicro]
      change (122 * (ticks % 8192) + 72 * (ticks % 8192 / 1024) + 72) % 2 ^ 64 +
        122 = _
      omega
    · change 0 = (ticks + 1) % 1024
      omega
  · rw [Cmos.addRest, if_neg (mt hfull.mp hcomplete)]
    have hrest : ticks % 8192 % 1024 = ticks % 1024 :=
      Nat.mod_mod_of_dvd _ (by decide)
    have hsame : (ticks % 8192 + 1) / 1024 = ticks % 8192 / 1024 := by
      omega
    refine ⟨?_, rfl, rfl, ?_⟩
    · simp only [countIrq]
      rw [hmicro, hsame, Nat.mul_succ]
      omega
    · simp only [countIrq]
      omega

theorem rolls_over (ticks : Nat) :
    ticks / 8192 + (122 * (ticks % 8192 + 1) +
        72 * ((ticks % 8192 + 1) / 1024)) / 1000000 = (ticks + 1) / 8192 ∧
      (122 * (ticks % 8192 + 1) +
        72 * ((ticks % 8192 + 1) / 1024)) % 1000000 =
        122 * ((ticks + 1) % 8192) + 72 * ((ticks + 1) % 8192 / 1024) := by
  by_cases hlast : ticks % 8192 = 8191
  · have hdiv : (ticks + 1) / 8192 = ticks / 8192 + 1 := by omega
    have hmod : (ticks + 1) % 8192 = 0 := by omega
    rw [hlast, hdiv, hmod]
    exact ⟨rfl, rfl⟩
  · have hdiv : (ticks + 1) / 8192 = ticks / 8192 := by omega
    have hmod : (ticks + 1) % 8192 = ticks % 8192 + 1 := by omega
    have hless : 122 * (ticks % 8192 + 1) + 72 * ((ticks % 8192 + 1) / 1024) <
        1000000 := by omega
    rw [hdiv, hmod, Nat.div_eq_of_lt hless, Nat.mod_eq_of_lt hless]
    exact ⟨rfl, rfl⟩

theorem OnTime.irq8 (htime : OnTime start ticks clock) :
    OnTime start (ticks + 1) (irq8 clock) ∧ Exact clock := by
  have hrested := htime.addRest
  have hbefore := htime.microseconds_eq
  have hsecond := htime.milliseconds_eq
  simp only [Exact, Cmos.irq8, msUpdate, msUpdateTraced]
  generalize Cmos.addRest (countIrq clock) = rested at *
  obtain ⟨hmicro, hmilli, hunix, hcount⟩ := hrested
  rw [← hmilli] at hsecond
  have hticked := addTick_eq hmicro hsecond (by omega) (by omega) (by omega)
  generalize addTickTraced rested.ctime = ticked at *
  obtain ⟨hmicroNext, hmilliNext, hunixNext, hexact⟩ := hticked
  rw [hunix, htime.unixT_eq, BitVec.add_assoc, ← BitVec.ofNat_add,
    (rolls_over ticks).1] at hunixNext
  rw [← hmicroNext] at hmilliNext
  rw [(rolls_over ticks).2] at hmicroNext
  exact ⟨⟨hunixNext, hmicroNext, hmilliNext, hcount⟩, hexact⟩

theorem OnTime.run (htime : OnTime start 0 clock) (ticks : Nat) :
    OnTime start ticks (Cmos.irq8^[ticks] clock) ∧
      ∀ earlier < ticks, Exact (Cmos.irq8^[earlier] clock) := by
  induction ticks with
  | zero => exact ⟨htime, fun earlier hearlier => absurd hearlier (by omega)⟩
  | succ ticks ih =>
      obtain ⟨hnow, hpast⟩ := ih
      rw [Function.iterate_succ_apply']
      refine ⟨hnow.irq8.1, ?_⟩
      intro earlier hearlier
      rcases Nat.lt_succ_iff_lt_or_eq.mp hearlier with hlt | rfl
      · exact hpast earlier hlt
      · exact hnow.irq8.2

end

/-- The clock after `arch_time_init`: the time of day is known, and the counters
start from zero. -/
def startClock (ctime : Time) : Clock where
  ctime := { ctime with microseconds := 0, milliseconds := 0 }
  irqCount := 0

theorem startClock_onTime (ctime : Time) :
    OnTime ctime.unixT 0 (startClock ctime) where
  unixT_eq := (BitVec.add_zero _).symm
  microseconds_eq := rfl
  milliseconds_eq := by simp [startClock]
  irqCount_eq := rfl

/-- The clock neither drifts nor loses a carry, and subtracts within bounds. -/
theorem irq8_run_exact (ctime : Time) (ticks : Nat) :
    let clock := irq8^[ticks] (startClock ctime)
    clock.ctime.unixT = ctime.unixT + BitVec.ofNat 64 (ticks / 8192) ∧
      clock.ctime.microseconds.toNat =
        122 * (ticks % 8192) + 72 * (ticks % 8192 / 1024) ∧
      clock.ctime.milliseconds.toNat =
        clock.ctime.microseconds.toNat / 1000 ∧
      clock.ctime.microseconds.toNat < 1000000 ∧
      ∀ earlier < ticks, Exact (irq8^[earlier] (startClock ctime)) := by
  obtain ⟨htime, hexact⟩ := (startClock_onTime ctime).run ticks
  exact ⟨htime.unixT_eq, htime.microseconds_eq, htime.milliseconds_eq,
    htime.microseconds_lt, hexact⟩

end Synos.Cmos

import Synos.Interrupts.Pic
import Mathlib.Data.Fintype.Basic

namespace Synos.Interrupts

open Synos.Data

/-! Which interrupts the stubs acknowledge: all but the real ones of the lines 7
and 15, which are always taken for spurious. -/

/-- What a stub does between the acknowledgements reaches no controller. -/
structure Quiet (handler : IrqState → IrqState) : Prop where
  master_eq : ∀ state, (handler state).master = state.master
  slave_eq : ∀ state, (handler state).slave = state.slave
  irqSpurious_eq : ∀ state, (handler state).irqSpurious = state.irqSpurious

theorem quiet_id : Quiet id := ⟨fun _ => rfl, fun _ => rfl, fun _ => rfl⟩

theorem quiet_readSerial : Quiet readSerial :=
  ⟨fun _ => rfl, fun _ => rfl, fun _ => rfl⟩

theorem quiet_tickClock : Quiet tickClock := by
  constructor <;> intro state <;> rw [tickClock]

theorem idt_eq_stub (irq : Fin 16) :
    ∃ handler, Quiet handler ∧ idt irq = irqStub (UInt8.ofNat irq) handler := by
  fin_cases irq
  case «4» => exact ⟨readSerial, quiet_readSerial, rfl⟩
  case «8» => exact ⟨tickClock, quiet_tickClock, rfl⟩
  all_goals exact ⟨id, quiet_id, rfl⟩

section

variable {state : IrqState} {irq : UInt8} {line : Fin 16}

theorem picEoi_master :
    (picEoi irq state).master.inService =
      Priority.clearFirst state.master.inService := by
  unfold picEoi
  split <;> rfl

theorem picEoi_slave :
    (picEoi irq state).slave.inService =
      if 8 ≤ irq then Priority.clearFirst state.slave.inService
      else state.slave.inService := by
  unfold picEoi
  split <;> rfl

theorem picEoi_irqSpurious :
    (picEoi irq state).irqSpurious = state.irqSpurious := by
  unfold picEoi
  split <;> rfl

theorem picIsr_eq :
    picIsr state =
      ({ state with
          master := { state.master with readsInService := true }
          slave := { state.slave with readsInService := true } },
        state.slave.inService.setWidth 16 <<< 8 |||
          state.master.inService.setWidth 16) := rfl

theorem picSoi_other (h7 : irq ≠ 7) (h15 : irq ≠ 15) :
    picSoi irq state = (state, false) :=
  if_pos ⟨h7, h15⟩

theorem getLsbD_lowByte {index : Nat} (hindex : index < 16) :
    (0xFF : BitVec 16).getLsbD index = decide (index < 8) := by
  change ((BitVec.allOnes 8).setWidth 16).getLsbD index = decide (index < 8)
  rw [BitVec.getLsbD_setWidth, BitVec.getLsbD_allOnes, decide_eq_true hindex,
    Bool.true_and]

theorem isrMaster_picIsr :
    isrMaster (picIsr state).2 = state.master.inService.setWidth 16 := by
  rw [picIsr_eq, isrMaster]
  apply BitVec.eq_of_getLsbD_eq
  intro index hindex
  rw [BitVec.getLsbD_and, getLsbD_lowByte hindex]
  by_cases hlow : index < 8
  · simp [hlow]
  · simp [hlow, BitVec.getLsbD_of_ge _ index (Nat.le_of_not_lt hlow)]

theorem isrSlave_ne (isr : BitVec 16) : isrSlave isr ≠ 15 := by
  intro h
  have hbit := congrArg (fun bits => bits.getLsbD 0) h
  simp [isrSlave] at hbit

theorem picSoi_seven (hisr : state.master.inService ≠ 7) :
    picSoi 7 state = ((picIsr state).1.countSpurious, true) := by
  have hmaster : isrMaster (picIsr state).2 ≠ 7 := by
    rw [isrMaster_picIsr]
    intro heq
    apply hisr
    simpa using congrArg (BitVec.setWidth 8) heq
  rw [picSoi, if_neg (by decide)]
  exact if_pos ⟨rfl, hmaster⟩

theorem picSoi_fifteen :
    picSoi 15 state =
      (outb .pic1 picEoiCode (picIsr state).1.countSpurious, true) := by
  rw [picSoi, if_neg (by decide)]
  have hother : ¬((15 : UInt8) = 7 ∧ isrMaster (picIsr state).2 ≠ 7) :=
    fun h => absurd h.1 (by decide)
  exact (if_neg hother).trans (if_pos ⟨rfl, isrSlave_ne _⟩)

theorem irqStub_of_soi {handler : IrqState → IrqState} {next : IrqState}
    (hsoi : picSoi irq state = (next, true)) :
    irqStub irq handler state = next := by
  simp [irqStub, icSoi, hsoi]

theorem irqStub_other {handler : IrqState → IrqState} (h7 : irq ≠ 7)
    (h15 : irq ≠ 15) :
    irqStub irq handler state = picEoi irq (handler state) := by
  simp [irqStub, icSoi, icEoi, picSoi_other h7 h15]

end

/-- Nothing is in service. -/
structure Idle (state : IrqState) : Prop where
  master_eq : state.master.inService = 0
  slave_eq : state.slave.inService = 0

section

variable {state : IrqState} {irq : Fin 16}

theorem ofNat_inj (other : Fin 16) :
    UInt8.ofNat irq = UInt8.ofNat other ↔ irq = other := by
  revert irq other
  decide

theorem eight_le_ofNat : 8 ≤ UInt8.ofNat irq ↔ 8 ≤ irq.val := by
  revert irq
  decide

theorem handle_real (h7 : irq ≠ 7) (h15 : irq ≠ 15) :
    ∃ handler, Quiet handler ∧
      handle (.real irq) state =
        picEoi (UInt8.ofNat irq) (handler (Interrupt.raise (.real irq) state)) := by
  obtain ⟨handler, hquiet, hstub⟩ := idt_eq_stub irq
  refine ⟨handler, hquiet, ?_⟩
  rw [handle, Interrupt.irq, hstub]
  exact irqStub_other (mt (ofNat_inj 7).mp h7) (mt (ofNat_inj 15).mp h15)

theorem handle_seven (hisr : state.master.inService ≠ 7) :
    idt 7 state = (picIsr state).1.countSpurious :=
  irqStub_of_soi (picSoi_seven hisr)

theorem handle_fifteen :
    idt 15 state = outb .pic1 picEoiCode (picIsr state).1.countSpurious :=
  irqStub_of_soi picSoi_fifteen

theorem clearFirst_serve {pic : Pic} (hpic : pic.inService = 0)
    (line : Fin 8) :
    Priority.clearFirst (pic.serve line).inService = pic.inService := by
  apply Priority.clearFirst_set
  rw [hpic]
  exact Priority.precedes_zero line

theorem raise_master (hmaster : irq.val < 8) :
    Interrupt.raise (.real irq) state =
      { state with master := state.master.serve ⟨irq, hmaster⟩ } :=
  dif_pos hmaster

theorem raise_slave (hslave : ¬irq.val < 8) :
    Interrupt.raise (.real irq) state =
      { state with
        master := state.master.serve 2
        slave := state.slave.serve ⟨irq.val - 8, slaveLine_lt hslave⟩ } :=
  dif_neg hslave

theorem acknowledged_real (hidle : Idle state) (h7 : irq ≠ 7)
    (h15 : irq ≠ 15) : Acknowledged state (.real irq) := by
  obtain ⟨handler, hquiet, hhandle⟩ := @handle_real state irq h7 h15
  by_cases hmaster : irq.val < 8
  · rw [raise_master hmaster] at hhandle
    constructor
    · rw [hhandle, picEoi_master, hquiet.master_eq]
      exact clearFirst_serve hidle.master_eq ⟨irq, hmaster⟩
    · rw [hhandle, picEoi_slave, hquiet.slave_eq,
        if_neg (mt eight_le_ofNat.mp (Nat.not_le_of_lt hmaster))]
    · rw [hhandle, picEoi_irqSpurious, hquiet.irqSpurious_eq]
      exact (BitVec.add_zero state.irqSpurious).symm
  · rw [raise_slave hmaster] at hhandle
    constructor
    · rw [hhandle, picEoi_master, hquiet.master_eq]
      exact clearFirst_serve hidle.master_eq 2
    · rw [hhandle, picEoi_slave, hquiet.slave_eq,
        if_pos (eight_le_ofNat.mpr (Nat.le_of_not_lt hmaster))]
      exact clearFirst_serve hidle.slave_eq _
    · rw [hhandle, picEoi_irqSpurious, hquiet.irqSpurious_eq]
      exact (BitVec.add_zero state.irqSpurious).symm

theorem acknowledged_spurious7 (hidle : Idle state) :
    Acknowledged state .spurious7 := by
  have hhandle : handle .spurious7 state = (picIsr state).1.countSpurious := by
    apply handle_seven
    change state.master.inService ≠ 7
    rw [hidle.master_eq]
    decide
  constructor
  · rw [hhandle]
    rfl
  · rw [hhandle]
    rfl
  · rw [hhandle]
    rfl

theorem acknowledged_spurious15 (hidle : Idle state) :
    Acknowledged state .spurious15 := by
  have hhandle : handle .spurious15 state = outb .pic1 picEoiCode
      (picIsr (Interrupt.raise .spurious15 state)).1.countSpurious :=
    handle_fifteen
  constructor
  · rw [hhandle]
    exact clearFirst_serve hidle.master_eq 2
  · rw [hhandle]
    rfl
  · rw [hhandle]
    rfl

/-- A real interrupt that is counted as a spurious one. -/
theorem not_acknowledged_of_counted {interrupt : Interrupt}
    (hreal : interrupt.isSpurious = false)
    (hcount : (handle interrupt state).irqSpurious = state.irqSpurious + 1) :
    ¬Acknowledged state interrupt := by
  intro hack
  have heq := hack.irqSpurious_eq
  rw [hcount, hreal] at heq
  exact absurd ((BitVec.add_right_inj state.irqSpurious).mp heq) (by decide)

/-- Bit 7 of the register is never the number 7. -/
theorem not_acknowledged_seven : ¬Acknowledged state (.real 7) := by
  apply not_acknowledged_of_counted rfl
  have hhandle : handle (.real 7) state =
      (picIsr (Interrupt.raise (.real 7) state)).1.countSpurious := by
    apply handle_seven
    intro hisr
    have hbit : (Priority.set state.master.inService 7).getLsbD 7 = true := by
      apply (Priority.getLsbD_set 7).trans
      rw [beq_self_eq_true, Bool.or_true]
    change Priority.set state.master.inService 7 = 7 at hisr
    rw [hisr] at hbit
    exact absurd hbit (by decide)
  rw [hhandle]
  rfl

theorem not_acknowledged_fifteen : ¬Acknowledged state (.real 15) := by
  apply not_acknowledged_of_counted rfl
  have hhandle : handle (.real 15) state = outb .pic1 picEoiCode
      (picIsr (Interrupt.raise (.real 15) state)).1.countSpurious :=
    handle_fifteen
  rw [hhandle]
  rfl

theorem acknowledged_of_idle {interrupt : Interrupt} (hidle : Idle state)
    (h7 : interrupt ≠ .real 7) (h15 : interrupt ≠ .real 15) :
    Acknowledged state interrupt := by
  cases interrupt with
  | real irq =>
      apply acknowledged_real hidle
      · exact mt (congrArg Interrupt.real) h7
      · exact mt (congrArg Interrupt.real) h15
  | spurious7 => exact acknowledged_spurious7 hidle
  | spurious15 => exact acknowledged_spurious15 hidle

theorem idle_of_acknowledged {interrupt : Interrupt} (hidle : Idle state)
    (hack : Acknowledged state interrupt) : Idle (handle interrupt state) where
  master_eq := hack.master_eq.trans hidle.master_eq
  slave_eq := hack.slave_eq.trans hidle.slave_eq

theorem guarded_cons {interrupt : Interrupt} {interrupts : List Interrupt} :
    irqMachine.Guarded Acknowledged state (interrupt :: interrupts) ↔
      Acknowledged state interrupt ∧
        irqMachine.Guarded Acknowledged (handle interrupt state) interrupts := by
  simp [Machine.Guarded, irqMachine]

theorem real_of_guarded {interrupts : List Interrupt}
    (hguard : irqMachine.Guarded Acknowledged state interrupts) :
    ∀ interrupt ∈ interrupts, interrupt ≠ .real 7 ∧ interrupt ≠ .real 15 := by
  induction interrupts generalizing state with
  | nil => simp
  | cons first rest ih =>
      obtain ⟨hfirst, hrest⟩ := guarded_cons.mp hguard
      refine List.forall_mem_cons.mpr ⟨⟨?_, ?_⟩, ih hrest⟩
      · intro heq
        exact not_acknowledged_seven (heq ▸ hfirst)
      · intro heq
        exact not_acknowledged_fifteen (heq ▸ hfirst)

theorem guarded_of_real {interrupts : List Interrupt} (hidle : Idle state)
    (hreal : ∀ interrupt ∈ interrupts,
      interrupt ≠ .real 7 ∧ interrupt ≠ .real 15) :
    irqMachine.Guarded Acknowledged state interrupts := by
  induction interrupts generalizing state with
  | nil => exact trivial
  | cons first rest ih =>
      obtain ⟨⟨h7, h15⟩, hrest⟩ := List.forall_mem_cons.mp hreal
      have hack := acknowledged_of_idle hidle h7 h15
      exact guarded_cons.mpr
        ⟨hack, ih (idle_of_acknowledged hidle hack) hrest⟩

/-- Every interrupt of a run is acknowledged if and only if neither line 7 nor
line 15 is ever really raised. -/
theorem guarded_acknowledged_iff {interrupts : List Interrupt}
    (hidle : Idle state) :
    irqMachine.Guarded Acknowledged state interrupts ↔
      ∀ interrupt ∈ interrupts, interrupt ≠ .real 7 ∧ interrupt ≠ .real 15 :=
  ⟨real_of_guarded, guarded_of_real hidle⟩

end

def resetPic : Pic := ⟨0, 0, false⟩

def resetState : IrqState where
  master := resetPic
  slave := resetPic
  irqSpurious := 0
  clock := ⟨⟨0, 0, 0, 0, 0, 0, 0, 0, 0⟩, 0⟩
  received := []

theorem guarded_acknowledged_reset :
    irqMachine.Guarded Acknowledged resetState
      [.real 0, .spurious7, .real 8, .spurious15, .real 14] :=
  (guarded_acknowledged_iff ⟨rfl, rfl⟩).mpr (by decide)

/-- The line stays in service, and the interrupt is counted as spurious. -/
theorem seven_stays_in_service :
    (handle (.real 7) resetState).master.inService = 0x80 ∧
      (handle (.real 7) resetState).irqSpurious = 1 ∧
      ¬irqMachine.Guarded Acknowledged resetState [.real 7] :=
  ⟨rfl, rfl, fun hguard =>
    absurd hguard.1.irqSpurious_eq (by decide)⟩

end Synos.Interrupts

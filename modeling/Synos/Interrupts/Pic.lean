import Synos.Data.Machine
import Synos.Data.Priority
import Synos.Cmos.Clock
import Mathlib.Data.Fin.VecNotation
import Mathlib.Tactic.FinCases

namespace Synos.Interrupts

open Synos.Data

/-! The two cascaded interrupt controllers and the stubs that acknowledge their
interrupts. -/

def picReadIrr : UInt8 := 0x0a

def picReadIsr : UInt8 := 0x0b

def picEoiCode : UInt8 := 0x20

structure Pic where
  inService : BitVec 8
  requests : BitVec 8
  /-- The register that the next read of the command port returns. -/
  readsInService : Bool

namespace Pic

def command (pic : Pic) (code : UInt8) : Pic :=
  if code = picEoiCode then
    { pic with inService := Priority.clearFirst pic.inService }
  else if code = picReadIsr then { pic with readsInService := true }
  else if code = picReadIrr then { pic with readsInService := false }
  else pic

def status (pic : Pic) : BitVec 8 :=
  if pic.readsInService then pic.inService else pic.requests

def serve (pic : Pic) (line : Fin 8) : Pic :=
  { pic with inService := Priority.set pic.inService line }

end Pic

/-- What the stubs read and write. -/
structure IrqState where
  master : Pic
  slave : Pic
  irqSpurious : BitVec 64
  clock : Cmos.Clock
  /-- Bytes that wait at the serial port. -/
  received : List UInt8

inductive CommandPort
  | pic1
  | pic2

def outb (port : CommandPort) (code : UInt8) (state : IrqState) : IrqState :=
  match port with
  | .pic1 => { state with master := state.master.command code }
  | .pic2 => { state with slave := state.slave.command code }

def inb (port : CommandPort) (state : IrqState) : BitVec 8 :=
  match port with
  | .pic1 => state.master.status
  | .pic2 => state.slave.status

def picRead (ocw3 : UInt8) (state : IrqState) : IrqState × BitVec 16 :=
  let state := outb .pic2 ocw3 (outb .pic1 ocw3 state)
  (state, (inb .pic2 state).setWidth 16 <<< 8 |||
    (inb .pic1 state).setWidth 16)

def picIsr (state : IrqState) : IrqState × BitVec 16 :=
  picRead picReadIsr state

def isrMaster (isr : BitVec 16) : BitVec 16 := isr &&& 0xFF

def isrSlave (isr : BitVec 16) : BitVec 16 := isr &&& 0xFF00

def IrqState.countSpurious (state : IrqState) : IrqState :=
  { state with irqSpurious := state.irqSpurious + 1 }

/-- `PIC_SOI`, and whether it left the interrupt through `IRQ_RET`. -/
def picSoi (irq : UInt8) (state : IrqState) : IrqState × Bool :=
  if irq ≠ 7 ∧ irq ≠ 15 then (state, false)
  else
    let isr := picIsr state
    if irq = 7 ∧ isrMaster isr.2 ≠ 7 then (isr.1.countSpurious, true)
    else if irq = 15 ∧ isrSlave isr.2 ≠ 15 then
      -- the cascade line of the master is in service even so
      (outb .pic1 picEoiCode isr.1.countSpurious, true)
    else (isr.1, false)

def picEoi (irq : UInt8) (state : IrqState) : IrqState :=
  outb .pic1 picEoiCode (if 8 ≤ irq then outb .pic2 picEoiCode state else state)

/-- `IC_SOI`: nothing writes `ic_control`, which stays at its initial value, the
PIC. -/
def icSoi (irq : UInt8) (state : IrqState) : IrqState × Bool := picSoi irq state

def icEoi (irq : UInt8) (state : IrqState) : IrqState := picEoi irq state

/-- The macros `SOI` and `EOI` around what a stub does between them. -/
def irqStub (irq : UInt8) (handler : IrqState → IrqState) (state : IrqState) :
    IrqState :=
  let soi := icSoi irq state
  if soi.2 then soi.1 else icEoi irq (handler soi.1)

/-- `read_serial`: its callers drop the byte. -/
def readSerial (state : IrqState) : IrqState :=
  { state with received := state.received.tail }

def tickClock (state : IrqState) : IrqState :=
  { state with clock := Cmos.irq8 state.clock }

def irq0 : IrqState → IrqState := irqStub 0 id

def irq1 : IrqState → IrqState := irqStub 1 id

def irq2 : IrqState → IrqState := irqStub 2 id

def irq3 : IrqState → IrqState := irqStub 3 id

def irq4 : IrqState → IrqState := irqStub 4 readSerial

def irq5 : IrqState → IrqState := irqStub 5 id

def irq6 : IrqState → IrqState := irqStub 6 id

def irq7 : IrqState → IrqState := irqStub 7 id

def irq8 : IrqState → IrqState := irqStub 8 tickClock

def irq9 : IrqState → IrqState := irqStub 9 id

def irq10 : IrqState → IrqState := irqStub 10 id

def irq11 : IrqState → IrqState := irqStub 11 id

def irq12 : IrqState → IrqState := irqStub 12 id

def irq13 : IrqState → IrqState := irqStub 13 id

def irq14 : IrqState → IrqState := irqStub 14 id

def irq15 : IrqState → IrqState := irqStub 15 id

def idt : Fin 16 → IrqState → IrqState :=
  ![irq0, irq1, irq2, irq3, irq4, irq5, irq6, irq7, irq8, irq9, irq10, irq11,
    irq12, irq13, irq14, irq15]

inductive Interrupt
  | real (irq : Fin 16)
  | spurious7
  | spurious15
  deriving DecidableEq

theorem slaveLine_lt {irq : Fin 16} (hslave : ¬irq.val < 8) :
    irq.val - 8 < 8 := by
  omega

namespace Interrupt

def irq : Interrupt → Fin 16
  | real irq => irq
  | spurious7 => 7
  | spurious15 => 15

def isSpurious : Interrupt → Bool
  | real _ => false
  | spurious7 | spurious15 => true

/-- The controllers hand the interrupt to the processor. A line of the slave
arrives through line 2 of the master. -/
def raise : Interrupt → IrqState → IrqState
  | real irq, state =>
      if hmaster : irq.val < 8 then
        { state with master := state.master.serve ⟨irq, hmaster⟩ }
      else
        { state with
          master := state.master.serve 2
          slave := state.slave.serve ⟨irq.val - 8, slaveLine_lt hmaster⟩ }
  | spurious7, state => state
  | spurious15, state => { state with master := state.master.serve 2 }

end Interrupt

def handle (interrupt : Interrupt) (state : IrqState) : IrqState :=
  idt interrupt.irq (interrupt.raise state)

def irqMachine : Machine Fault IrqState Interrupt where
  step state interrupt := .ok (handle interrupt state)

/-- The stub put both registers back and counted the interrupt if and only if it
was a spurious one. -/
structure Acknowledged (state : IrqState) (interrupt : Interrupt) : Prop where
  master_eq :
    (handle interrupt state).master.inService = state.master.inService
  slave_eq :
    (handle interrupt state).slave.inService = state.slave.inService
  irqSpurious_eq : (handle interrupt state).irqSpurious =
    state.irqSpurious + if interrupt.isSpurious then 1 else 0

end Synos.Interrupts

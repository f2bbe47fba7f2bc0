import Synos.Data.Machine

namespace Synos.Interrupts

open Synos.Data

/-! The devices behind the ports that the start of the kernel programs. -/

inductive Stage
  | ready
  | icw2
  | icw3
  | icw4
  deriving DecidableEq, Repr

/-- What an interrupt controller is set up with: a command with bit 4 begins a
sequence of two to four bytes. -/
structure Controller where
  stage : Stage
  isSingle : Bool
  needsIcw4 : Bool
  base : UInt8
  cascade : UInt8
  mode : UInt8
  mask : UInt8

namespace Controller

def command (value : UInt8) (controller : Controller) : Controller :=
  if value &&& 0x10 = 0 then controller
  else
    { controller with
      stage := .icw2
      isSingle := decide (value &&& 0x02 ≠ 0)
      needsIcw4 := decide (value &&& 0x01 ≠ 0)
      mode := if value &&& 0x01 = 0 then 0 else controller.mode
      mask := 0 }

def data (value : UInt8) (controller : Controller) : Controller :=
  let last := if controller.needsIcw4 then Stage.icw4 else .ready
  match controller.stage with
  | .ready => { controller with mask := value }
  | .icw2 =>
      -- the controller puts the line into the low bits
      { controller with
        base := value &&& 0xF8
        stage := if controller.isSingle then last else .icw3 }
  | .icw3 => { controller with cascade := value, stage := last }
  | .icw4 => { controller with mode := value, stage := .ready }

def vector (controller : Controller) (line : UInt8) : UInt8 :=
  controller.base + line

end Controller

/-- The divisor stands where the data and the interrupts stand while bit 7 of
`lineControl` is set. -/
structure Uart where
  sent : List UInt8
  divisorLow : UInt8
  divisorHigh : UInt8
  interruptEnable : UInt8
  fifoControl : UInt8
  lineControl : UInt8
  modemControl : UInt8

namespace Uart

def isDivisor (uart : Uart) : Bool := decide (uart.lineControl &&& 0x80 ≠ 0)

def write (register value : UInt8) (uart : Uart) : Uart :=
  match register with
  | 0 =>
      if uart.isDivisor then { uart with divisorLow := value }
      else { uart with sent := uart.sent ++ [value] }
  | 1 =>
      if uart.isDivisor then { uart with divisorHigh := value }
      else { uart with interruptEnable := value }
  | 2 => { uart with fifoControl := value }
  | 3 => { uart with lineControl := value }
  | 4 => { uart with modemControl := value }
  | _ => uart

end Uart

structure Devices where
  master : Controller
  slave : Controller
  uart : Uart
  /-- The last byte written to the index port of the clock chip; bit 7 keeps the
  non-maskable interrupts out. -/
  cmosReg : UInt8
  /-- The register of the local controller's base. -/
  apicBase : BitVec 64

inductive OutPort
  | pic1Command
  | pic1Data
  | pic2Command
  | pic2Data
  | com1 (register : UInt8)
  | cmosReg
  | wait

inductive InPort
  | pic1Data
  | pic2Data
  | cmosReg

namespace Devices

def outb (port : OutPort) (value : UInt8) (devices : Devices) : Devices :=
  match port with
  | .pic1Command => { devices with master := devices.master.command value }
  | .pic1Data => { devices with master := devices.master.data value }
  | .pic2Command => { devices with slave := devices.slave.command value }
  | .pic2Data => { devices with slave := devices.slave.data value }
  | .com1 register => { devices with uart := devices.uart.write register value }
  | .cmosReg => { devices with cmosReg := value }
  | .wait => devices

def inb (port : InPort) (devices : Devices) : UInt8 :=
  match port with
  | .pic1Data => devices.master.mask
  | .pic2Data => devices.slave.mask
  | .cmosReg => devices.cmosReg

def ioWait (devices : Devices) : Devices := devices.outb .wait 0

end Devices

/-- `APIC_disable`: the high half of the register is written with zeros. -/
def apicDisable (devices : Devices) : Devices :=
  let eax := devices.apicBase.setWidth 32 &&& ~~~((1 : BitVec 32) <<< 11)
  { devices with apicBase := eax.setWidth 64 }

def icw1Init : UInt8 := 0x10

def icw1Icw4 : UInt8 := 0x01

def icw48086 : UInt8 := 0x01

/-- `PIC_Configure`; `hasApic` is what the processor says of itself, in a build
with support for it. -/
def picConfigure (hasApic : Bool) (offset1 offset2 : UInt8)
    (devices : Devices) : Devices :=
  let devices := if hasApic then apicDisable devices else devices
  let a1 := devices.inb .pic1Data
  let a2 := devices.inb .pic2Data
  devices
    |>.outb .pic1Command (icw1Init ||| icw1Icw4) |>.ioWait
    |>.outb .pic2Command (icw1Init ||| icw1Icw4) |>.ioWait
    |>.outb .pic1Data offset1 |>.ioWait
    |>.outb .pic2Data offset2 |>.ioWait
    |>.outb .pic1Data 4 |>.ioWait
    |>.outb .pic2Data 2 |>.ioWait
    |>.outb .pic1Data icw48086 |>.ioWait
    |>.outb .pic2Data icw48086 |>.ioWait
    |>.outb .pic1Data a1
    |>.outb .pic2Data a2

def serialInit (devices : Devices) : Devices :=
  devices
    |>.outb (.com1 1) 0x00
    |>.outb (.com1 3) 0x80
    |>.outb (.com1 0) 0x03
    |>.outb (.com1 1) 0x00
    |>.outb (.com1 3) 0x03
    |>.outb (.com1 2) 0xC7
    |>.outb (.com1 4) 0x0B

def nmiDisable (devices : Devices) : Devices :=
  devices.outb .cmosReg (devices.inb .cmosReg ||| 0x80)

/-! What the programming comes to, whatever the devices were doing before. -/

/-- A controller of a cascade, in the mode that names vectors. -/
def configured (offset cascade mask : UInt8) : Controller where
  stage := .ready
  isSingle := false
  needsIcw4 := true
  base := offset &&& 0xF8
  cascade := cascade
  mode := icw48086
  mask := mask

theorem picConfigure_eq (hasApic : Bool) (offset1 offset2 : UInt8)
    (devices : Devices) :
    picConfigure hasApic offset1 offset2 devices =
      { devices with
        master := configured offset1 4 devices.master.mask
        slave := configured offset2 2 devices.slave.mask
        apicBase :=
          if hasApic then (apicDisable devices).apicBase
          else devices.apicBase } := by
  cases hasApic with
  | false => rfl
  | true => rfl

/-- The first write is meant for the interrupts of the port, but goes to the
divisor where that was left in their place. -/
theorem serialInit_eq (devices : Devices) :
    serialInit devices =
      { devices with
        uart :=
          { devices.uart with
            divisorLow := 3
            divisorHigh := 0
            interruptEnable :=
              if devices.uart.isDivisor then devices.uart.interruptEnable
              else 0
            fifoControl := 0xC7
            lineControl := 0x03
            modemControl := 0x0B } } := by
  by_cases hdivisor : devices.uart.lineControl &&& 0x80 = 0
  · simp [serialInit, Devices.outb, Uart.write, Uart.isDivisor, hdivisor]
  · simp [serialInit, Devices.outb, Uart.write, Uart.isDivisor, hdivisor]

end Synos.Interrupts

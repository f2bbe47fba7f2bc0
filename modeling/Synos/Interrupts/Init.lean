import Synos.Interrupts.Acknowledge
import Synos.Interrupts.Devices
import Synos.Interrupts.Idt

namespace Synos.Interrupts

open Synos.Data

/-! `interrupt_init`, and the handlers that the lines of the controllers reach
after it. -/

def irqStart : UInt8 := 100

structure InterruptSystem where
  table : Idt
  devices : Devices
  idtrLimit : BitVec 16
  idtrOffset : BitVec 64
  isEnabled : Bool

/-- Where the linker put the handlers and the table. -/
structure Image where
  address : Handler → BitVec 64
  idt : BitVec 64

/-- `IC_Configure` for the controller that `IC_Controller` names, which is always
the PIC. -/
def icConfigure (hasApic : Bool) (devices : Devices) : Devices :=
  picConfigure hasApic irqStart (irqStart + 8) devices

def interruptInit (image : Image) (syscallIsr : UInt8) (hasApic : Bool)
    (system : InterruptSystem) : Except Fault InterruptSystem :=
  let devices := nmiDisable system.devices
  if irqStart.toNat ≤ syscallIsr.toNat ∧
      syscallIsr.toNat < irqStart.toNat + 16 then .error .panic
  else if syscallIsr.toNat ≤ 31 then .error .panic
  else
    .ok
      { table := idtMap image.address irqStart syscallIsr system.table
        devices := serialInit (icConfigure hasApic devices)
        idtrLimit := 0x1000
        idtrOffset := image.idt
        -- `IDT_load`
        isEnabled := false }

/-- The vectors that the system calls may take. -/
def Free (syscallIsr : UInt8) : Prop :=
  31 < syscallIsr.toNat ∧
    (syscallIsr.toNat < 100 ∨ 116 ≤ syscallIsr.toNat)

instance : DecidablePred Free :=
  fun _ => inferInstanceAs (Decidable (_ ∧ _))

section

variable {image : Image} {syscallIsr : UInt8} {hasApic : Bool}
  {system after : InterruptSystem}

theorem interruptInit_of_free (hfree : Free syscallIsr) :
    interruptInit image syscallIsr hasApic system =
      .ok
        { table := idtMap image.address irqStart syscallIsr system.table
          devices := serialInit (icConfigure hasApic (nmiDisable system.devices))
          idtrLimit := 0x1000
          idtrOffset := image.idt
          isEnabled := false } := by
  have hirq : ¬(irqStart.toNat ≤ syscallIsr.toNat ∧
      syscallIsr.toNat < irqStart.toNat + 16) := by
    change ¬(100 ≤ syscallIsr.toNat ∧ syscallIsr.toNat < 116)
    have := hfree.2
    omega
  rw [interruptInit, if_neg hirq, if_neg (Nat.not_le_of_lt hfree.1)]

theorem interruptInit_of_not_free (hfree : ¬Free syscallIsr) :
    interruptInit image syscallIsr hasApic system = .error .panic := by
  rw [interruptInit]
  by_cases hirq : irqStart.toNat ≤ syscallIsr.toNat ∧
      syscallIsr.toNat < irqStart.toNat + 16
  · exact if_pos hirq
  · rw [if_neg hirq]
    refine if_pos ?_
    change ¬(100 ≤ syscallIsr.toNat ∧ syscallIsr.toNat < 116) at hirq
    rw [Free] at hfree
    omega

theorem mem_vectors_irqGates {start vector : UInt8} :
    vector ∈ vectors (irqGates start) ↔
      ∃ line : Fin 16, start + UInt8.ofNat line.val = vector := by
  simp [vectors, irqGates]

theorem vectors_gates {start : UInt8} :
    vectors (gates start syscallIsr) =
      vectors exceptionGates ++ vectors (irqGates start) ++ [syscallIsr] := by
  simp [vectors, gates]

theorem vectors_fixed :
    (vectors exceptionGates ++ vectors (irqGates irqStart)).Nodup := by
  decide

theorem toNat_of_fixed : ∀ vector ∈
    vectors exceptionGates ++ vectors (irqGates irqStart),
    vector.toNat ≤ 31 ∨ 100 ≤ vector.toNat ∧ vector.toNat < 116 := by
  have hexceptions : ∀ vector ∈ vectors exceptionGates,
      vector.toNat ≤ 31 := by
    simp [vectors, exceptionGates]
  have hlines : ∀ line : Fin 16,
      100 ≤ (irqStart + UInt8.ofNat line.val).toNat ∧
        (irqStart + UInt8.ofNat line.val).toNat < 116 := by
    decide
  intro vector hmem
  rcases List.mem_append.mp hmem with hexception | hirq
  · exact .inl (hexceptions vector hexception)
  · obtain ⟨line, rfl⟩ := mem_vectors_irqGates.mp hirq
    exact .inr (hlines line)

theorem nodup_vectors (hfree : Free syscallIsr) :
    (vectors (gates irqStart syscallIsr)).Nodup := by
  rw [vectors_gates]
  refine List.Nodup.append vectors_fixed (List.nodup_singleton _) ?_
  intro vector hfixed hsys
  rw [List.mem_singleton] at hsys
  have hrange := toNat_of_fixed vector hfixed
  rw [hsys] at hrange
  have hlow := hfree.1
  have hhigh := hfree.2
  omega

theorem or_and_self_right (value bits : UInt8) :
    (value ||| bits) &&& bits = bits := by
  apply UInt8.toBitVec_inj.mp
  apply BitVec.eq_of_getLsbD_eq
  intro index _
  simp only [UInt8.toBitVec_and, UInt8.toBitVec_or, BitVec.getLsbD_and,
    BitVec.getLsbD_or]
  cases value.toBitVec.getLsbD index with
  | false => rw [Bool.false_or, Bool.and_self]
  | true => rw [Bool.true_or, Bool.true_and]

/-- `interrupt_init` returns if and only if the vector of the system calls is
none of the first 32 and none of the sixteen from 100 on, and then every handler
has the vector meant for it and all others are left alone. -/
theorem interruptInit_gates_iff
    (hlow : ∀ handler, (image.address handler).toNat < 2 ^ 48) :
    Returns (interruptInit image syscallIsr hasApic system) (fun after =>
      (∀ gate ∈ gates irqStart syscallIsr,
        (after.table gate.vector).LeadsTo (image.address gate.handler)
          gate.attributes) ∧
      (∀ vector, vector ∉ vectors (gates irqStart syscallIsr) →
        after.table vector = system.table vector) ∧
      (∀ vector : UInt8, 16 * vector.toNat + 15 ≤ after.idtrLimit.toNat) ∧
      after.isEnabled = false ∧ after.devices.cmosReg &&& 0x80 = 0x80) ↔
      Free syscallIsr := by
  by_cases hfree : Free syscallIsr
  · rw [interruptInit_of_free hfree, returns_ok]
    refine iff_of_true ⟨?_, ?_, ?_, rfl, ?_⟩ hfree
    · intro gate hgate
      have hentry := @idtMap_of_mem image.address irqStart syscallIsr
        system.table (nodup_vectors hfree) gate hgate
      change (idtMap image.address irqStart syscallIsr system.table
        gate.vector).LeadsTo _ _
      rw [hentry]
      exact leadsTo_ofAddress (hlow _) (attributes_gates hgate)
    · intro vector hnew
      exact idtMap_of_notMem hnew
    · intro vector
      have hlt := vector.toNat_lt
      change 16 * vector.toNat + 15 ≤ 0x1000
      omega
    · change (serialInit (icConfigure hasApic
        (nmiDisable system.devices))).cmosReg &&& 0x80 = 0x80
      rw [serialInit_eq, icConfigure, picConfigure_eq]
      exact or_and_self_right system.devices.cmosReg 0x80
  · rw [interruptInit_of_not_free hfree]
    exact iff_of_false (fun h => h) hfree

end

/-! A kernel whose handlers lie sixteen bytes apart from the first megabyte on. -/

def Handler.all : List Handler :=
  exceptionGates.map Gate.handler ++ (List.finRange 16).map Handler.irq ++
    [.syscallFn]

theorem mem_all (handler : Handler) : handler ∈ Handler.all := by
  cases handler <;> decide

def kernelImage : Image where
  address handler := BitVec.ofNat 64 (0x100000 + 16 * Handler.all.idxOf handler)
  idt := 0x110000

theorem kernelImage_toNat (handler : Handler) :
    (kernelImage.address handler).toNat =
      0x100000 + 16 * Handler.all.idxOf handler := by
  have hidx : Handler.all.idxOf handler < 38 :=
    List.idxOf_lt_length_of_mem (mem_all handler)
  rw [kernelImage, BitVec.toNat_ofNat, Nat.mod_eq_of_lt (by omega)]

theorem kernelImage_low (handler : Handler) :
    (kernelImage.address handler).toNat < 2 ^ 48 := by
  have hidx : Handler.all.idxOf handler < 38 :=
    List.idxOf_lt_length_of_mem (mem_all handler)
  rw [kernelImage_toNat]
  omega

theorem kernelImage_injective : Function.Injective kernelImage.address := by
  intro handler other heq
  have hnat := congrArg BitVec.toNat heq
  rw [kernelImage_toNat, kernelImage_toNat] at hnat
  exact (List.idxOf_inj (mem_all handler)).mp (by omega)

def resetController : Controller := ⟨.icw3, true, false, 0, 0, 0, 0xB8⟩

def resetSystem : InterruptSystem where
  table _ := ⟨0, 0, 0, 0, 0, 0, 0⟩
  devices :=
    { master := resetController
      slave := resetController
      uart := ⟨[], 0, 0, 0, 0, 0, 0⟩
      cmosReg := 0
      apicBase := 0xFEE00900 }
  idtrLimit := 0
  idtrOffset := 0
  isEnabled := true

theorem resetSystem_empty (vector : UInt8) :
    (resetSystem.table vector).isPresent = false := by
  have hzero : (0 : BitVec 8).getLsbD 7 = false := by decide
  exact hzero

theorem interruptInit_gates_default :
    Returns (interruptInit kernelImage 0x80 true resetSystem) (fun after =>
      (∀ gate ∈ gates irqStart 0x80,
        (after.table gate.vector).LeadsTo (kernelImage.address gate.handler)
          gate.attributes) ∧
      (∀ vector, vector ∉ vectors (gates irqStart 0x80) →
        after.table vector = resetSystem.table vector) ∧
      (∀ vector : UInt8, 16 * vector.toNat + 15 ≤ after.idtrLimit.toNat) ∧
      after.isEnabled = false ∧ after.devices.cmosReg &&& 0x80 = 0x80) :=
  (interruptInit_gates_iff kernelImage_low).mpr (by decide)

end Synos.Interrupts

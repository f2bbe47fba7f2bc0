import Synos.Data.Assoc
import Synos.Interrupts.Isr

namespace Synos.Interrupts

open Synos.Data

/-! The interrupt descriptor table: its entries, and what `idt_map` makes of
it. -/

structure IdtEntry where
  offset1 : BitVec 16
  selector : BitVec 16
  zero0 : BitVec 8
  typeAttr : BitVec 8
  offset2 : BitVec 16
  offset3 : BitVec 32
  zero1 : BitVec 32
  deriving DecidableEq, Repr

abbrev Idt := UInt8 → IdtEntry

def gdtKernCodeSelector : BitVec 16 := 0x0008

def intGateFault : BitVec 8 := 0b10001110

def intGateInterrupt : BitVec 8 := intGateFault

def intGateAbort : BitVec 8 := intGateFault

def intGateTrap : BitVec 8 := 0b10001111

namespace IdtEntry

/-- What `idt_set` puts into the entry. -/
def ofAddress (address : BitVec 64) (attributes : BitVec 8) : IdtEntry where
  offset1 := (address &&& 0xFFFF).setWidth 16
  offset2 := ((address &&& 0xFFFF0000) >>> 16).setWidth 16
  offset3 := ((address &&& 0xFFFF00000000) >>> 32).setWidth 32
  selector := gdtKernCodeSelector
  typeAttr := attributes
  zero0 := 0
  zero1 := 0

def offset (entry : IdtEntry) : BitVec 64 :=
  entry.offset3 ++ (entry.offset2 ++ entry.offset1)

def isPresent (entry : IdtEntry) : Bool := entry.typeAttr.getLsbD 7

/-- A trap gate leaves the interrupts on. -/
def masksInterrupts (entry : IdtEntry) : Bool := !entry.typeAttr.getLsbD 0

/-- The gate leads to the handler in the kernel's code segment. -/
structure LeadsTo (entry : IdtEntry) (address : BitVec 64)
    (attributes : BitVec 8) : Prop where
  isPresent_eq : entry.isPresent = true
  selector_eq : entry.selector = gdtKernCodeSelector
  offset_eq : entry.offset = address
  masksInterrupts_eq :
    entry.masksInterrupts = decide (attributes = intGateInterrupt)

end IdtEntry

def idtSet (index : UInt8) (address : BitVec 64) (attributes : BitVec 8)
    (table : Idt) : Idt :=
  Function.update table index (.ofAddress address attributes)

structure Gate where
  vector : UInt8
  handler : Handler
  attributes : BitVec 8

def exceptionGates : List Gate :=
  [⟨0, .exc0, intGateFault⟩, ⟨1, .exc1, intGateTrap⟩,
    ⟨2, .exc2, intGateInterrupt⟩, ⟨3, .exc3, intGateTrap⟩,
    ⟨4, .exc4, intGateFault⟩, ⟨5, .exc5, intGateFault⟩,
    ⟨6, .exc6, intGateFault⟩, ⟨7, .exc7, intGateFault⟩,
    ⟨8, .exc8, intGateAbort⟩, ⟨9, .exc9, intGateFault⟩,
    ⟨10, .exc10, intGateFault⟩, ⟨11, .exc11, intGateFault⟩,
    ⟨12, .exc12, intGateFault⟩, ⟨13, .exc13, intGateFault⟩,
    ⟨14, .exc14, intGateFault⟩, ⟨16, .exc16, intGateFault⟩,
    ⟨17, .exc17, intGateFault⟩, ⟨18, .exc18, intGateAbort⟩,
    ⟨19, .exc19, intGateFault⟩, ⟨20, .exc20, intGateFault⟩,
    ⟨30, .exc30, intGateFault⟩]

def irqGates (irqStart : UInt8) : List Gate :=
  (List.finRange 16).map fun line =>
    ⟨irqStart + UInt8.ofNat line.val, .irq line, intGateInterrupt⟩

def gates (irqStart syscallIsr : UInt8) : List Gate :=
  exceptionGates ++ irqGates irqStart ++
    [⟨syscallIsr, .syscallFn, intGateInterrupt⟩]

/-- `address` is where the linker put the handlers. -/
def idtMap (address : Handler → BitVec 64) (irqStart syscallIsr : UInt8)
    (table : Idt) : Idt :=
  (gates irqStart syscallIsr).foldl
    (fun table gate =>
      idtSet gate.vector (address gate.handler) gate.attributes table)
    table

/-! An address survives the split if and only if it fits 48 bits. -/

section

variable {address : BitVec 64} {attributes : BitVec 8}

theorem getLsbD_field (start : Nat) {index : Nat} (hstart : start + 16 ≤ 64) :
    ((address &&& (BitVec.allOnes 16).setWidth 64 <<< start) >>> start).getLsbD
      index = (decide (index < 16) && address.getLsbD (start + index)) := by
  simp only [BitVec.getLsbD_ushiftRight, BitVec.getLsbD_and,
    BitVec.getLsbD_shiftLeft, BitVec.getLsbD_setWidth, BitVec.getLsbD_allOnes]
  by_cases hindex : index < 16
  · have hbit : start + index < 64 := by omega
    have hless : index < 64 := by omega
    simp [hbit, hless, hindex]
  · simp [hindex]

theorem getLsbD_offset (index : Nat) :
    (IdtEntry.ofAddress address attributes).offset.getLsbD index =
      (decide (index < 48) && address.getLsbD index) := by
  have hlow := @getLsbD_field address 0 index (by decide)
  have hmiddle := @getLsbD_field address 16 (index - 16) (by decide)
  have hhigh := @getLsbD_field address 32 (index - 32) (by decide)
  change ((address &&& 0xFFFF) >>> 0).getLsbD index = _ at hlow
  change ((address &&& 0xFFFF0000) >>> 16).getLsbD _ = _ at hmiddle
  change ((address &&& 0xFFFF00000000) >>> 32).getLsbD _ = _ at hhigh
  rw [BitVec.ushiftRight_zero, Nat.zero_add] at hlow
  simp only [IdtEntry.offset, IdtEntry.ofAddress, BitVec.getLsbD_append,
    BitVec.getLsbD_setWidth]
  by_cases h16 : index < 16
  · have h32 : index < 32 := by omega
    have h48 : index < 48 := by omega
    simp only [h16, h32, h48, hlow, decide_true, Bool.true_and, if_true]
  · by_cases h32 : index < 32
    · have hrest : index - 16 < 16 := by omega
      have h48 : index < 48 := by omega
      have hindex : 16 + (index - 16) = index := by omega
      simp only [h16, h32, h48, hmiddle, hrest, hindex, decide_true,
        Bool.true_and, if_true, if_false]
    · have hrest : index - 32 < 16 ↔ index < 48 := by omega
      have hindex : 32 + (index - 32) = index := by omega
      by_cases h48 : index < 48
      · have hfield : index - 32 < 32 := by omega
        simp only [h32, h48, hhigh, hrest, hindex, hfield, decide_true,
          Bool.true_and, if_false]
      · simp only [h32, h48, hhigh, hrest, decide_false, Bool.false_and,
          Bool.and_false, if_false]

theorem offset_ofAddress :
    (IdtEntry.ofAddress address attributes).offset =
      (address.setWidth 48).setWidth 64 := by
  apply BitVec.eq_of_getLsbD_eq
  intro index hindex
  rw [getLsbD_offset, BitVec.getLsbD_setWidth, BitVec.getLsbD_setWidth,
    decide_eq_true hindex, Bool.true_and]

theorem offset_ofAddress_iff :
    (IdtEntry.ofAddress address attributes).offset = address ↔
      address.toNat < 2 ^ 48 := by
  have hlt : address.toNat % 2 ^ 48 < 2 ^ 64 :=
    Nat.lt_trans (Nat.mod_lt _ (by decide)) (by decide)
  rw [offset_ofAddress, ← BitVec.toNat_inj, BitVec.toNat_setWidth,
    BitVec.toNat_setWidth, Nat.mod_eq_of_lt hlt]
  constructor
  · intro heq
    rw [← heq]
    exact Nat.mod_lt _ (by decide)
  · exact Nat.mod_eq_of_lt

end

/-! What the processor finds at each vector. -/

def vectors (list : List Gate) : List UInt8 := list.map Gate.vector

section

variable {address : Handler → BitVec 64} {irqStart syscallIsr : UInt8}
  {table : Idt}

def Gate.write (address : Handler → BitVec 64) (gate : Gate) :
    UInt8 × IdtEntry :=
  (gate.vector, .ofAddress (address gate.handler) gate.attributes)

theorem idtMap_eq :
    idtMap address irqStart syscallIsr table =
      Assoc.updateAll table
        ((gates irqStart syscallIsr).map (Gate.write address)) := by
  rw [Assoc.updateAll, List.foldl_map]
  rfl

theorem keys_write (address : Handler → BitVec 64) (list : List Gate) :
    Assoc.keys (list.map (Gate.write address)) = vectors list :=
  List.map_map

theorem idtMap_of_notMem {vector : UInt8}
    (hnew : vector ∉ vectors (gates irqStart syscallIsr)) :
    idtMap address irqStart syscallIsr table vector = table vector := by
  rw [idtMap_eq]
  exact Assoc.updateAll_of_notMem (keys_write address _ ▸ hnew)

theorem idtMap_of_mem
    (hnodup : (vectors (gates irqStart syscallIsr)).Nodup) {gate : Gate}
    (hgate : gate ∈ gates irqStart syscallIsr) :
    idtMap address irqStart syscallIsr table gate.vector =
      .ofAddress (address gate.handler) gate.attributes := by
  rw [idtMap_eq]
  apply Assoc.updateAll_of_mem
  · rw [keys_write]
    exact hnodup
  · exact List.mem_map_of_mem hgate

theorem nodup_handlers :
    ((gates irqStart syscallIsr).map Gate.handler).Nodup := by
  have hlist : (gates irqStart syscallIsr).map Gate.handler =
      exceptionGates.map Gate.handler ++
        (List.finRange 16).map Handler.irq ++ [.syscallFn] := by
    simp [gates, irqGates, Function.comp_def]
  rw [hlist]
  decide

theorem attributes_gates {gate : Gate}
    (hgate : gate ∈ gates irqStart syscallIsr) :
    gate.attributes = intGateInterrupt ∨ gate.attributes = intGateTrap := by
  rw [gates, List.mem_append, List.mem_append] at hgate
  rcases hgate with (hexc | hirq) | hsys
  · revert gate
    decide
  · obtain ⟨line, -, rfl⟩ := List.mem_map.mp hirq
    exact .inl rfl
  · rw [List.mem_singleton.mp hsys]
    exact .inl rfl

theorem leadsTo_ofAddress {target : BitVec 64} {attributes : BitVec 8}
    (hlow : target.toNat < 2 ^ 48)
    (hattr : attributes = intGateInterrupt ∨ attributes = intGateTrap) :
    (IdtEntry.ofAddress target attributes).LeadsTo target attributes := by
  have hbits : attributes.getLsbD 7 = true ∧
      (!attributes.getLsbD 0) = decide (attributes = intGateInterrupt) := by
    rcases hattr with rfl | rfl
    · decide
    · decide
  exact ⟨hbits.1, rfl, offset_ofAddress_iff.mpr hlow, hbits.2⟩

/-- Every handler can be reached if and only if no two of them share a
vector. -/
theorem idtMap_leads_iff (hinj : Function.Injective address)
    (hlow : ∀ handler, (address handler).toNat < 2 ^ 48) :
    (∀ gate ∈ gates irqStart syscallIsr,
      (idtMap address irqStart syscallIsr table gate.vector).LeadsTo
        (address gate.handler) gate.attributes) ↔
      (vectors (gates irqStart syscallIsr)).Nodup := by
  constructor
  · intro hleads
    refine List.Nodup.map_on ?_ (List.Nodup.of_map _ nodup_handlers)
    intro gate hgate other hother hvector
    have hoffset := (hleads gate hgate).offset_eq
    rw [hvector, (hleads other hother).offset_eq] at hoffset
    exact List.inj_on_of_nodup_map nodup_handlers hgate hother
      (hinj hoffset).symm
  · intro hnodup gate hgate
    rw [idtMap_of_mem hnodup hgate]
    exact leadsTo_ofAddress (hlow _) (attributes_gates hgate)

end

end Synos.Interrupts

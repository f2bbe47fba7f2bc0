import Synos.Interrupts.Init

namespace Synos.Interrupts

open Synos.Data

/-! Which handler a line of the controllers reaches once they are set up. -/

namespace Controller

/-- The controller is part of a cascade and hands vectors to the processor. -/
def InService (controller : Controller) (cascade : UInt8) : Prop :=
  controller.stage = .ready ∧ controller.isSingle = false ∧
    controller.mode &&& 0x01 = 0x01 ∧ controller.cascade = cascade

instance (controller : Controller) (cascade : UInt8) :
    Decidable (controller.InService cascade) :=
  inferInstanceAs (Decidable (_ ∧ _))

end Controller

/-- The vector of a line: the slave is heard at line 2 of the master. -/
def lineVector? (devices : Devices) (line : Fin 16) : Option UInt8 :=
  if devices.master.InService 4 ∧ (line.val < 8 ∨ devices.slave.InService 2) then
    some
      (if line.val < 8 then devices.master.vector (UInt8.ofNat line.val)
      else devices.slave.vector (UInt8.ofNat (line.val - 8)))
  else none

/-- The line reaches the handler through an interrupt gate. -/
def InterruptSystem.Routes (system : InterruptSystem)
    (address : Handler → BitVec 64) (line : Fin 16) (handler : Handler) : Prop :=
  ∃ vector, lineVector? system.devices line = some vector ∧
    (system.table vector).LeadsTo (address handler) intGateInterrupt

section

variable {image : Image} {syscallIsr : UInt8} {hasApic : Bool}
  {system after : InterruptSystem}

/-- The low bits of 100 and 108 are lost. -/
theorem lineVector_configured (devices : Devices) (line : Fin 16) :
    lineVector? (serialInit (icConfigure hasApic devices)) line =
      some (96 + UInt8.ofNat line.val) := by
  have hmaster : (configured irqStart 4 devices.master.mask).InService 4 :=
    ⟨rfl, rfl, (by decide : icw48086 &&& 0x01 = 0x01), rfl⟩
  have hslave : (configured (irqStart + 8) 2 devices.slave.mask).InService 2 :=
    ⟨rfl, rfl, (by decide : icw48086 &&& 0x01 = 0x01), rfl⟩
  rw [serialInit_eq, icConfigure, picConfigure_eq, lineVector?,
    if_pos ⟨hmaster, .inr hslave⟩]
  have hbases : ∀ line : Fin 16,
      (if line.val < 8 then (irqStart &&& 0xF8) + UInt8.ofNat line.val
      else (irqStart + 8 &&& 0xF8) + UInt8.ofNat (line.val - 8)) =
        96 + UInt8.ofNat line.val := by
    decide
  exact congrArg some (hbases line)

theorem vector_shifted : ∀ line target : Fin 16, line.val = target.val + 4 →
    96 + UInt8.ofNat line.val = irqStart + UInt8.ofNat target.val := by
  decide

/-- What the gate at the vector of a line is. -/
inductive LineGate (image : Image) (syscallIsr : UInt8) (table : Idt)
    (line : Fin 16) (entry : IdtEntry) : Prop
  | irq (target : Fin 16) (hline : line.val = target.val + 4)
      (hentry : entry =
        .ofAddress (image.address (.irq target)) intGateInterrupt)
  | syscall (hline : line.val < 4) (hsys : syscallIsr.toNat = 96 + line.val)
      (hentry : entry =
        .ofAddress (image.address .syscallFn) intGateInterrupt)
  | old (hline : line.val < 4) (hsys : syscallIsr.toNat ≠ 96 + line.val)
      (hentry : entry = table (96 + UInt8.ofNat line.val))

theorem lineGate (hfree : Free syscallIsr) (table : Idt) (line : Fin 16) :
    LineGate image syscallIsr table line
      (idtMap image.address irqStart syscallIsr table
        (96 + UInt8.ofNat line.val)) := by
  have hnodup := nodup_vectors hfree
  by_cases hline : line.val < 4
  · have hvector : (96 + UInt8.ofNat line.val).toNat = 96 + line.val := by
      revert line
      decide
    by_cases hsys : syscallIsr.toNat = 96 + line.val
    · apply LineGate.syscall hline hsys
      have hgate : (⟨syscallIsr, .syscallFn, intGateInterrupt⟩ : Gate) ∈
          gates irqStart syscallIsr :=
        List.mem_append_right _ (List.mem_singleton.mpr rfl)
      rw [UInt8.toNat_inj.mp (hvector.trans hsys.symm)]
      exact idtMap_of_mem hnodup hgate
    · apply LineGate.old hline hsys
      apply idtMap_of_notMem
      rw [vectors_gates, List.mem_append, List.mem_singleton, not_or]
      constructor
      · intro hfixed
        have hrange := toNat_of_fixed _ hfixed
        omega
      · intro heq
        rw [heq] at hvector
        exact hsys hvector
  · have hlt := line.isLt
    obtain ⟨target, htarget⟩ : ∃ target : Fin 16, line.val = target.val + 4 :=
      ⟨⟨line.val - 4, by omega⟩, (Nat.sub_add_cancel (by omega)).symm⟩
    apply LineGate.irq target htarget
    have hgate : (⟨irqStart + UInt8.ofNat target.val, .irq target,
        intGateInterrupt⟩ : Gate) ∈ gates irqStart syscallIsr :=
      List.mem_append_left _ (List.mem_append_right _
        (List.mem_map_of_mem (List.mem_finRange target)))
    rw [vector_shifted line target htarget]
    exact idtMap_of_mem hnodup hgate

theorem irq_injective : ∀ line other : Fin 16,
    Handler.irq line = Handler.irq other → line = other := by
  decide

theorem syscallFn_ne_irq : ∀ line : Fin 16,
    Handler.syscallFn ≠ Handler.irq line := by
  decide

theorem handler_of_leadsTo {handler other : Handler}
    (hinj : Function.Injective image.address)
    (hlow : ∀ handler, (image.address handler).toNat < 2 ^ 48)
    (hleads : (IdtEntry.ofAddress (image.address handler)
      intGateInterrupt).LeadsTo (image.address other) intGateInterrupt) :
    handler = other := by
  have hoffset := hleads.offset_eq
  rw [offset_ofAddress_iff.mpr (hlow handler)] at hoffset
  exact hinj hoffset

/-- No line reaches the handler of its own number: those from the fifth on reach
the handler of the fourth line before them, and the first four none at all. -/
theorem interruptInit_routes_iff (hinj : Function.Injective image.address)
    (hlow : ∀ handler, (image.address handler).toNat < 2 ^ 48)
    (hempty : ∀ vector, (system.table vector).isPresent = false)
    (hinit : interruptInit image syscallIsr hasApic system = .ok after)
    (line target : Fin 16) :
    after.Routes image.address line (.irq target) ↔
      line.val = target.val + 4 := by
  by_cases hfree : Free syscallIsr
  · rw [interruptInit_of_free hfree] at hinit
    cases hinit
    have hroutes : InterruptSystem.Routes
        { table := idtMap image.address irqStart syscallIsr system.table
          devices := serialInit (icConfigure hasApic (nmiDisable system.devices))
          idtrLimit := 0x1000
          idtrOffset := image.idt
          isEnabled := false } image.address line (.irq target) ↔
        (idtMap image.address irqStart syscallIsr system.table
          (96 + UInt8.ofNat line.val)).LeadsTo
            (image.address (.irq target)) intGateInterrupt := by
      simp only [InterruptSystem.Routes, lineVector_configured]
      simp
    rw [hroutes]
    cases @lineGate image syscallIsr hfree system.table line with
    | irq other hline hentry =>
        rw [hentry]
        constructor
        · intro hleads
          have hsame := irq_injective _ _ (handler_of_leadsTo hinj hlow hleads)
          rw [hline, hsame]
        · intro heq
          have hsame : other = target := by
            apply Fin.ext
            omega
          rw [hsame]
          exact leadsTo_ofAddress (hlow _) (.inl rfl)
    | syscall hline hsys hentry =>
        rw [hentry]
        refine iff_of_false (fun hleads => ?_) (by omega)
        exact syscallFn_ne_irq target (handler_of_leadsTo hinj hlow hleads)
    | old hline hsys hentry =>
        rw [hentry]
        refine iff_of_false (fun hleads => ?_) (by omega)
        exact absurd hleads.isPresent_eq (by rw [hempty]; decide)
  · rw [interruptInit_of_not_free hfree] at hinit
    cases hinit

end

theorem interruptInit_routes_mouse : ∃ after,
    interruptInit kernelImage 0x80 false resetSystem = .ok after ∧
      after.Routes kernelImage.address 12 (.irq 8) ∧
        ¬after.Routes kernelImage.address 8 (.irq 8) := by
  have hinit := @interruptInit_of_free kernelImage 0x80 false resetSystem
    (by decide)
  have hroutes := interruptInit_routes_iff kernelImage_injective
    kernelImage_low resetSystem_empty hinit
  exact ⟨_, hinit, (hroutes 12 8).mpr rfl,
    fun hown => absurd ((hroutes 8 8).mp hown) (by decide)⟩

end Synos.Interrupts

import Synos.Data.Bytes
import Synos.Paging.Address
import Synos.Paging.Boot

namespace Synos.Boot

open Synos.Data (Fault loadBytes storeBytes load64 wordSize)

/-! The boot code that runs before there are page tables: it stores the tables
double word by double word and turns paging on. -/

structure BootCpu where
  eax : BitVec 32
  ecx : BitVec 32
  edx : BitVec 32
  cr0 : BitVec 32
  cr3 : BitVec 32
  cr4 : BitVec 32
  efer : BitVec 64
  memory : Data.Memory

/-- `mov [address], eax` -/
def BootCpu.movStore (cpu : BootCpu) (address : BitVec 32) : BootCpu :=
  { cpu with
    memory := storeBytes cpu.memory 4 address.toNat cpu.eax.toNat }

/-! The four tables lie one behind the other. -/

def pdpT (pml4T : BitVec 32) : BitVec 32 := pml4T + 4096

def pdT (pml4T : BitVec 32) : BitVec 32 := pdpT pml4T + 4096

def ptT (pml4T : BitVec 32) : BitVec 32 := pdT pml4T + 4096

section

variable (pml4T : BitVec 32)

/-- One round of the loop: the entry of page `ecx`. -/
def tableRound (cpu : BootCpu) : BootCpu :=
  -- `mul ecx` leaves the product in `edx:eax`
  let product := 0x1000#64 * cpu.ecx.setWidth 64
  let cpu := { cpu with
    eax := product.setWidth 32 ||| 0b11
    edx := product.extractLsb' 32 32 }
  let cpu := cpu.movStore (ptT pml4T + cpu.ecx * 8)
  { cpu with ecx := cpu.ecx + 1 }

def tableLoop : (fuel : Nat) → BootCpu → Except Fault BootCpu
  | 0, _ => .error .endlessLoop
  | fuel + 1, cpu =>
      let cpu := tableRound pml4T cpu
      if cpu.ecx = 512 then .ok cpu else tableLoop fuel cpu

def upperTables (cpu : BootCpu) : BootCpu :=
  let cpu := { cpu with eax := pdpT pml4T ||| 0b11 }.movStore pml4T
  let cpu := { cpu with eax := pdT pml4T ||| 0b11 }.movStore (pdpT pml4T)
  let cpu := { cpu with eax := ptT pml4T ||| 0b11 }.movStore (pdT pml4T)
  { cpu with ecx := 0 }

/-- `_64INIT`, the first half: the tables. -/
def initTables (cpu : BootCpu) : Except Fault BootCpu :=
  tableLoop pml4T (2 ^ 32) (upperTables pml4T cpu)

/-- `_64INIT`, the second half: paging is turned on. -/
def enablePaging (cpu : BootCpu) : BootCpu :=
  let cpu := { cpu with eax := pml4T, cr3 := pml4T }
  let eax := cpu.cr4 ||| 1#32 <<< 5
  let cpu := { cpu with eax := eax, cr4 := eax }
  -- `rdmsr` and `wrmsr` of the register named by `ecx`
  let eax := cpu.efer.setWidth 32 ||| (1#32 <<< 8 ||| 1#32 <<< 11)
  let edx := cpu.efer.extractLsb' 32 32
  let cpu := { cpu with
    eax := eax
    ecx := 0xC0000080
    edx := edx
    efer := edx ++ eax }
  let eax := cpu.cr0 ||| 1#32 <<< 31
  { cpu with eax := eax, cr0 := eax }

/-- `_64INIT` -/
def init64 (cpu : BootCpu) : Except Fault BootCpu :=
  (initTables pml4T cpu).map (enablePaging pml4T)

end

/-! Stored double words as entries of tables. -/

/-- Memory as the page walk of the processor reads it. -/
def entries (memory : Data.Memory) : Paging.Memory :=
  fun frame index =>
    BitVec.ofNat 64 (load64 memory (frame.toNat * 4096 + index.toNat * 8))

theorem loadBytes_add (memory : Data.Memory) (first second address : Nat) :
    loadBytes memory (first + second) address =
      loadBytes memory first address +
        256 ^ first * loadBytes memory second (address + first) := by
  induction first generalizing address with
  | zero => simp [loadBytes]
  | succ first ih =>
      rw [Nat.succ_add, loadBytes, loadBytes, ih, pow_succ,
        show address + 1 + first = address + (first + 1) by omega]
      ring

theorem load64_storeBytes {memory : Data.Memory} {address value : Nat}
    (hspace : address + 8 ≤ wordSize) (hvalue : value < 2 ^ 32)
    (hzero : load64 memory address = 0) :
    load64 (storeBytes memory 4 address value) address = value := by
  have hold := loadBytes_add memory 4 4 address
  have hnew := loadBytes_add (storeBytes memory 4 address value) 4 4 address
  have hlow := @Data.loadBytes_storeBytes memory 4 address value (by omega)
    (by omega)
  have hhigh := @Data.loadBytes_congr memory
    (storeBytes memory 4 address value) 4 (address + 4) (by omega)
    (fun place hge hlt =>
      Data.storeBytes_outside value (by omega) (.inr (by omega)))
  change load64 memory address = _ at hold
  change load64 (storeBytes memory 4 address value) address = _ at hnew
  rw [hzero] at hold
  rw [hnew, hlow, hhigh]
  have hrest : loadBytes memory 4 (address + 4) = 0 := by omega
  rw [hrest, Nat.mul_zero, Nat.add_zero]

theorem apart_of_ne {here there place : Nat} (hhere : 8 ∣ here)
    (hthere : 8 ∣ there) (hne : there ≠ here) (hge : there ≤ place)
    (hlt : place < there + 8) : place < here ∨ here + 4 ≤ place := by
  omega

theorem slot_dvd (frame : Paging.Frame) (index : BitVec 9) :
    8 ∣ frame.toNat * 4096 + index.toNat * 8 := by
  omega

theorem slot_lt (frame : Paging.Frame) (index : BitVec 9) :
    frame.toNat * 4096 + index.toNat * 8 + 8 ≤ 2 ^ 52 := by
  have hframe := frame.isLt
  have hindex := index.isLt
  omega

theorem entries_store {memory : Data.Memory} {frame : Paging.Frame}
    {index : BitVec 9} {address value : Nat}
    (haddress : address = frame.toNat * 4096 + index.toNat * 8)
    (hvalue : value < 2 ^ 32) (hzero : entries memory frame index = 0) :
    entries (storeBytes memory 4 address value) =
      Paging.writeEntry (entries memory) frame index
        (BitVec.ofNat 64 value) := by
  subst haddress
  have hhere := slot_lt frame index
  funext other slot
  by_cases hsame : other = frame ∧ slot = index
  · obtain ⟨rfl, rfl⟩ := hsame
    have hblank : load64 memory (other.toNat * 4096 + slot.toNat * 8) = 0 := by
      have hbits := congrArg BitVec.toNat hzero
      rw [entries, BitVec.toNat_ofNat] at hbits
      exact (Nat.mod_eq_of_lt (Data.load64_lt _ _)).symm.trans hbits
    rw [Paging.writeEntry_self, entries,
      load64_storeBytes (by simp only [wordSize]; omega) hvalue hblank]
  · have hthere := slot_lt other slot
    have hindex := index.isLt
    have hslot := slot.isLt
    have hne : other.toNat * 4096 + slot.toNat * 8 ≠
        frame.toNat * 4096 + index.toNat * 8 := by
      intro heq
      apply hsame
      constructor <;> apply BitVec.eq_of_toNat_eq <;> omega
    have hapart : other ≠ frame ∨ slot ≠ index := by
      rw [← not_and_or]
      exact hsame
    have hspace : ∀ stop, stop ≤ 2 ^ 52 → stop ≤ wordSize :=
      fun stop hstop => hstop.trans (by decide)
    have hroom : frame.toNat * 4096 + index.toNat * 8 + 4 ≤ wordSize :=
      hspace _ ((Nat.add_le_add_left (by decide : 4 ≤ 8) _).trans hhere)
    have hkept := @Data.load64_congr memory
      (storeBytes memory 4 (frame.toNat * 4096 + index.toNat * 8) value)
      (other.toNat * 4096 + slot.toNat * 8) (hspace _ hthere)
      (fun place hge hlt =>
        Data.storeBytes_outside value hroom
          (apart_of_ne (slot_dvd _ _) (slot_dvd _ _) hne hge hlt))
    rw [Paging.writeEntry_of_ne _ _ hapart, entries, entries, hkept]

/-! Where the tables are, and what their entries say. -/

/-- The linker puts the tables on page boundaries. -/
structure TableSpace (pml4T : BitVec 32) : Prop where
  aligned : 4096 ∣ pml4T.toNat
  fits : pml4T.toNat + 0x4000 ≤ 2 ^ 32

/-- The frame of the first table. -/
def bootFrame (pml4T : BitVec 32) : Paging.Frame :=
  BitVec.ofNat 40 (pml4T.toNat / 4096)

/-- Nothing but the four tables differs. -/
def KeepsRest (pml4T : BitVec 32) (memory after : Data.Memory) : Prop :=
  ∀ place, place < pml4T.toNat ∨ pml4T.toNat + 0x4000 ≤ place →
    after place = memory place

section

variable {pml4T : BitVec 32}

theorem TableSpace.toNat_frame (hspace : TableSpace pml4T) {depth : Nat}
    (hdepth : depth < 4) :
    (bootFrame pml4T + BitVec.ofNat 40 depth).toNat =
      pml4T.toNat / 4096 + depth := by
  have hfits := hspace.fits
  rw [bootFrame, BitVec.toNat_add, BitVec.toNat_ofNat, BitVec.toNat_ofNat]
  omega

theorem TableSpace.toNat_tables (hspace : TableSpace pml4T) :
    (pdpT pml4T).toNat = pml4T.toNat + 0x1000 ∧
      (pdT pml4T).toNat = pml4T.toNat + 0x2000 ∧
      (ptT pml4T).toNat = pml4T.toNat + 0x3000 := by
  have hfits := hspace.fits
  have hpage : (4096 : BitVec 32).toNat = 4096 := rfl
  have hpdp : (pdpT pml4T).toNat = pml4T.toNat + 0x1000 := by
    rw [pdpT, BitVec.toNat_add, hpage]
    omega
  have hpd : (pdT pml4T).toNat = pml4T.toNat + 0x2000 := by
    rw [pdT, BitVec.toNat_add, hpage, hpdp]
    omega
  have hpt : (ptT pml4T).toNat = pml4T.toNat + 0x3000 := by
    rw [ptT, BitVec.toNat_add, hpage, hpd]
    omega
  exact ⟨hpdp, hpd, hpt⟩

theorem or_flags {value : Nat} (haligned : 4096 ∣ value) :
    value ||| 3 = value + 3 := by
  obtain ⟨page, rfl⟩ := haligned
  exact (Nat.two_pow_add_eq_or_of_lt (show 3 < 2 ^ 12 by decide) page).symm

theorem toNat_or_flags {value : BitVec 32} (haligned : 4096 ∣ value.toNat) :
    (value ||| 0b11).toNat = value.toNat + 3 := by
  rw [BitVec.toNat_or]
  exact or_flags haligned

theorem ofNat_entry {frame : Paging.Frame} {value : Nat}
    (hvalue : value = frame.toNat * 4096 + 3) :
    BitVec.ofNat 64 value = Paging.pageAddress frame ||| 0b11#64 := by
  have hframe := frame.isLt
  have hflags : (0b11#64).toNat = 3 := rfl
  have hshift : (Paging.pageAddress frame).toNat = frame.toNat * 4096 := by
    rw [Paging.pageAddress, BitVec.toNat_shiftLeft, BitVec.toNat_setWidth,
      Nat.shiftLeft_eq]
    omega
  apply BitVec.eq_of_toNat_eq
  rw [BitVec.toNat_or, hshift, hflags, or_flags (Nat.dvd_mul_left _ _),
    BitVec.toNat_ofNat, hvalue]
  omega

/-! The loop. -/

theorem toNat_tableRound {cpu : BootCpu} (hecx : cpu.ecx.toNat < 512) :
    (tableRound pml4T cpu).eax.toNat = cpu.ecx.toNat * 4096 + 3 ∧
      (tableRound pml4T cpu).ecx.toNat = cpu.ecx.toNat + 1 := by
  have hone : (1 : BitVec 32).toNat = 1 := rfl
  have hproduct : ((0x1000#64 * cpu.ecx.setWidth 64).setWidth 32).toNat =
      cpu.ecx.toNat * 4096 := by
    rw [BitVec.toNat_setWidth, BitVec.toNat_mul, BitVec.toNat_setWidth,
      BitVec.toNat_ofNat]
    omega
  refine ⟨?_, ?_⟩
  · change ((0x1000#64 * cpu.ecx.setWidth 64).setWidth 32 ||| 0b11).toNat = _
    rw [toNat_or_flags (by rw [hproduct]; exact Nat.dvd_mul_left _ _), hproduct]
  · change (cpu.ecx + 1).toNat = _
    rw [BitVec.toNat_add, hone]
    omega

theorem TableSpace.toNat_slot (hspace : TableSpace pml4T) {cpu : BootCpu}
    (hecx : cpu.ecx.toNat < 512) :
    (ptT pml4T + cpu.ecx * 8).toNat =
      pml4T.toNat + 0x3000 + cpu.ecx.toNat * 8 := by
  have hfits := hspace.fits
  have height : (8 : BitVec 32).toNat = 8 := rfl
  rw [BitVec.toNat_add, hspace.toNat_tables.2.2, BitVec.toNat_mul, height]
  omega

theorem TableSpace.store (hspace : TableSpace pml4T) {memory : Data.Memory}
    {depth : Nat} (hdepth : depth < 4) {index : BitVec 9}
    {address value : BitVec 32} {frame : Paging.Frame}
    (haddress : address.toNat =
      pml4T.toNat + depth * 4096 + index.toNat * 8)
    (hvalue : value.toNat = frame.toNat * 4096 + 3)
    (hzero : entries memory (bootFrame pml4T + BitVec.ofNat 40 depth) index =
      0) :
    entries (storeBytes memory 4 address.toNat value.toNat) =
        Paging.writeEntry (entries memory)
          (bootFrame pml4T + BitVec.ofNat 40 depth) index
          (Paging.pageAddress frame ||| 0b11#64) ∧
      KeepsRest pml4T memory (storeBytes memory 4 address.toNat
        value.toNat) := by
  have haligned := hspace.aligned
  have hfits := hspace.fits
  have hindex := index.isLt
  have hplace := hspace.toNat_frame hdepth
  constructor
  · rw [← ofNat_entry hvalue]
    apply entries_store _ value.isLt hzero
    omega
  · intro place houtside
    have hend : address.toNat + 4 ≤ 2 ^ 32 := by omega
    apply Data.storeBytes_outside value.toNat (hend.trans (by decide))
    omega

theorem tableRound_entries (hspace : TableSpace pml4T) {cpu : BootCpu}
    (hecx : cpu.ecx.toNat < 512)
    (hzero : entries cpu.memory (bootFrame pml4T + 3#40)
      (BitVec.ofNat 9 cpu.ecx.toNat) = 0) :
    entries (tableRound pml4T cpu).memory =
        Paging.writeEntry (entries cpu.memory) (bootFrame pml4T + 3#40)
          (BitVec.ofNat 9 cpu.ecx.toNat)
          (Paging.pageAddress (BitVec.ofNat 40 cpu.ecx.toNat) ||| 0b11#64) ∧
      KeepsRest pml4T cpu.memory (tableRound pml4T cpu).memory := by
  have hindex : (BitVec.ofNat 9 cpu.ecx.toNat).toNat = cpu.ecx.toNat := by
    rw [BitVec.toNat_ofNat]
    omega
  have hframe : (BitVec.ofNat 40 cpu.ecx.toNat).toNat = cpu.ecx.toNat := by
    rw [BitVec.toNat_ofNat]
    omega
  refine @TableSpace.store pml4T hspace cpu.memory 3 (by decide) _ _
    (tableRound pml4T cpu).eax _ ?_ ?_ hzero
  · rw [hspace.toNat_slot hecx, hindex]
  · rw [(toNat_tableRound hecx).1, hframe]

/-- What the rounds from page `first` on leave behind. -/
structure Mapped (pml4T : BitVec 32) (first : Nat) (cpu after : BootCpu) :
    Prop where
  cr0 : after.cr0 = cpu.cr0
  cr4 : after.cr4 = cpu.cr4
  efer : after.efer = cpu.efer
  rest : KeepsRest pml4T cpu.memory after.memory
  entry : ∀ frame index, entries after.memory frame index =
    if frame = bootFrame pml4T + 3#40 ∧ first ≤ index.toNat then
      Paging.pageAddress (index.setWidth 40) ||| 0b11#64
    else entries cpu.memory frame index

theorem tableRound_entry (hspace : TableSpace pml4T) {cpu : BootCpu}
    (hecx : cpu.ecx.toNat < 512)
    (hzero : ∀ index : BitVec 9, cpu.ecx.toNat ≤ index.toNat →
      entries cpu.memory (bootFrame pml4T + 3#40) index = 0)
    (frame : Paging.Frame) (index : BitVec 9) :
    entries (tableRound pml4T cpu).memory frame index =
      if frame = bootFrame pml4T + 3#40 ∧ index.toNat = cpu.ecx.toNat then
        Paging.pageAddress (index.setWidth 40) ||| 0b11#64
      else entries cpu.memory frame index := by
  have hindex : (BitVec.ofNat 9 cpu.ecx.toNat).toNat = cpu.ecx.toNat := by
    rw [BitVec.toNat_ofNat]
    omega
  rw [(tableRound_entries hspace hecx (hzero _ (Nat.le_of_eq hindex.symm))).1]
  by_cases hhere : frame = bootFrame pml4T + 3#40 ∧
      index.toNat = cpu.ecx.toNat
  · have hslot : index = BitVec.ofNat 9 cpu.ecx.toNat :=
      BitVec.eq_of_toNat_eq (hhere.2.trans hindex.symm)
    have hwide : index.setWidth 40 = BitVec.ofNat 40 cpu.ecx.toNat := by
      apply BitVec.eq_of_toNat_eq
      rw [BitVec.toNat_setWidth, BitVec.toNat_ofNat, hhere.2]
    rw [if_pos hhere, hwide, hhere.1, hslot, Paging.writeEntry_self]
  · rw [if_neg hhere]
    apply Paging.writeEntry_of_ne
    rw [← not_and_or]
    rintro ⟨hframe, hslot⟩
    exact hhere ⟨hframe, by rw [hslot, hindex]⟩

/-- The loop writes one entry a round, and each entry only once. -/
theorem tableLoop_maps (hspace : TableSpace pml4T) {left fuel : Nat}
    {cpu : BootCpu} (hleft : cpu.ecx.toNat + (left + 1) = 512)
    (hfuel : left < fuel)
    (hzero : ∀ index : BitVec 9, cpu.ecx.toNat ≤ index.toNat →
      entries cpu.memory (bootFrame pml4T + 3#40) index = 0) :
    ∃ after, tableLoop pml4T fuel cpu = .ok after ∧
      Mapped pml4T cpu.ecx.toNat cpu after := by
  induction left generalizing cpu fuel with
  | zero =>
      have hecx : cpu.ecx.toNat < 512 := by omega
      obtain ⟨fuel, rfl⟩ := Nat.exists_eq_add_of_lt hfuel
      have hnext := (@toNat_tableRound pml4T cpu hecx).2
      have hdone : (tableRound pml4T cpu).ecx = 512 := by
        apply BitVec.eq_of_toNat_eq
        rw [hnext]
        change _ = 512
        omega
      have hround := tableRound_entry hspace hecx hzero
      have hrest := (tableRound_entries hspace hecx
        (hzero _ (by rw [BitVec.toNat_ofNat]; omega))).2
      refine ⟨tableRound pml4T cpu, ?_, rfl, rfl, rfl, hrest, ?_⟩
      · rw [Nat.zero_add, tableLoop]
        exact if_pos hdone
      · intro frame index
        have hslot := index.isLt
        have hlast : cpu.ecx.toNat ≤ index.toNat ↔
            index.toNat = cpu.ecx.toNat := by
          omega
        simp only [hround, hlast]
  | succ left ih =>
      have hecx : cpu.ecx.toNat < 512 := by omega
      obtain ⟨fuel, rfl⟩ := Nat.exists_eq_add_of_lt hfuel
      have hnext := (@toNat_tableRound pml4T cpu hecx).2
      have hmore : (tableRound pml4T cpu).ecx ≠ 512 := by
        intro hdone
        have hlast : (tableRound pml4T cpu).ecx.toNat = 512 := by
          rw [hdone]
          rfl
        omega
      have hround := tableRound_entry hspace hecx hzero
      have hrest := (tableRound_entries hspace hecx
        (hzero _ (by rw [BitVec.toNat_ofNat]; omega))).2
      obtain ⟨after, hloop, hmapped⟩ := @ih (left + 1 + fuel)
        (tableRound pml4T cpu) (by omega) (by omega) (by
          intro index hindex
          have hlater : ¬ (bootFrame pml4T + 3#40 = bootFrame pml4T + 3#40 ∧
              index.toNat = cpu.ecx.toNat) := by
            omega
          rw [hround, if_neg hlater]
          exact hzero index (by omega))
      refine ⟨after, ?_, hmapped.cr0, hmapped.cr4, hmapped.efer, ?_, ?_⟩
      · rw [tableLoop]
        exact (if_neg hmore).trans hloop
      · intro place houtside
        exact (hmapped.rest place houtside).trans (hrest place houtside)
      · intro frame index
        rw [hmapped.entry, hnext, hround]
        by_cases hframe : frame = bootFrame pml4T + 3#40
        · by_cases hhere : index.toNat = cpu.ecx.toNat
          · simp [hframe, hhere]
          · have hlater : cpu.ecx.toNat + 1 ≤ index.toNat ↔
                cpu.ecx.toNat ≤ index.toNat := by
              omega
            simp [hframe, hhere, hlater]
        · simp [hframe]

/-! The four tables together. -/

/-- The memory of the tables is cleared, as the loader leaves it. -/
def Cleared (pml4T : BitVec 32) (memory : Data.Memory) : Prop :=
  ∀ place, pml4T.toNat ≤ place → place < pml4T.toNat + 0x4000 →
    memory place = 0

theorem Cleared.entries (hspace : TableSpace pml4T) {memory : Data.Memory}
    (hcleared : Cleared pml4T memory) {depth : Nat} (hdepth : depth < 4)
    (index : BitVec 9) :
    entries memory (bootFrame pml4T + BitVec.ofNat 40 depth) index = 0 := by
  have haligned := hspace.aligned
  have hfits := hspace.fits
  have hindex := index.isLt
  have hslot := slot_lt (bootFrame pml4T + BitVec.ofNat 40 depth) index
  have hplace := hspace.toNat_frame hdepth
  rw [Boot.entries, Data.load64_of_zero (hslot.trans (by decide))]
  · rfl
  · intro place hge hlt
    exact hcleared place (by omega) (by omega)

theorem bootFrame_inj {depth other : Nat} (hdepth : depth < 4)
    (hother : other < 4)
    (hsame : bootFrame pml4T + BitVec.ofNat 40 depth =
      bootFrame pml4T + BitVec.ofNat 40 other) : depth = other := by
  have hoffset := (BitVec.add_right_inj _).mp hsame
  have htoNat := congrArg BitVec.toNat hoffset
  rw [BitVec.toNat_ofNat, BitVec.toNat_ofNat] at htoNat
  omega

theorem bootFrame_ne {depth other : Nat} (hdepth : depth < 4)
    (hother : other < 4) (hne : depth ≠ other) :
    bootFrame pml4T + BitVec.ofNat 40 depth ≠
      bootFrame pml4T + BitVec.ofNat 40 other :=
  fun hsame => hne (bootFrame_inj hdepth hother hsame)

/-- The first entry of each upper table leads to the next table. -/
theorem upperTables_maps (hspace : TableSpace pml4T) {cpu : BootCpu}
    (hcleared : Cleared pml4T cpu.memory) :
    entries (upperTables pml4T cpu).memory =
        Paging.writeEntry (Paging.writeEntry (Paging.writeEntry
          (entries cpu.memory)
          (bootFrame pml4T + 0#40) 0
            (Paging.pageAddress (bootFrame pml4T + 1#40) ||| 0b11#64))
          (bootFrame pml4T + 1#40) 0
            (Paging.pageAddress (bootFrame pml4T + 2#40) ||| 0b11#64))
          (bootFrame pml4T + 2#40) 0
            (Paging.pageAddress (bootFrame pml4T + 3#40) ||| 0b11#64) ∧
      KeepsRest pml4T cpu.memory (upperTables pml4T cpu).memory := by
  have haligned := hspace.aligned
  have hframe := @TableSpace.toNat_frame pml4T hspace
  have hzero : (0 : BitVec 9).toNat = 0 := rfl
  obtain ⟨hpdp, hpd, hpt⟩ := hspace.toNat_tables
  obtain ⟨hfirst, hkeepFirst⟩ := @TableSpace.store pml4T hspace cpu.memory 0
    (by decide) 0 pml4T (pdpT pml4T ||| 0b11)
    (bootFrame pml4T + BitVec.ofNat 40 1) (by omega)
    (by rw [toNat_or_flags (by omega), hpdp, hframe (by decide)]; omega)
    (hcleared.entries hspace (by decide) 0)
  obtain ⟨hsecond, hkeepSecond⟩ := @TableSpace.store pml4T hspace _ 1
    (by decide) 0 (pdpT pml4T) (pdT pml4T ||| 0b11)
    (bootFrame pml4T + BitVec.ofNat 40 2) (by omega)
    (by rw [toNat_or_flags (by omega), hpd, hframe (by decide)]; omega)
    (by
      rw [hfirst, Paging.writeEntry_of_ne _ _
        (.inl (bootFrame_ne (by decide) (by decide) (by decide)))]
      exact hcleared.entries hspace (by decide) 0)
  obtain ⟨hthird, hkeepThird⟩ := @TableSpace.store pml4T hspace _ 2
    (by decide) 0 (pdT pml4T) (ptT pml4T ||| 0b11)
    (bootFrame pml4T + BitVec.ofNat 40 3) (by omega)
    (by rw [toNat_or_flags (by omega), hpt, hframe (by decide)]; omega)
    (by
      rw [hsecond, Paging.writeEntry_of_ne _ _
        (.inl (bootFrame_ne (by decide) (by decide) (by decide))), hfirst,
        Paging.writeEntry_of_ne _ _
          (.inl (bootFrame_ne (by decide) (by decide) (by decide)))]
      exact hcleared.entries hspace (by decide) 0)
  rw [hsecond, hfirst] at hthird
  simp only [upperTables, BootCpu.movStore]
  refine ⟨hthird, ?_⟩
  intro place houtside
  exact (hkeepThird place houtside).trans ((hkeepSecond place houtside).trans
    (hkeepFirst place houtside))

theorem writeEntry_apply (memory : Paging.Memory) (table frame : Paging.Frame)
    (index slot : BitVec 9) (entry : BitVec 64) :
    Paging.writeEntry memory table index entry frame slot =
      if frame = table ∧ slot = index then entry else memory frame slot := by
  by_cases hsame : frame = table ∧ slot = index
  · rw [if_pos hsame, hsame.1, hsame.2, Paging.writeEntry_self]
  · rw [if_neg hsame]
    exact Paging.writeEntry_of_ne _ _ (not_and_or.mp hsame)

/-- Three stores and the loop leave the tables that the page walk starts
with. -/
theorem initTables_maps (hspace : TableSpace pml4T) {cpu : BootCpu}
    (hcleared : Cleared pml4T cpu.memory) :
    ∃ after, initTables pml4T cpu = .ok after ∧
      after.cr0 = cpu.cr0 ∧ after.cr4 = cpu.cr4 ∧ after.efer = cpu.efer ∧
      KeepsRest pml4T cpu.memory after.memory ∧
      entries after.memory =
        Paging.bootMemory (entries cpu.memory) (bootFrame pml4T) := by
  obtain ⟨hupper, hkeep⟩ := upperTables_maps hspace hcleared
  have hecx : (upperTables pml4T cpu).ecx.toNat = 0 := rfl
  have hblank : ∀ index, entries (upperTables pml4T cpu).memory
      (bootFrame pml4T + 3#40) index = 0 := by
    intro index
    simp only [hupper, writeEntry_apply, BitVec.add_right_inj]
    simp only [show ¬ (3#40 = 2#40) by decide, show ¬ (3#40 = 1#40) by decide,
      show ¬ (3#40 = 0#40) by decide, false_and, if_false]
    exact hcleared.entries hspace (by decide) index
  obtain ⟨after, hloop, hmapped⟩ := @tableLoop_maps pml4T hspace 511 (2 ^ 32)
    (upperTables pml4T cpu) (by rw [hecx]) (by decide) fun index _ =>
      hblank index
  refine ⟨after, hloop, hmapped.cr0, hmapped.cr4, hmapped.efer, ?_, ?_⟩
  · intro place houtside
    exact (hmapped.rest place houtside).trans (hkeep place houtside)
  · funext frame index
    obtain ⟨offset, rfl⟩ : ∃ offset, frame = bootFrame pml4T + offset :=
      ⟨frame - bootFrame pml4T, by bv_omega⟩
    have hback : bootFrame pml4T + offset - bootFrame pml4T = offset := by
      bv_omega
    rw [hmapped.entry, hupper, Paging.bootMemory, hback]
    simp only [writeEntry_apply, BitVec.add_right_inj, hecx, Nat.zero_le,
      and_true]
    have hcases : offset = 0#40 ∨ offset = 1#40 ∨ offset = 2#40 ∨
        offset = 3#40 ∨ 3 < offset.toNat := by
      bv_omega
    have hold : ∀ depth < 4, entries cpu.memory
        (bootFrame pml4T + BitVec.ofNat 40 depth) index = 0 :=
      fun depth hdepth => hcleared.entries hspace hdepth index
    have hnext : ∀ depth, bootFrame pml4T + BitVec.ofNat 40 depth + 1 =
        bootFrame pml4T + BitVec.ofNat 40 (depth + 1) := by
      intro depth
      rw [BitVec.add_assoc, BitVec.ofNat_add]
      rfl
    rcases hcases with rfl | rfl | rfl | rfl | hpast
    · have hentry := hold 0 (by decide)
      have hchain := hnext 0
      by_cases hindex : index = 0 <;> simp_all
    · have hentry := hold 1 (by decide)
      have hchain := hnext 1
      by_cases hindex : index = 0 <;> simp_all
    · have hentry := hold 2 (by decide)
      have hchain := hnext 2
      by_cases hindex : index = 0 <;> simp_all
    · simp
    · have hne : ∀ other : BitVec 40, other.toNat ≤ 3 → ¬ offset = other := by
        intro other hle heq
        rw [heq] at hpast
        omega
      have hlow : ¬ offset.toNat < 3 := by omega
      have hlast : ¬ offset.toNat = 3 := by omega
      simp only [hne 0#40 (by decide), hne 1#40 (by decide),
        hne 2#40 (by decide), hne 3#40 (by decide), false_and, if_false, hlow,
        hlast]

end

/-! What the processor makes of them. -/

section

variable {rest : Paging.Memory} {root : Paging.Frame} {address : BitVec 64}

theorem bootMemory_upper {depth : Nat} (hdepth : depth < 3)
    (index : BitVec 9) :
    Paging.bootMemory rest root (root + BitVec.ofNat 40 depth) index =
      if index = 0 then
        Paging.pageAddress (root + BitVec.ofNat 40 (depth + 1)) ||| 0b11#64
      else 0 := by
  have hback : (root + BitVec.ofNat 40 depth - root).toNat = depth := by
    rw [BitVec.add_comm, BitVec.add_sub_cancel, BitVec.toNat_ofNat]
    omega
  have hnext : root + BitVec.ofNat 40 depth + 1 =
      root + BitVec.ofNat 40 (depth + 1) := by
    rw [BitVec.add_assoc, BitVec.ofNat_add]
    rfl
  rw [Paging.bootMemory, hback, if_pos hdepth, hnext]

theorem bootMemory_last (index : BitVec 9) :
    Paging.bootMemory rest root (root + 3#40) index =
      Paging.pageAddress (index.setWidth 40) ||| 0b11#64 := by
  have hback : (root + 3#40 - root).toNat = 3 := by
    rw [BitVec.add_comm, BitVec.add_sub_cancel]
    rfl
  rw [Paging.bootMemory, hback]
  simp

theorem descend_upper {depth level steps : Nat} (hdepth : depth < 3) :
    Paging.descend (Paging.bootMemory rest root) address level (steps + 1)
        (root + BitVec.ofNat 40 depth) =
      if Paging.tableIndex address level = 0 then
        Paging.descend (Paging.bootMemory rest root) address (level - 1) steps
          (root + BitVec.ofNat 40 (depth + 1))
      else none := by
  rw [Paging.descend, bootMemory_upper hdepth]
  by_cases hindex : Paging.tableIndex address level = 0
  · simp [hindex]
  · rw [if_neg hindex, if_neg hindex]
    simp [Paging.present]

theorem lt_of_indices (hcanonical : Paging.canonical address) :
    address.toNat < 0x200000 ↔ Paging.tableIndex address 4 = 0 ∧
      Paging.tableIndex address 3 = 0 ∧ Paging.tableIndex address 2 = 0 := by
  have hindex : ∀ level, Paging.tableIndex address level = 0 ↔
      address.toNat / 2 ^ (12 + 9 * (level - 1)) % 512 = 0 := by
    intro level
    rw [← Paging.toNat_tableIndex, ← BitVec.toNat_inj]
    rfl
  rw [hindex, hindex, hindex]
  constructor
  · intro hlt
    refine ⟨?_, ?_, ?_⟩ <;>
      simp only [Nat.reduceSub, Nat.reduceMul, Nat.reduceAdd,
        Nat.reducePow] <;>
      omega
  · intro h
    simp only [Nat.reduceSub, Nat.reduceMul, Nat.reduceAdd,
      Nat.reducePow] at h
    have hlow : address.toNat % 2 ^ 48 < 0x200000 := by omega
    have hsign : (address.setWidth 48).msb = false := by
      rw [BitVec.msb_eq_false_iff_two_mul_lt, BitVec.toNat_setWidth]
      omega
    have hcopy := congrArg BitVec.toNat hcanonical
    rw [BitVec.signExtend_eq_setWidth_of_msb_false hsign,
      BitVec.toNat_setWidth, BitVec.toNat_setWidth] at hcopy
    omega

/-- The first 2 MiB are mapped to themselves, and nothing else is mapped. -/
theorem walk_bootMemory (address : BitVec 64) :
    Paging.walk (Paging.bootMemory rest root) root address =
      if address.toNat < 0x200000 then
        some (BitVec.ofNat 40 (address.toNat / 4096),
          address.extractLsb' 0 12)
      else none := by
  by_cases hcanonical : Paging.canonical address
  · have hstart := @descend_upper rest root address 0 4 3 (by decide)
    have hsecond := @descend_upper rest root address 1 3 2 (by decide)
    have hthird := @descend_upper rest root address 2 2 1 (by decide)
    have hzero : root + BitVec.ofNat 40 0 = root := by simp
    have hleaf : Paging.descend (Paging.bootMemory rest root) address 1 1
        (root + BitVec.ofNat 40 3) =
          some ((Paging.tableIndex address 1).setWidth 40) := by
      rw [Paging.descend, bootMemory_last]
      simp [Paging.descend]
    rw [hzero] at hstart
    rw [Paging.walk, if_pos hcanonical, hstart, hsecond, hthird, hleaf]
    simp only [lt_of_indices hcanonical]
    by_cases hlow : Paging.tableIndex address 4 = 0 ∧
        Paging.tableIndex address 3 = 0 ∧ Paging.tableIndex address 2 = 0
    · have hlt := (lt_of_indices hcanonical).mpr hlow
      have hframe : (Paging.tableIndex address 1).setWidth 40 =
          BitVec.ofNat 40 (address.toNat / 4096) := by
        apply BitVec.eq_of_toNat_eq
        rw [BitVec.toNat_setWidth, Paging.toNat_tableIndex, BitVec.toNat_ofNat]
        omega
      simp [hlow, hframe]
    · rw [if_neg hlow]
      split_ifs with hfour hthree htwo
      · exact absurd ⟨hfour, hthree, htwo⟩ hlow
      · rfl
      · rfl
      · rfl
  · have hhigh : ¬ address.toNat < 0x200000 := by
      intro hlt
      apply hcanonical
      exact Paging.canonical_of_lt (hlt.trans (by decide))
    rw [Paging.walk, if_neg hcanonical, if_neg hhigh]

end

theorem append_or_low (register : BitVec 64) (bits : BitVec 32) :
    register.extractLsb' 32 32 ++ (register.setWidth 32 ||| bits) =
      register ||| bits.setWidth 64 := by
  apply BitVec.eq_of_getLsbD_eq
  intro bit hbit
  rw [BitVec.getLsbD_append, BitVec.getLsbD_or, BitVec.getLsbD_or,
    BitVec.getLsbD_setWidth, BitVec.getLsbD_setWidth,
    BitVec.getLsbD_extractLsb']
  by_cases hlow : bit < 32
  · simp [hlow, hbit]
  · have hback : 32 + (bit - 32) = bit := by omega
    have hsmall : bit - 32 < 32 := by omega
    simp [hlow, hback, hsmall, BitVec.getLsbD_of_ge bits bit (by omega)]

theorem TableSpace.frameOf {pml4T : BitVec 32} (hspace : TableSpace pml4T) :
    Paging.frameOf (pml4T.setWidth 64) = bootFrame pml4T := by
  have hfits := hspace.fits
  apply BitVec.eq_of_toNat_eq
  rw [Paging.frameOf, BitVec.extractLsb'_toNat, BitVec.toNat_setWidth,
    bootFrame, BitVec.toNat_ofNat, Nat.shiftRight_eq_div_pow]
  omega

/-- The 32-bit boot code turns paging on with the first 2 MiB mapped to
themselves and nothing else mapped, and leaves the rest of memory alone. -/
theorem init64_maps_identity {pml4T : BitVec 32} (hspace : TableSpace pml4T)
    {cpu : BootCpu} (hcleared : Cleared pml4T cpu.memory) :
    ∃ after, init64 pml4T cpu = .ok after ∧
      after.cr3 = pml4T ∧
      after.cr4 = cpu.cr4 ||| 1#32 <<< 5 ∧
      after.efer = cpu.efer ||| (1#64 <<< 8 ||| 1#64 <<< 11) ∧
      after.cr0 = cpu.cr0 ||| 1#32 <<< 31 ∧
      KeepsRest pml4T cpu.memory after.memory ∧
      entries after.memory =
        Paging.bootMemory (entries cpu.memory) (bootFrame pml4T) ∧
      ∀ address,
        Paging.walk (entries after.memory)
            (Paging.frameOf (after.cr3.setWidth 64)) address =
          if address.toNat < 0x200000 then
            some (BitVec.ofNat 40 (address.toNat / 4096),
              address.extractLsb' 0 12)
          else none := by
  obtain ⟨after, hinit, hcr0, hcr4, hefer, hrest, hentries⟩ :=
    initTables_maps hspace hcleared
  have hmask : (1#32 <<< 8 ||| 1#32 <<< 11).setWidth 64 =
      1#64 <<< 8 ||| 1#64 <<< 11 := by
    decide
  refine ⟨enablePaging pml4T after, ?_, rfl, ?_, ?_, ?_, hrest, hentries, ?_⟩
  · rw [init64, hinit]
    rfl
  · simp only [enablePaging, hcr4]
  · simp only [enablePaging, hefer]
    rw [append_or_low, hmask]
  · simp only [enablePaging, hcr0]
  · intro address
    change Paging.walk (entries after.memory)
      (Paging.frameOf (pml4T.setWidth 64)) address = _
    rw [hentries, hspace.frameOf]
    exact walk_bootMemory address

def resetCpu : BootCpu := ⟨0, 0, 0, 0x11, 0, 0, 0, fun _ => 0⟩

theorem init64_maps_identity_linked :
    ∃ after, init64 0x101000 resetCpu = .ok after ∧
      Paging.walk (entries after.memory) 0x101 0x1FFFFF =
        some (0x1FF, 0xFFF) := by
  have hspace : TableSpace 0x101000 := ⟨by decide, by decide⟩
  have hcleared : Cleared 0x101000 resetCpu.memory := fun _ _ _ => rfl
  have hroot : Paging.frameOf ((0x101000 : BitVec 32).setWidth 64) = 0x101 := by
    decide
  obtain ⟨after, hinit, hcr3, hrest⟩ := init64_maps_identity hspace hcleared
  have hlast := hrest.2.2.2.2.2 0x1FFFFF
  rw [hcr3, hroot] at hlast
  exact ⟨after, hinit, hlast.trans (by decide)⟩

end Synos.Boot

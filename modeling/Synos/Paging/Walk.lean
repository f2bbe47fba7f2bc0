import Synos.Data.Machine
import Mathlib.Algebra.Group.Nat.Defs
import Mathlib.Logic.Function.Basic

namespace Synos.Paging

open Synos.Data

/-! The page tables as the processor walks them: four levels of tables with 512
entries, the entry of a page at level one. -/

/-- The number of a physical page. -/
abbrev Frame := BitVec 40

/-- Physical memory, seen as tables of entries. -/
abbrev Memory := Frame → BitVec 9 → BitVec 64

def present (entry : BitVec 64) : Bool := entry.getLsbD 0

/-- The frame that a present entry points to.  The tables hold no huge pages, so
above level one this is the next table. -/
def frameOf (entry : BitVec 64) : Frame := entry.extractLsb' 12 40

def tableIndex (address : BitVec 64) (level : Nat) : BitVec 9 :=
  address.extractLsb' (12 + 9 * (level - 1)) 9

/-- The bits from 47 on are copies of bit 47. -/
def canonical (address : BitVec 64) : Prop :=
  (address.setWidth 48).signExtend 64 = address

instance (address : BitVec 64) : Decidable (canonical address) :=
  inferInstanceAs (Decidable (_ = _))

theorem canonical_of_bits {address : BitVec 64}
    (hbits : ∀ bit, 48 ≤ bit → bit < 64 →
      address.getLsbD bit = address.getLsbD 47) : canonical address := by
  apply BitVec.eq_of_getLsbD_eq
  intro bit hbit
  rw [BitVec.getLsbD_signExtend]
  by_cases hlow : bit < 48
  · simp [hbit, hlow]
  · rw [if_neg hlow, hbits bit (by omega) hbit]
    simp [hbit, BitVec.msb_eq_getLsbD_last]

/-- Follow the entries of `address` for `steps` levels, from its table at
`level`. -/
def descend (memory : Memory) (address : BitVec 64) :
    (level steps : Nat) → Frame → Option Frame
  | _, 0, table => some table
  | level, steps + 1, table =>
      let entry := memory table (tableIndex address level)
      if present entry then
        descend memory address (level - 1) steps (frameOf entry)
      else
        none

/-- The table that holds the entry of `address` at `level`. -/
def tableOf (memory : Memory) (root : Frame) (address : BitVec 64)
    (level : Nat) : Option Frame :=
  descend memory address 4 (4 - level) root

def entryAt (memory : Memory) (root : Frame) (address : BitVec 64)
    (level : Nat) : Option (BitVec 64) :=
  (tableOf memory root address level).map fun table =>
    memory table (tableIndex address level)

/-- The walk of the processor: the frame of the page and the offset in it. -/
def walk (memory : Memory) (root : Frame) (address : BitVec 64) :
    Option (Frame × BitVec 12) :=
  if canonical address then
    (descend memory address 4 4 root).map fun frame =>
      (frame, address.extractLsb' 0 12)
  else
    none

def EntryPresent (memory : Memory) (root : Frame) (address : BitVec 64)
    (level : Nat) : Prop :=
  ∃ entry, entryAt memory root address level = some entry ∧
    present entry = true

section

variable {memory : Memory} {root : Frame} {address : BitVec 64}

theorem descend_add (level first second : Nat) (table : Frame) :
    descend memory address level (first + second) table =
      (descend memory address level first table).bind
        (descend memory address (level - first) second) := by
  induction first generalizing level table with
  | zero => simp [descend]
  | succ first ih =>
      rw [Nat.succ_add, descend, descend]
      cases hentry : present (memory table (tableIndex address level)) with
      | true =>
          rw [if_pos rfl, if_pos rfl, ih, Nat.sub_sub, Nat.add_comm 1]
      | false => simp

theorem tableOf_top : tableOf memory root address 4 = some root := rfl

theorem tableOf_succ {level : Nat} (hlevel : level < 4) :
    tableOf memory root address level =
      (entryAt memory root address (level + 1)).bind fun entry =>
        if present entry then some (frameOf entry) else none := by
  have hsteps : 4 - level = (4 - (level + 1)) + 1 := by omega
  have hreached : 4 - (4 - (level + 1)) = level + 1 := by omega
  rw [tableOf, hsteps, descend_add, entryAt, tableOf, hreached]
  cases descend memory address 4 (4 - (level + 1)) root with
  | none => rfl
  | some table => simp [descend]

/-- The table of a level is reached exactly when every entry above it is
present. -/
theorem tableOf_isSome_iff {level : Nat} (hlevel : level ≤ 4) :
    (tableOf memory root address level).isSome ↔
      ∀ above, level < above → above ≤ 4 →
        EntryPresent memory root address above := by
  obtain ⟨depth, hdepth⟩ := Nat.exists_eq_add_of_le hlevel
  induction depth generalizing level with
  | zero =>
      have htop : level = 4 := by omega
      subst htop
      simp only [tableOf_top, Option.isSome_some, true_iff]
      omega
  | succ depth ih =>
      have hsome := ih (show level + 1 ≤ 4 by omega) (by omega)
      have hstep : (tableOf memory root address level).isSome ↔
          (tableOf memory root address (level + 1)).isSome ∧
            EntryPresent memory root address (level + 1) := by
        rw [tableOf_succ (by omega)]
        unfold EntryPresent entryAt
        cases tableOf memory root address (level + 1) with
        | none => simp
        | some table =>
            cases hentry : present
              (memory table (tableIndex address (level + 1))) with
            | true => simp [hentry]
            | false => simp [hentry]
      rw [hstep, hsome]
      constructor
      · intro h above hgt hle
        cases Nat.eq_or_lt_of_le hgt with
        | inl heq => exact heq ▸ h.2
        | inr hlt => exact h.1 above hlt hle
      · intro h
        exact ⟨fun above hgt => h above (by omega),
          h (level + 1) (by omega) (by omega)⟩

end

/-! The self-map. -/

/-- The last entry of the root table is present and points back to it. -/
structure SelfMapped (memory : Memory) (root : Frame) : Prop where
  present : present (memory root 511) = true
  frame : frameOf (memory root 511) = root

def writeEntry (memory : Memory) (table : Frame) (index : BitVec 9)
    (entry : BitVec 64) : Memory :=
  Function.update memory table (Function.update (memory table) index entry)

/-- `pml4` is the physical address of the boot table `PML4_T`. -/
def pgaInit (memory : Memory) (pml4 : BitVec 64) : Memory :=
  writeEntry memory (frameOf pml4) 511 (pml4 ||| 0b11#64)

@[simp] theorem writeEntry_self (memory : Memory) (table : Frame)
    (index : BitVec 9) (entry : BitVec 64) :
    writeEntry memory table index entry table index = entry := by
  simp [writeEntry]

theorem writeEntry_of_ne (memory : Memory) {table other : Frame}
    {index slot : BitVec 9} (entry : BitVec 64)
    (hne : other ≠ table ∨ slot ≠ index) :
    writeEntry memory table index entry other slot = memory other slot := by
  unfold writeEntry
  by_cases htable : other = table
  · subst htable
    cases hne with
    | inl h => exact (h rfl).elim
    | inr h => rw [Function.update_self, Function.update_of_ne h]
  · rw [Function.update_of_ne htable]

/-- The flags `page_table_alloc` and `pga_init` set do not touch the frame. -/
@[simp] theorem frameOf_or_flags (address : BitVec 64) :
    frameOf (address ||| 3#64) = frameOf address := by
  have hflags : (3#64).extractLsb' 12 40 = 0#40 := by decide
  unfold frameOf
  rw [BitVec.extractLsb'_or]
  simp [hflags]

@[simp] theorem present_or_flags (address : BitVec 64) :
    present (address ||| 3#64) = true := by
  simp [present]

theorem pgaInit_selfMapped (memory : Memory) (pml4 : BitVec 64) :
    SelfMapped (pgaInit memory pml4) (frameOf pml4) := by
  refine ⟨?_, ?_⟩
  · simp [pgaInit]
  · simp [pgaInit]

end Synos.Paging

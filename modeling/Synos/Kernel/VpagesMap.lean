import Synos.Kernel.Pages
import Synos.Paging.Vpage
import Synos.Stored.Ranges

namespace Synos.Kernel

open Synos.Paging
open Synos.Stored (OnlyAllocates StoredSystem)
open Synos.Data (Fault bind_eq_ok load64 store64)

/-! `vpages_map` on the bytes of memory: its page tables are pages that
`alloc_page` takes out of the regions, and `next_free_vpage` is a word. -/

/-- Where the entry of a table lies in physical memory. -/
def entryPlace (frame : Frame) (index : BitVec 9) : Nat :=
  frame.toNat * 4096 + index.toNat * 8

/-- Physical memory, seen as tables of entries. -/
@[irreducible] def words (memory : Data.Memory) : Paging.Memory := fun frame index =>
  BitVec.ofNat 64 (load64 memory (entryPlace frame index))

/-- What the processor sees of memory. -/
def tablesIn (root : Frame) (memory : Data.Memory) : Tables :=
  ⟨words memory, root, [], [], fun _ => false⟩

section

/- The table that the processor starts from, and the address of
`next_free_vpage`. -/
variable (root : Frame) (cursor : Nat)

def storeWord (system : StoredSystem) (address value : BitVec 64) :
    Except Fault StoredSystem :=
  match walk (words system.memory) root address with
  | none => .error .pageFault
  | some (frame, offset) =>
      .ok { system with
        memory := store64 system.memory
          (entryPlace frame (offset.extractLsb' 3 9)) value.toNat }

def installTable (system : StoredSystem) (level : Nat) (offset : BitVec 64) :
    Except Fault StoredSystem :=
  match Stored.allocPage system with
  | .error fault => .error fault
  | .ok (address, system) =>
      storeWord root system (getTableAddress offset level)
        (BitVec.ofNat 64 address ||| 0b11#64)

def pageTableAlloc (system : StoredSystem) (level : Nat) (offset : BitVec 64) :
    Except Fault (Bool × StoredSystem) :=
  if level = 0 ∨ 4 < level then
    .ok (false, system)
  else
    let above : Except Fault StoredSystem :=
      if level < 4 then
        match pageIspresent (tablesIn root system.memory) offset (level + 1) with
        | .error fault => .error fault
        | .ok true => .ok system
        | .ok false =>
            match pageTableAlloc system (level + 1) offset with
            | .error fault => .error fault
            | .ok (_, system) => .ok system
      else
        .ok system
    match above with
    | .error fault => .error fault
    | .ok system =>
        match installTable root system level offset with
        | .error fault => .error fault
        | .ok system => .ok (true, system)
termination_by 4 - level

/-- One round of the loop of `pga_map`. -/
def mapPage (system : StoredSystem) (vaddress entry : BitVec 64) :
    Except Fault StoredSystem :=
  match pageIspresent (tablesIn root system.memory) vaddress 2 with
  | .error fault => .error fault
  | .ok found =>
      let system : Except Fault StoredSystem :=
        if found then .ok system
        else
          match pageTableAlloc root system 2 vaddress with
          | .error fault => .error fault
          | .ok (_, system) => .ok system
      match system with
      | .error fault => .error fault
      | .ok system => storeWord root system (getTableAddress vaddress 1) entry

def pgaMapFrom (vaddress paddress : BitVec 64) :
    (entry : BitVec 64) → (i count : Nat) → StoredSystem →
      Except Fault StoredSystem
  | _, _, 0, system => .ok system
  | entry, i, count + 1, system =>
      let entry := ((paddress + pageOffset i) &&& ~~~flagMask) +
        (entry &&& flagMask)
      match mapPage root system (vaddress + pageOffset i) entry with
      | .error fault => .error fault
      | .ok system => pgaMapFrom vaddress paddress entry (i + 1) count system

def pgaMap (system : StoredSystem) (vaddress paddress : BitVec 64) (order : Nat)
    (flags : BitVec 32) : Except Fault StoredSystem :=
  pgaMapFrom root vaddress paddress (flagEntry flags) 0 (2 ^ order) system

/-- The inner loop of `vpages_map`: no page from the `i`-th on is present. -/
def runFree (tables : Tables) (start : BitVec 64) :
    (i count : Nat) → Except Fault Bool
  | _, 0 => .ok true
  | i, count + 1 =>
      match pageIspresent tables (start + pageOffset i) 1 with
      | .error fault => .error fault
      | .ok true => .ok false
      | .ok false => runFree tables start (i + 1) count

/-- The outer loop of `vpages_map`.  A run as long as the address space keeps the
inner loop going for ever. -/
def findRun (tables : Tables) (order : Nat) :
    (start : BitVec 64) → (fuel : Nat) → Except Fault (Option (BitVec 64))
  | _, 0 => .error .endlessLoop
  | start, fuel + 1 =>
      if start < BitVec.allOnes 64 then
        match runFree tables start 0 (2 ^ order) with
        | .error fault => .error fault
        | .ok false => findRun tables order (start + 4096#64) fuel
        | .ok true =>
            if vpageCount ≤ 2 ^ order then .error .endlessLoop
            else .ok (some start)
      else
        .ok none

def nextFreeVpage (memory : Data.Memory) : BitVec 64 :=
  BitVec.ofNat 64 (load64 memory cursor)

def vpagesMap (system : StoredSystem) (paddress order : Nat) :
    Except Fault (BitVec 64 × StoredSystem) := do
  let found ← findRun (tablesIn root system.memory) order
    (nextFreeVpage cursor system.memory) (2 ^ 52)
  match found with
  | none => return (0, system)
  | some start =>
      let system ← pgaMap root system start (BitVec.ofNat 64 paddress) order 0
      let nextFree := nextFreeVpage cursor system.memory
      if start = nextFree then
        let size ← Paging.blockOrderSize order
        let next ← fnfp (tablesIn root system.memory)
          (nextFree + BitVec.ofNat 64 size)
        return (start, { system with
          memory := store64 system.memory cursor next.toNat })
      else
        return (start, system)

/-- `ppage_init` has no use for the address but to reach the pages by it. -/
def mapTable (system : StoredSystem) (paddress order : Nat) :
    Except Fault StoredSystem :=
  (vpagesMap root cursor system paddress order).map Prod.snd

def ppageInit (mbp regsb regst : Nat) (memory : Data.Memory)
    (regions : List (Page.Region Nat)) : Except Fault StoredSystem :=
  Stored.ppageInit (mapTable root cursor) mbp regsb regst memory regions

end

/-! All that it does. -/

section

variable {root : Frame} {cursor : Nat} {system next : StoredSystem}

/-- Single pages taken and writes to memory, in any order. -/
abbrev Takes : StoredSystem → StoredSystem → Prop :=
  Relation.ReflTransGen fun before after =>
    (∃ address, Stored.allocPage before = .ok (address, after)) ∨
      ∃ memory, after = { before with memory := memory }

theorem takes_write (system : StoredSystem) (memory : Data.Memory) :
    Takes system { system with memory := memory } :=
  .single (.inr ⟨memory, rfl⟩)

theorem storeWord_takes {address value : BitVec 64}
    (hcall : storeWord root system address value = .ok next) :
    Takes system next := by
  unfold storeWord at hcall
  split at hcall
  · cases hcall
  · cases hcall
    exact takes_write system _

theorem installTable_takes {level : Nat} {offset : BitVec 64}
    (hcall : installTable root system level offset = .ok next) :
    Takes system next := by
  unfold installTable at hcall
  split at hcall
  · cases hcall
  · next halloc =>
      exact .trans (.single (.inl ⟨_, halloc⟩)) (storeWord_takes hcall)

theorem pageTableAlloc_takes {level : Nat} {offset : BitVec 64} {reply : Bool}
    (hcall : pageTableAlloc root system level offset = .ok (reply, next)) :
    Takes system next := by
  fun_induction pageTableAlloc root system level offset
    generalizing reply next with
  | case1 level hrange =>
      cases hcall
      exact .refl
  | case2 level hrange above fault habove => cases hcall
  | case3 level hrange above middle habove fault hinstall => cases hcall
  | case4 level hrange above middle habove last hinstall =>
      rename_i ih
      cases hcall
      refine .trans ?_ (installTable_takes hinstall)
      simp only [above] at habove
      split at habove
      · next hlt =>
          split at habove
          · cases habove
          · cases habove
            exact .refl
          · split at habove
            · cases habove
            · next hcall =>
                cases habove
                exact ih hlt hcall
      · cases habove
        exact .refl

theorem mapPage_takes {vaddress entry : BitVec 64}
    (hcall : mapPage root system vaddress entry = .ok next) :
    Takes system next := by
  unfold mapPage at hcall
  split at hcall
  · cases hcall
  · simp only at hcall
    split at hcall
    · cases hcall
    · next middle hmiddle =>
        refine .trans ?_ (storeWord_takes hcall)
        split at hmiddle
        · cases hmiddle
          exact .refl
        · split at hmiddle
          · cases hmiddle
          · next halloc =>
              cases hmiddle
              exact pageTableAlloc_takes halloc

theorem pgaMapFrom_takes {vaddress paddress entry : BitVec 64} {i count : Nat}
    (hcall : pgaMapFrom root vaddress paddress entry i count system = .ok next) :
    Takes system next := by
  induction count generalizing entry i system with
  | zero =>
      cases hcall
      exact .refl
  | succ count ih =>
      unfold pgaMapFrom at hcall
      simp only at hcall
      split at hcall
      · cases hcall
      · next hpage => exact (mapPage_takes hpage).trans (ih hcall)

theorem vpagesMap_takes {paddress order : Nat} {address : BitVec 64}
    (hcall : vpagesMap root cursor system paddress order = .ok (address, next)) :
    Takes system next := by
  unfold vpagesMap at hcall
  obtain ⟨found, -, hcall⟩ := bind_eq_ok.mp hcall
  cases found with
  | none =>
      cases hcall
      exact .refl
  | some start =>
      obtain ⟨mapped, hmap, hcall⟩ := bind_eq_ok.mp hcall
      refine (pgaMapFrom_takes hmap).trans ?_
      simp only at hcall
      split at hcall
      · obtain ⟨size, -, hcall⟩ := bind_eq_ok.mp hcall
        obtain ⟨last, -, hcall⟩ := bind_eq_ok.mp hcall
        cases hcall
        exact takes_write mapped _
      · cases hcall
        exact .refl

theorem mapTable_onlyAllocates (root : Frame) (cursor : Nat) :
    OnlyAllocates (mapTable root cursor) := by
  intro system paddress order next hcall
  unfold mapTable at hcall
  cases hreply : vpagesMap root cursor system paddress order with
  | error fault =>
      rw [hreply] at hcall
      cases hcall
  | ok reply =>
      rw [hreply] at hcall
      cases hcall
      exact vpagesMap_takes hreply

end

end Synos.Kernel

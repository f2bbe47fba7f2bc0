import Synos.Boot.RegionMap
import Synos.Kernel.VpagesMap
import Synos.Stored.Within

namespace Synos.Boot

open Synos.Data (Fault Linked Machine Memory Returns returns_iff wordSize)
open Synos.Page (Grant Region SystemCall SystemSession blockOrderSize
  partitionMap maxOrder usableFlags)
open Synos.Stored (Place Spacious StoredSystem ppageInit_within systemMachine)

/-! From the map of the boot loader to the pages that are handed out. -/

/-- What `page.c` reads of a region that nobody has set up yet. -/
structure Mirrors {Map : Type} (region : Region Map) (node : MemRegion) : Prop where
  start : region.start = node.start.toNat
  size : region.size = node.size.toNat
  attrib : region.attrib = node.attrib.toNat

/-- The chain that `get_regions` answers with, node by node. -/
def RegionHeap.Hands (heap : RegionHeap) (mmap : Nat) (regions : List (Region Nat)) :
    Prop :=
  ∃ nodes, Linked (fun node => (heap node).next) mmap nodes ∧
    List.Forall₂ (fun region node => Mirrors region (heap node)) regions nodes

def InRam (entries : List MmapEntry) (grant : Grant) : Prop :=
  ∃ entry ∈ entries, entry.type = multibootMemoryAvailable ∧
    entry.addr.toNat ≤ grant.address ∧
    grant.address + blockOrderSize grant.order ≤
      entry.addr.toNat + entry.len.toNat

section

variable {heap heap0 : RegionHeap} {block : Nat → Nat}
  {entries : List MmapEntry} {entry : MmapEntry} {regions : List (Region Nat)}
  {region : Region Nat} {node : MemRegion}

theorem Mirrors.available (hmirrors : Mirrors region node)
    (haccepted : region.Accepted) : node.attrib &&& memRegionAvailable ≠ 0 := by
  intro hzero
  have hflag : node.attrib.toNat &&& 0x40 = 0 :=
    congrArg BitVec.toNat hzero
  have husable := haccepted.1
  rw [hmirrors.attrib] at husable
  have hmask : usableFlags &&& 0x40 = 0x40 := rfl
  have hboth : node.attrib.toNat &&& 0x40 = 0x40 := by
    calc node.attrib.toNat &&& 0x40
        = node.attrib.toNat &&& (usableFlags &&& 0x40) := by rw [hmask]
      _ = (node.attrib.toNat &&& usableFlags) &&& 0x40 :=
          (Nat.and_assoc _ _ _).symm
      _ = usableFlags &&& 0x40 := by rw [husable]
      _ = 0x40 := hmask
  rw [hflag] at hboth
  cases hboth

theorem exists_described {nodes : List Nat}
    (hmirrors : List.Forall₂ (fun region node => Mirrors region (heap node))
      regions nodes)
    (hdescribes : List.Forall₂ (fun node entry => Describes (heap node) entry)
      nodes entries) :
    ∀ region ∈ regions, ∃ entry ∈ entries, ∃ node,
      Mirrors region node ∧ Describes node entry := by
  induction hmirrors generalizing entries with
  | nil => exact fun _ hregion => absurd hregion List.not_mem_nil
  | cons hhead _ ih =>
      cases hdescribes with
      | cons hfirst hrest =>
          intro region hregion
          rcases List.mem_cons.mp hregion with rfl | hlater
          · exact ⟨_, List.mem_cons_self, _, hhead, hfirst⟩
          · obtain ⟨entry, hentry, hboth⟩ := ih hrest region hlater
            exact ⟨entry, List.mem_cons_of_mem _ hentry, hboth⟩

theorem Built.describes (hbuilt : Built block heap0 heap entries)
    (hfresh : FreshBlocks block) (hsome : entries ≠ [])
    (hknown : ∀ k entry, entries[k]? = some entry → KnownType entry.type ∨
      (heap0 (block k)).attrib &&& memRegionAvailable = 0)
    (hhands : heap.Hands (block 0) regions) :
    ∀ region ∈ regions, ∃ entry ∈ entries, ∃ node,
      Mirrors region node ∧ Describes node entry := by
  obtain ⟨nodes, hlinked, hmirrors⟩ := hhands
  obtain rfl := hlinked.unique (hbuilt.linked hfresh hsome)
  refine exists_described hmirrors (forall₂_blocks_iff.mpr ?_)
  intro k entry hentry
  exact (hbuilt.filled k entry hentry).describes_iff.mpr
    (hknown k entry hentry)

theorem Mirrors.inRam (hmirrors : Mirrors region node)
    (hdescribes : Describes node entry) (hentry : entry ∈ entries)
    {grant : Grant} (haccepted : region.Accepted)
    (hhas : region.Has grant.address grant.order) : InRam entries grant := by
  obtain ⟨hlow, hhigh⟩ := hhas
  rw [hmirrors.start, hdescribes.start] at hlow hhigh
  rw [hmirrors.size, hdescribes.size] at hhigh
  exact ⟨entry, hentry, hdescribes.available.mp (hmirrors.available haccepted),
    hlow, hhigh⟩

end

theorem known_fields_fit : 20 + ([] : List UInt8).length < 2 ^ 32 := by decide

def eightPages : List MmapEntry :=
  [⟨0x200000, 0x8000, 1, [], known_fields_fit⟩]

def eightRegion : Region Nat :=
  ⟨0x200000, 0x8000, 0x4B, 0, 0, false, false, 0⟩

/-- The region as `region_map` leaves it. -/
def freshEight : Region :=
  ⟨0x200000, 0x8000, 0x4B, 8, 8, false, false, partitionMap 8 maxOrder⟩

def eightPlace : Place := ⟨8, 0x10000, 0x11000, 4⟩

/-- There are ones behind the two bytes of the table. -/
def eightStorage : Memory := fun address =>
  if address = 0x11002 ∨ address = 0x11003 then 0xFF else 0

theorem eightPlace_fits : eightPlace.Fits := by
  refine ⟨by decide, by decide, by decide, by decide, by decide, ?_⟩
  decide

theorem eightPlace_ones : eightPlace.OnesBehind eightStorage := by
  intro index hge hlt
  have hsize : Page.pageTblSize eightPlace.pages = 2 := by decide
  have hplace : eightPlace.size = 4 := rfl
  obtain rfl | rfl : index = 2 ∨ index = 3 := by omega
  · decide
  · decide

theorem ppageInit_eight :
    ∃ system, Kernel.ppageInit 0x100#40 0x7000 (0x9000#32).toNat 0x10000
        0x11000 eightStorage [eightRegion] = .ok system ∧
      system.Housed (fun _ => eightPlace) ∧
      system.read = ⟨[freshEight], some 0, false⟩ :=
  @Stored.ppageInit_alone _ _ eightPlace eightStorage eightRegion freshEight _
    eightPlace_fits (by decide) eightPlace_ones (by decide) rfl
    (Page.regionMap_eq (Stored.withMap eightRegion (partitionMap 8 maxOrder)) 8
      rfl)
    (Stored.partitionMap_trimmed 8) (by decide +kernel) (by decide +kernel)
    (by decide) (by decide)

def eightCalls : List SystemCall :=
  [.allocPages 1, .allocPages 1, .freePages ⟨0x202000, 1⟩, .allocPages 1]

end Synos.Boot

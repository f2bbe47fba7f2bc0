import Synos.Boot.TabSearch

namespace Synos.Boot

open Synos.Data

/-! What the kernel takes over from the boot loader: its own sections, the memory
map and the framebuffer. The map becomes a chain of regions in blocks of the
early `kmalloc`, which lie apart from what the loader has left in memory. -/

def multibootBootloaderMagic : BitVec 32 := 0x2BADB002

def multibootInfoElfShdr : BitVec 32 := 0x20

def multibootInfoMemMap : BitVec 32 := 0x40

def multibootInfoFramebufferInfo : BitVec 32 := 0x1000

structure MultibootInfo where
  flags : BitVec 32
  elfSecNum : BitVec 32
  elfSecAddr : BitVec 32
  mmapLength : BitVec 32
  mmapAddr : BitVec 32
  framebufferAddr : BitVec 64
  framebufferWidth : BitVec 32
  framebufferHeight : BitVec 32
  framebufferType : BitVec 8

def readInfo (memory : Memory) (mbinf : Nat) : MultibootInfo where
  flags := load 32 memory mbinf
  elfSecNum := load 32 memory (mbinf + 28)
  elfSecAddr := load 32 memory (mbinf + 36)
  mmapLength := load 32 memory (mbinf + 44)
  mmapAddr := load 32 memory (mbinf + 48)
  framebufferAddr := load 64 memory (mbinf + 88)
  framebufferWidth := load 32 memory (mbinf + 100)
  framebufferHeight := load 32 memory (mbinf + 104)
  framebufferType := load 8 memory (mbinf + 109)

inductive FramebufferType
  | egaText
  | indexedColor
  | directRgb
  | framebufferTypeLength
  deriving DecidableEq

structure Framebuffer where
  type : FramebufferType
  address : BitVec 64
  width : BitVec 32
  height : BitVec 32

/-- `X64`; `mmap` is the address of the first region. -/
structure BootInfo where
  symbols : Symbols
  sections : Sections
  framebuffer : Framebuffer
  mmap : Nat

/-! ### Regions -/

def memRegionRead : BitVec 8 := 0x01

def memRegionWrite : BitVec 8 := 0x02

def memRegionProtected : BitVec 8 := 0x04

def memRegionMapped : BitVec 8 := 0x08

def memRegionBad : BitVec 8 := 0x10

def memRegionPreserve : BitVec 8 := 0x20

def memRegionAvailable : BitVec 8 := 0x40

/-- The fields of `struct mem_regions` that are set here. -/
structure MemRegion where
  start : BitVec 64
  size : BitVec 64
  attrib : BitVec 8
  pageAllocSi : Nat
  chainLength : BitVec 32
  next : Nat
  lock : Int

/-- The blocks of the regions, also before they are handed out. -/
abbrev RegionHeap := Nat → MemRegion

def RegionHeap.modify (heap : RegionHeap) (region : Nat)
    (change : MemRegion → MemRegion) : RegionHeap :=
  Function.update heap region (change (heap region))

def clearRegion (region : MemRegion) : MemRegion :=
  { region with chainLength := 0, pageAllocSi := 0, next := 0, lock := 0 }

def multibootMemoryAvailable : BitVec 32 := 1

def multibootMemoryReserved : BitVec 32 := 2

def multibootMemoryAcpiReclaimable : BitVec 32 := 3

def multibootMemoryNvs : BitVec 32 := 4

def multibootMemoryBadram : BitVec 32 := 5

/-- The `switch` over the type, which has no default. -/
def attribOf (type : BitVec 32) (attrib : BitVec 8) : BitVec 8 :=
  if type = multibootMemoryAvailable then
    memRegionAvailable ||| memRegionMapped ||| memRegionRead ||| memRegionWrite
  else if type = multibootMemoryReserved then memRegionProtected
  else if type = multibootMemoryAcpiReclaimable then
    memRegionProtected ||| memRegionMapped ||| memRegionRead ||| memRegionWrite
  else if type = multibootMemoryNvs then
    memRegionPreserve ||| memRegionMapped ||| memRegionRead ||| memRegionWrite
  else if type = multibootMemoryBadram then
    memRegionBad ||| memRegionMapped ||| memRegionProtected
  else attrib

/-- An entry is packed: `size`, `addr`, `len`, `type`. -/
def fillRegion (memory : Memory) (ent : Nat) (region : MemRegion) :
    MemRegion :=
  { region with
    start := load 64 memory (ent + 4)
    size := load 64 memory (ent + 12)
    attrib := attribOf (load 32 memory (ent + 20)) region.attrib }

def countRegion (region : MemRegion) : MemRegion :=
  { region with chainLength := region.chainLength + 1 }

def linkRegion (new : Nat) (region : MemRegion) : MemRegion :=
  { region with next := new }

/-- A region in a new block, behind the one at `creg`. -/
def addRegion (heap : RegionHeap) (creg new : Nat) : RegionHeap :=
  (heap.modify creg (linkRegion new)).modify new clearRegion

/-- The loop over `ent`, where `calls` blocks have been taken and `creg` is the
null pointer before the first entry. -/
def mapLoop (memory : Memory) (block : Nat → Nat) (mmap stop : Nat) :
    (fuel ent creg calls : Nat) → RegionHeap → Except Fault RegionHeap
  | 0, _, _, _, _ => .error .endlessLoop
  | fuel + 1, ent, creg, calls, heap =>
      let finish (creg calls : Nat) (heap : RegionHeap) :=
        mapLoop memory block mmap stop fuel
          (word (ent + (load 32 memory ent).toNat + 4)) creg calls
          ((heap.modify creg (fillRegion memory ent)).modify mmap countRegion)
      if stop ≤ ent then .ok heap
      else if creg = 0 then finish mmap calls heap
      else if block calls = 0 then .error .nullDereference
      else finish (block calls) (calls + 1) (addRegion heap creg (block calls))

/-! ### `mbootInit` -/

def initSymbols (memory : Memory) (answer : Nat → Nat) (mbinf : MultibootInfo)
    (x64 : BootInfo) : Except Fault BootInfo :=
  if mbinf.flags &&& multibootInfoElfShdr ≠ 0 then
    let sections := ⟨mbinf.elfSecAddr.toNat, mbinf.elfSecNum⟩
    match tabSearch memory answer sections x64.symbols with
    | .error fault => .error fault
    | .ok symbols => .ok { x64 with sections, symbols }
  else .ok { x64 with symbols := noSymbols, sections := ⟨0, 0⟩ }

/-- The address of the chain, and the blocks. -/
def initMmap (memory : Memory) (block : Nat → Nat) (mbinf : MultibootInfo)
    (heap : RegionHeap) : Except Fault (Nat × RegionHeap) :=
  if mbinf.flags &&& multibootInfoMemMap ≠ 0 then
    if block 0 = 0 then .error .nullDereference
    else
      -- an entry takes four bytes at the least, so the fuel does not run out
      match mapLoop memory block (block 0)
          (mbinf.mmapAddr.toNat + mbinf.mmapLength.toNat)
          (mbinf.mmapLength.toNat + 1) mbinf.mmapAddr.toNat 0 1
          (heap.modify (block 0) clearRegion) with
      | .error fault => .error fault
      | .ok heap => .ok (block 0, heap)
  else .ok (0, heap)

def framebufferTypeOf (type : BitVec 8) : FramebufferType :=
  if type = 2 then .egaText
  else if type = 0 then .indexedColor
  else if type = 1 then .directRgb
  else .framebufferTypeLength

def initFramebuffer (mbinf : MultibootInfo) (framebuffer : Framebuffer) :
    Framebuffer :=
  if mbinf.flags &&& multibootInfoFramebufferInfo ≠ 0 then
    { type := framebufferTypeOf mbinf.framebufferType
      address := mbinf.framebufferAddr
      width := mbinf.framebufferWidth
      height := mbinf.framebufferHeight }
  else { framebuffer with type := .framebufferTypeLength }

/-- `answer` has what `kmalloc` answers to `tab_search`, and `block` the blocks
it gives for regions, each in their order. -/
def mbootInit (memory : Memory) (answer block : Nat → Nat)
    (mbm mbp : BitVec 32) (x64 : BootInfo) (heap : RegionHeap) :
    Except Fault (BootInfo × RegionHeap) :=
  if mbm ≠ multibootBootloaderMagic then .error .panic
  else
    let mbinf := readInfo memory mbp.toNat
    match initSymbols memory answer mbinf x64 with
    | .error fault => .error fault
    | .ok x64 =>
        match initMmap memory block mbinf heap with
        | .error fault => .error fault
        | .ok (mmap, heap) =>
            .ok ({ x64 with
              mmap := mmap
              framebuffer := initFramebuffer mbinf x64.framebuffer }, heap)

/-! ### `getMEMID` -/

structure MemId where
  enabled : Bool
  nEntries : BitVec 64
  totalSize : BitVec 64

/-- The loop over `i`, with `count` regions to go. -/
def totalLoop (heap : RegionHeap) :
    (count creg : Nat) → BitVec 64 → Except Fault (BitVec 64)
  | 0, _, totalSize => .ok totalSize
  | count + 1, creg, totalSize =>
      if creg = 0 then .error .nullDereference
      else
        totalLoop heap count (heap creg).next (totalSize + (heap creg).size)

def getMemId (x64 : BootInfo) (heap : RegionHeap) (mem : MemId) :
    Except Fault MemId :=
  if x64.mmap = 0 then .ok { mem with enabled := false }
  else
    match totalLoop heap (heap x64.mmap).chainLength.toNat x64.mmap 0#64 with
    | .error fault => .error fault
    | .ok totalSize =>
        .ok { mem with
          nEntries := (heap x64.mmap).chainLength.setWidth 64
          totalSize := totalSize }

end Synos.Boot

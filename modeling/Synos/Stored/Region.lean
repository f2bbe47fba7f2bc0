import Synos.Data.Bytes
import Synos.Page.Bits
import Synos.Page.Protect

namespace Synos.Stored

open Synos.Data
open Synos.Page

/-! The allocator of a region on the bytes of memory: the fields of `bpa_map_t`
are words there, and the ten bitmaps share the bytes of one table. -/

/-- `bpa_map_t`, by its address. -/
structure StoredMap where
  memory : Memory
  address : Nat

namespace StoredMap

variable (map : StoredMap)

def pagesField : Nat := map.address

def freeAreaSizeField : Nat := map.address + 8

def freeAreaField (order : Nat) : Nat := map.address + 16 + 8 * order

def pagesFreeField (order : Nat) : Nat := map.address + 96 + 8 * order

def nextFreePageField (order : Nat) : Nat := map.address + 176 + 8 * order

def store (field value : Nat) : StoredMap :=
  { map with memory := store64 map.memory field value }

def pages : Nat := load64 map.memory map.pagesField

def freeArea (order : Nat) : Nat := load64 map.memory (map.freeAreaField order)

def pagesFree (order : Nat) : Nat :=
  load64 map.memory (map.pagesFreeField order)

def nextFreePage (order : Nat) : Nat :=
  load64 map.memory (map.nextFreePageField order)

def setPagesFree (order value : Nat) : StoredMap :=
  map.store (map.pagesFreeField order) value

def setNextFreePage (order value : Nat) : StoredMap :=
  map.store (map.nextFreePageField order) value

def blockAddress (order offset : Nat) : Nat :=
  word (map.freeArea order + offset / 8)

def blockCheck (order offset : Nat) : Bool :=
  ((map.memory (map.blockAddress order offset)).toBitVec >>> (offset % 8)) &&&
    1#8 == 1#8

def setByte (address : Nat) (byte : BitVec 8) : StoredMap :=
  { map with memory := Function.update map.memory address ⟨byte⟩ }

def blockSet (order offset : Nat) : StoredMap :=
  let address := map.blockAddress order offset
  map.setByte address
    ((map.memory address).toBitVec ||| 1#8 <<< (offset % 8))

def blockClear (order offset : Nat) : StoredMap :=
  let address := map.blockAddress order offset
  map.setByte address
    ((map.memory address).toBitVec &&& ~~~(1#8 <<< (offset % 8)))

end StoredMap

/-! Setting up a region. -/

def blocksClear (map : StoredMap) (order start : Nat) : Nat → StoredMap
  | 0 => map
  | length + 1 =>
      blocksClear (map.blockClear order start) order (start + 1) length

def freeAreaMap (map : StoredMap) (pages : Nat) : StoredMap :=
  let order := orderMax pages
  if _hlow : orderMax pages ≠ maxOrder - 1 then
    if freeAreaLength map.pages (order + 1) = 0 then
      let map := map.setPagesFree order (freeAreaLength pages order)
      blocksClear map order 0 (map.pagesFree order)
    else
      let map := map.setNextFreePage order (freeAreaLength pages order - 1)
      let map := map.blockClear order (map.nextFreePage order)
      let map := map.setPagesFree order (wordAdd (map.pagesFree order) 1)
      freeAreaMap map (pages - 2 ^ order)
  else
    let map := map.setPagesFree order (freeAreaLength pages order)
    blocksClear map order 0 (map.pagesFree order)
termination_by pages
decreasing_by
  have := pos_of_orderMax _hlow
  have := Nat.two_pow_pos (orderMax pages)
  omega

/-- The loop of `region_map` that places the bitmaps from `order` on. -/
def placeAreas (map : StoredMap) (order lastPos lastSize : Nat) : StoredMap :=
  if order < maxOrder then
    let lastPos := wordAdd lastPos lastSize
    placeAreas (map.store (map.freeAreaField order) lastPos) (order + 1) lastPos
      ((lastSize + 1) / 2)
  else
    map
termination_by maxOrder - order

/-- What `region_map` does to the tables up to the loop. -/
def resetTables (map : StoredMap) (pages pageent : Nat) : StoredMap :=
  let map := map.store map.pagesField pages
  let map := map.store map.freeAreaSizeField (pageTblSize pages)
  let memory := setBytes map.memory pageent 0xFF (pageTblSize pages)
  let memory := setBytes memory (map.pagesFreeField 0) 0 (8 * maxOrder)
  let memory := setBytes memory (map.nextFreePageField 0) 0 (8 * maxOrder)
  let map := { map with memory := memory }
  map.store (map.freeAreaField 0) pageent

def mapTables (map : StoredMap) (pages pageent : Nat) : StoredMap :=
  let map := resetTables map pages pageent
  let map := placeAreas map 1 pageent ((pages + (8 - 1)) / 8)
  freeAreaMap map pages

def regionMap (memory : Memory) (region : Region Nat) (pages sb pageent : Nat) :
    Except Fault (Region StoredMap) :=
  match spinlockLock region with
  | .error fault => .error fault
  | .ok region =>
      .ok (spinlockUnlock
        { start := region.start
          size := region.size
          attrib := region.attrib
          pagesTotal := pages
          pagesFree := pages
          memFull := false
          lock := region.lock
          map := mapTables ⟨memory, sb⟩ pages pageent })

/-! Allocation. -/

def findNextFreePage (map : StoredMap) (order start : Nat) : Nat × StoredMap :=
  match firstClear? (map.blockCheck order) start
      (freeAreaLength map.pages order) with
  | some offset => (offset, map)
  | none => (0, map.setPagesFree order 0)

def searchNextFreePage (map : StoredMap) (order start : Nat) : StoredMap :=
  let (offset, map) := findNextFreePage map order start
  map.setNextFreePage order offset

def dropNextFreePage (map : StoredMap) (order : Nat) : StoredMap :=
  let map :=
    if map.pagesFree order ≠ 1 then
      searchNextFreePage map order (map.nextFreePage order + 1)
    else
      map.setNextFreePage order 0
  map.setPagesFree order (wordSub (map.pagesFree order) 1)

def splitNextFree (map : StoredMap) (order : Nat) : StoredMap :=
  let offset := map.nextFreePage order
  let map := map.blockSet order offset
  let map := map.blockClear (order - 1) (offset * 2)
  let map := map.blockClear (order - 1) (offset * 2 + 1)
  let map :=
    if offset * 2 < map.nextFreePage (order - 1) ∨
        map.pagesFree (order - 1) = 0 then
      map.setNextFreePage (order - 1) (offset * 2)
    else
      map
  let map := map.setPagesFree (order - 1) (wordAdd (map.pagesFree (order - 1)) 2)
  dropNextFreePage map order

def blockSplit (region : Region StoredMap) (order : Nat) : Region StoredMap :=
  if order = 0 ∨ maxOrder ≤ order then
    region
  else if 0 < region.map.pagesFree order then
    { region with map := splitNextFree region.map order }
  else if order = maxOrder - 1 then
    outOfMem region
  else
    let region := blockSplit region (order + 1)
    if region.map.pagesFree order = 0 then
      outOfMem region
    else
      { region with map := splitNextFree region.map order }
termination_by maxOrder - order

def allocNextFree (region : Region StoredMap) (order : Nat) :
    Nat × Region StoredMap :=
  let offset := region.map.nextFreePage order
  let map := region.map.blockSet order offset
  let physAddr := word (blockOrderSize order * offset + region.start)
  let region := { region with map := dropNextFreePage map order }
  let region :=
    if region.pagesFree ≤ 2 ^ order then outOfMem region else region
  let region :=
    { region with pagesFree := wordSub region.pagesFree (2 ^ order) }
  (physAddr, spinlockUnlock region)

def pagesAlloc (region : Region StoredMap) (order : Nat) :
    Except Fault (Nat × Region StoredMap) :=
  if maxOrder ≤ order then
    .ok (0, region)
  else
    match spinlockLock region with
    | .error fault => .error fault
    | .ok region =>
        if 0 < region.map.pagesFree order then
          .ok (allocNextFree region order)
        else if order = maxOrder - 1 then
          .ok (0, spinlockUnlock (outOfMem region))
        else
          let region := blockSplit region (order + 1)
          if region.map.pagesFree order = 0 then
            .ok (0, spinlockUnlock (outOfMem region))
          else
            .ok (allocNextFree region order)

def pageAlloc (region : Region StoredMap) :
    Except Fault (Nat × Region StoredMap) :=
  pagesAlloc region 0

/-! Freeing. -/

def joinBlocks (map : StoredMap) (order offset : Nat) : StoredMap :=
  let map := map.blockSet order offset
  let map := map.blockSet order (offset + 1)
  let map := map.blockClear (order + 1) (offset / 2)
  let map := map.setPagesFree order (wordSub (map.pagesFree order) 2)
  map.setPagesFree (order + 1) (wordAdd (map.pagesFree (order + 1)) 1)

def mergePair (map : StoredMap) (order offset : Nat) : StoredMap :=
  let map := joinBlocks map order offset
  let map :=
    if map.nextFreePage order = offset ∨ map.nextFreePage order = offset + 1 then
      searchNextFreePage map order (offset + 2)
    else
      map
  if offset / 2 < map.nextFreePage (order + 1) ∨
      map.pagesFree (order + 1) = 1 then
    map.setNextFreePage (order + 1) (offset / 2)
  else
    map

def blockMerge (map : StoredMap) (order offset : Nat) : StoredMap :=
  if maxOrder - 1 ≤ order then
    map
  else
    let offset := offset - offset % 2
    let map := mergePair map order offset
    if offset / 2 % 2 = 0 then
      if map.blockCheck (order + 1) (offset / 2 + 1) then map
      else blockMerge map (order + 1) (offset / 2)
    else
      if map.blockCheck (order + 1) (offset / 2 - 1) then map
      else blockMerge map (order + 1) (offset / 2)
termination_by maxOrder - order

def releaseBlock (map : StoredMap) (order offset : Nat) : StoredMap :=
  let map := map.blockClear order offset
  let map := map.setPagesFree order (wordAdd (map.pagesFree order) 1)
  if offset < map.nextFreePage order then map.setNextFreePage order offset
  else map

def returnBlock (map : StoredMap) (order offset : Nat) : StoredMap :=
  let map := releaseBlock map order offset
  if map.blockCheck order (buddyOf offset) then map
  else blockMerge map order offset

def pagesFree (region : Region StoredMap) (phaddr order : Nat) :
    Except Fault (Region StoredMap) :=
  match spinlockLock region with
  | .error fault => .error fault
  | .ok region =>
      if phaddr < region.start ∨
          wordAdd region.start region.size ≤ phaddr then
        .ok region
      else
        let offset := (phaddr - region.start) / pageSize
        if region.map.blockCheck order offset then
          let region :=
            if region.pagesFree = 0 then outOfMem region else region
          let region :=
            { region with pagesFree := wordAdd region.pagesFree (2 ^ order) }
          .ok (spinlockUnlock
            { region with map := returnBlock region.map order offset })
        else
          .ok region

def pageFree (region : Region StoredMap) (phaddr : Nat) :
    Except Fault (Region StoredMap) :=
  pagesFree region phaddr 0

/-! Reserving. -/

def zfreeHalves (map : StoredMap) (order offset : Nat) : StoredMap :=
  let map := map.blockSet order offset
  let map := map.blockClear (order - 1) (offset * 2)
  let map := map.blockClear (order - 1) (offset * 2 + 1)
  let map :=
    if map.nextFreePage order * 2 < map.nextFreePage (order - 1) then
      map.setNextFreePage (order - 1) (map.nextFreePage order * 2)
    else
      map
  map.setPagesFree (order - 1) (wordAdd (map.pagesFree (order - 1)) 2)

def zsplitBlock (map : StoredMap) (order offset : Nat) : StoredMap :=
  let map := zfreeHalves map order offset
  let map :=
    if map.pagesFree order = 1 then
      map.setNextFreePage order 0
    else if offset = map.nextFreePage order then
      searchNextFreePage map order (offset + 1)
    else
      map
  map.setPagesFree order (wordSub (map.pagesFree order) 1)

def zblockSplit (map : StoredMap) (order offset : Nat) : StoredMap :=
  if order = 0 ∨ maxOrder ≤ order then
    map
  else if map.blockCheck order offset = false then
    zsplitBlock map order offset
  else if order = maxOrder - 1 then
    map
  else
    let map := zblockSplit map (order + 1) (offset / 2)
    if map.blockCheck order offset = false then
      zsplitBlock map order offset
    else
      map
termination_by maxOrder - order

def reserveBlock (map : StoredMap) (order offset : Nat) : StoredMap :=
  let map := map.blockSet order offset
  let map := map.setPagesFree order (wordSub (map.pagesFree order) 1)
  if map.nextFreePage order = offset then
    searchNextFreePage map order (offset + 1)
  else
    map

def findSplitOrder (map : StoredMap) (order current pOffset : Nat) : Nat × Nat :=
  if current < maxOrder then
    if map.blockCheck current (pOffset / 2) = false then
      (current, pOffset / 2)
    else
      findSplitOrder map order (current + 1) (pOffset / 2)
  else
    (order, pOffset)
termination_by maxOrder - current

def splitDown (map : StoredMap) (order : Nat) : Nat → Nat → StoredMap
  | 0, _ => map
  | current + 1, pOffset =>
      if order < current + 1 then
        splitDown (zblockSplit map (current + 1) pOffset) order current
          (pOffset * 2)
      else
        map

def pagesReserve (region : Region StoredMap) (order offset : Nat) :
    Except Fault (Nat × Region StoredMap) :=
  match spinlockLock region with
  | .error fault => .error fault
  | .ok region =>
      let address := word (blockOrderSize order * offset + region.start)
      if region.map.blockCheck order offset = false then
        .ok (address, region.afterReserve order
          (reserveBlock region.map order offset))
      else
        let split := findSplitOrder region.map order (order + 1)
          (offset / 2 * 2)
        let map := splitDown region.map order split.1 split.2
        let map :=
          if map.blockCheck order offset = false then
            reserveBlock map order offset
          else
            map
        .ok (address, region.afterReserve order map)

def protectLow (region : Region StoredMap) : Except Fault (Region StoredMap) :=
  if region.start < lowMemory then
    let resSize := lowMemory - region.start
    let resSize := if region.size < resSize then region.size else resSize
    let pages := (resSize + (pageSize - 1)) / pageSize
    match pagesReserve region (logOrder pages) (region.start / pageSize) with
    | .error fault => .error fault
    | .ok (_, region) => .ok region
  else
    .ok region

def protectInfo (region : Region StoredMap) (mbp : Nat) :
    Except Fault (Region StoredMap) :=
  if region.start < wordAdd mbp mbootInfoSize ∧
      mbp < wordAdd region.start region.size then
    let start := if mbp < region.start then region.start else mbp
    let resSize := wordSub mbootInfoSize (wordSub start mbp)
    let rest := wordSub region.size (wordSub start region.start)
    let resSize := if rest < resSize then rest else resSize
    let pages := (resSize + (pageSize - 1)) / pageSize
    match pagesReserve region (logOrder pages)
        (wordSub start region.start / pageSize) with
    | .error fault => .error fault
    | .ok (_, region) => .ok region
  else
    .ok region

def memPProtect (region : Region StoredMap) (mbp : Nat) :
    Except Fault (Region StoredMap) :=
  match protectLow region with
  | .error fault => .error fault
  | .ok region => protectInfo region mbp

end Synos.Stored

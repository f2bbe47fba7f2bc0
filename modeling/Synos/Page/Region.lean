import Synos.Data.Machine
import Synos.Data.Word
import Synos.Data.Dyadic
import Synos.Data.FreeSlots

namespace Synos.Page

open Synos.Data

/-! The state of one region of physical memory and the primitive operations on
its bitmaps. -/

def maxOrder : Nat := 10

def pageSize : Nat := 4096

def blockOrderSize (order : Nat) : Nat := pageSize * 2 ^ order

/-- The buddy allocator's map.  Each order has a bitmap of its own, in which a
clear bit is a free block; an unused bit is set. -/
@[ext] structure BpaMap where
  pages : Nat
  freeArea : Nat → Nat → Bool
  pagesFree : Nat → Nat
  nextFreePage : Nat → Nat

structure Region (Map : Type := BpaMap) where
  start : Nat
  size : Nat
  attrib : Nat
  pagesTotal : Nat
  pagesFree : Nat
  memFull : Bool
  lock : Bool
  map : Map

namespace BpaMap

def blockCheck (map : BpaMap) (order offset : Nat) : Bool :=
  map.freeArea order offset

def writeBlock (map : BpaMap) (order offset : Nat) (value : Bool) : BpaMap :=
  { map with
    freeArea := Function.update map.freeArea order
      (Function.update (map.freeArea order) offset value) }

abbrev blockSet (map : BpaMap) (order offset : Nat) : BpaMap :=
  map.writeBlock order offset true

abbrev blockClear (map : BpaMap) (order offset : Nat) : BpaMap :=
  map.writeBlock order offset false

def setPagesFree (map : BpaMap) (order value : Nat) : BpaMap :=
  { map with pagesFree := Function.update map.pagesFree order value }

def setNextFreePage (map : BpaMap) (order value : Nat) : BpaMap :=
  { map with nextFreePage := Function.update map.nextFreePage order value }

end BpaMap

def freeAreaLength (pages : Nat) : Nat → Nat
  | 0 => pages
  | order + 1 => freeAreaLength (pages / 2) order

theorem freeAreaLength_eq (pages order : Nat) :
    freeAreaLength pages order = pages / 2 ^ order := by
  induction order generalizing pages with
  | zero => simp [freeAreaLength]
  | succ order ih =>
      rw [freeAreaLength, ih, Nat.div_div_eq_div_mul, pow_succ, Nat.mul_comm]

/-- An unsuccessful search also resets the counter of the order. -/
def findNextFreePage (map : BpaMap) (order start : Nat) : Nat × BpaMap :=
  match firstClear? (map.blockCheck order) start
      (freeAreaLength map.pages order) with
  | some offset => (offset, map)
  | none => (0, map.setPagesFree order 0)

def searchNextFreePage (map : BpaMap) (order start : Nat) : BpaMap :=
  let (offset, map) := findNextFreePage map order start
  map.setNextFreePage order offset

/-- The end of a successful allocation or split at `order`: move the hint past
the block just taken and count the block out. -/
def dropNextFreePage (map : BpaMap) (order : Nat) : BpaMap :=
  let map :=
    if map.pagesFree order ≠ 1 then
      searchNextFreePage map order (map.nextFreePage order + 1)
    else
      map.setNextFreePage order 0
  map.setPagesFree order (wordSub (map.pagesFree order) 1)

section

variable {Map : Type}

def outOfMem (region : Region Map) : Region Map :=
  { region with memFull := true }

def spinlockLock (region : Region Map) : Except Fault (Region Map) :=
  if region.lock then .error .spin else .ok { region with lock := true }

def spinlockUnlock (region : Region Map) : Region Map :=
  { region with lock := false }

end

/-! What the bitmaps say: one array of slots for each order, and the family of
all free blocks. -/

namespace BpaMap

def slots (map : BpaMap) (order : Nat) : FreeSlots where
  bits := map.freeArea order
  length := freeAreaLength map.pages order
  count := map.pagesFree order
  hint := map.nextFreePage order

def free (map : BpaMap) : Family :=
  {block | block.order < maxOrder ∧
    map.freeArea block.order block.index = false}

/-- For each order the counter is exact, the padding is set and the hint is the
lowest free block, and no page lies in two free blocks. -/
structure WellFormed (map : BpaMap) : Prop where
  pages_lt : map.pages < wordSize
  slots_sound : ∀ order < maxOrder, (map.slots order).Sound
  apart : map.free.Apart

variable {map : BpaMap}

theorem mem_free {block : Block} :
    block ∈ map.free ↔ block.order < maxOrder ∧
      map.freeArea block.order block.index = false := Iff.rfl

theorem WellFormed.index_lt (hmap : map.WellFormed) {block : Block}
    (hfree : block ∈ map.free) :
    block.index < map.pages / 2 ^ block.order := by
  have := (hmap.slots_sound block.order hfree.1).lt_length hfree.2
  simpa [slots, freeAreaLength_eq] using this

theorem WellFormed.lt_pages (hmap : map.WellFormed) {point : Nat}
    (hcovers : map.free.Covers point) : point < map.pages := by
  obtain ⟨block, hfree, hpoint⟩ := hcovers
  have hindex := hmap.index_lt hfree
  rw [Block.mem_def] at hpoint
  rw [← hpoint] at hindex
  by_contra hge
  have hle : map.pages / 2 ^ block.order ≤ point / 2 ^ block.order :=
    Nat.div_le_div_right (Nat.le_of_not_lt hge)
  omega

theorem WellFormed.hint_mem (hmap : map.WellFormed) {order : Nat}
    (horder : order < maxOrder) (hpos : 0 < map.pagesFree order) :
    (⟨order, map.nextFreePage order⟩ : Block) ∈ map.free :=
  ⟨horder, (hmap.slots_sound order horder).hint_clear hpos⟩

theorem WellFormed.count_pos (hmap : map.WellFormed) {block : Block}
    (hfree : block ∈ map.free) : 0 < map.pagesFree block.order :=
  (hmap.slots_sound block.order hfree.1).count_pos hfree.2

theorem WellFormed.not_free_of_empty (hmap : map.WellFormed) {order : Nat}
    (hempty : map.pagesFree order = 0) {block : Block}
    (horder : block.order = order) : block ∉ map.free := by
  intro hfree
  have := hmap.count_pos hfree
  rw [horder] at this
  omega

theorem WellFormed.count_le (hmap : map.WellFormed) {order : Nat}
    (horder : order < maxOrder) :
    map.pagesFree order ≤ map.pages / 2 ^ order := by
  have := (hmap.slots_sound order horder).count_le
  simpa [slots, freeAreaLength_eq] using this

theorem WellFormed.length_lt (hmap : map.WellFormed) (order : Nat) :
    freeAreaLength map.pages order < wordSize := by
  rw [freeAreaLength_eq]
  exact Nat.lt_of_le_of_lt (Nat.div_le_self _ _) hmap.pages_lt

theorem WellFormed.count_lt (hmap : map.WellFormed) {order : Nat}
    (horder : order < maxOrder) : map.pagesFree order < wordSize :=
  Nat.lt_of_le_of_lt (hmap.slots_sound order horder).count_le
    (hmap.length_lt order)

/-- Over a page of a free block, the block is the lowest free one. -/
theorem WellFormed.above (hmap : map.WellFormed) {block : Block}
    {page : Nat} (hfree : block ∈ map.free) (hpage : page ∈ block) :
    (∀ order < block.order, map.freeArea order (page / 2 ^ order) = true) ∧
      map.freeArea block.order (page / 2 ^ block.order) = false := by
  refine ⟨?_, ?_⟩
  · intro order horder
    by_contra hclear
    have hmem : (⟨order, page / 2 ^ order⟩ : Block) ∈ map.free :=
      ⟨by have := hfree.1; simp only; omega, by simpa using hclear⟩
    have heq := hmap.apart.unique hmem hfree (Block.mem_def.mpr rfl) hpage
    have := congrArg Block.order heq
    simp only at this
    omega
  · rw [Block.mem_def.mp hpage]
    exact hfree.2

end BpaMap

/-! How the primitive operations read through the view. -/

section

variable (map : BpaMap) (order offset value : Nat) (bit : Bool)

@[simp] theorem writeBlock_pages :
    (map.writeBlock order offset bit).pages = map.pages := rfl

@[simp] theorem writeBlock_pagesFree :
    (map.writeBlock order offset bit).pagesFree = map.pagesFree := rfl

@[simp] theorem writeBlock_nextFreePage :
    (map.writeBlock order offset bit).nextFreePage = map.nextFreePage := rfl

@[simp] theorem writeBlock_freeArea_self :
    (map.writeBlock order offset bit).freeArea order =
      Function.update (map.freeArea order) offset bit := by
  simp [BpaMap.writeBlock]

theorem writeBlock_freeArea_of_ne {other : Nat} (hne : other ≠ order) :
    (map.writeBlock order offset bit).freeArea other = map.freeArea other := by
  simp [BpaMap.writeBlock, hne]

@[simp] theorem blockCheck_eq :
    map.blockCheck order offset = map.freeArea order offset := rfl

@[simp] theorem setPagesFree_pages :
    (map.setPagesFree order value).pages = map.pages := rfl

@[simp] theorem setPagesFree_freeArea :
    (map.setPagesFree order value).freeArea = map.freeArea := rfl

@[simp] theorem setPagesFree_nextFreePage :
    (map.setPagesFree order value).nextFreePage = map.nextFreePage := rfl

@[simp] theorem setPagesFree_pagesFree :
    (map.setPagesFree order value).pagesFree =
      Function.update map.pagesFree order value := rfl

@[simp] theorem setNextFreePage_pages :
    (map.setNextFreePage order value).pages = map.pages := rfl

@[simp] theorem setNextFreePage_freeArea :
    (map.setNextFreePage order value).freeArea = map.freeArea := rfl

@[simp] theorem setNextFreePage_pagesFree :
    (map.setNextFreePage order value).pagesFree = map.pagesFree := rfl

@[simp] theorem setNextFreePage_nextFreePage :
    (map.setNextFreePage order value).nextFreePage =
      Function.update map.nextFreePage order value := rfl

@[simp] theorem slots_setPagesFree_self :
    (map.setPagesFree order value).slots order =
      { map.slots order with count := value } := by
  simp [BpaMap.slots]

@[simp] theorem slots_setNextFreePage_self :
    (map.setNextFreePage order value).slots order =
      { map.slots order with hint := value } := by
  simp [BpaMap.slots]

@[simp] theorem slots_writeBlock_self :
    (map.writeBlock order offset bit).slots order =
      { map.slots order with
        bits := Function.update (map.slots order).bits offset bit } := by
  simp [BpaMap.slots]

variable {order} {other : Nat}

theorem slots_setPagesFree_of_ne (hne : other ≠ order) :
    (map.setPagesFree order value).slots other = map.slots other := by
  simp [BpaMap.slots, hne]

theorem slots_setNextFreePage_of_ne (hne : other ≠ order) :
    (map.setNextFreePage order value).slots other = map.slots other := by
  simp [BpaMap.slots, hne]

theorem slots_writeBlock_of_ne (hne : other ≠ order) :
    (map.writeBlock order offset bit).slots other = map.slots other := by
  simp [BpaMap.slots, writeBlock_freeArea_of_ne _ _ _ _ hne]

end

theorem free_congr {map other : BpaMap} (h : map.freeArea = other.freeArea) :
    map.free = other.free := by
  simp only [BpaMap.free, h]

theorem writeBlock_freeArea (map : BpaMap) (order offset : Nat) (bit : Bool)
    (block : Block) :
    (map.writeBlock order offset bit).freeArea block.order block.index =
      if block = ⟨order, offset⟩ then bit
      else map.freeArea block.order block.index := by
  rcases block with ⟨otherOrder, index⟩
  by_cases horder : otherOrder = order
  · subst horder
    by_cases hindex : index = offset <;> simp [hindex]
  · rw [writeBlock_freeArea_of_ne _ _ _ _ horder, if_neg]
    exact fun h => horder (congrArg Block.order h)

theorem free_blockSet (map : BpaMap) {order offset : Nat} :
    (map.blockSet order offset).free = map.free.remove ⟨order, offset⟩ := by
  ext block
  simp only [BpaMap.mem_free, writeBlock_freeArea,
    Family.mem_remove]
  by_cases h : block = ⟨order, offset⟩ <;> simp [h]

theorem free_blockClear (map : BpaMap) {order offset : Nat}
    (horder : order < maxOrder) :
    (map.blockClear order offset).free = map.free.add ⟨order, offset⟩ := by
  ext block
  simp only [BpaMap.mem_free, writeBlock_freeArea,
    Family.mem_add]
  by_cases h : block = ⟨order, offset⟩
  · simp [h, horder]
  · simp [h]

end Synos.Page

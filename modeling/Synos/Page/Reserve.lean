import Synos.Page.Alloc

namespace Synos.Page

open Synos.Data

/-! Reserving a given block of a region: it is taken where it is free, or split
out of the lowest free block above it. -/

def zfreeHalves (map : BpaMap) (order offset : Nat) : BpaMap :=
  let map := map.blockSet order offset
  let map := map.blockClear (order - 1) (offset * 2)
  let map := map.blockClear (order - 1) (offset * 2 + 1)
  let map :=
    -- the hint of the order above stands for the block that is split, and an
    -- empty order below is not told apart from one whose hint is zero
    if map.nextFreePage order * 2 < map.nextFreePage (order - 1) then
      map.setNextFreePage (order - 1) (map.nextFreePage order * 2)
    else
      map
  map.setPagesFree (order - 1) (wordAdd (map.pagesFree (order - 1)) 2)

def zsplitBlock (map : BpaMap) (order offset : Nat) : BpaMap :=
  let map := zfreeHalves map order offset
  let map :=
    if map.pagesFree order = 1 then
      map.setNextFreePage order 0
    else if offset = map.nextFreePage order then
      searchNextFreePage map order (offset + 1)
    else
      map
  map.setPagesFree order (wordSub (map.pagesFree order) 1)

def zblockSplit (map : BpaMap) (order offset : Nat) : BpaMap :=
  if order = 0 ∨ maxOrder ≤ order then
    map
  else if map.blockCheck order offset = false then
    zsplitBlock map order offset
  else if order = maxOrder - 1 then
    map
  else
    let map := zblockSplit map (order + 1) (offset / 2)
    if map.blockCheck order offset = false then
      zsplitBlock map order offset
    else
      map
termination_by maxOrder - order

def reserveBlock (map : BpaMap) (order offset : Nat) : BpaMap :=
  let map := map.blockSet order offset
  let map := map.setPagesFree order (wordSub (map.pagesFree order) 1)
  if map.nextFreePage order = offset then
    searchNextFreePage map order (offset + 1)
  else
    map

/-- The first loop of `pages_reserve`: the lowest order above `order` at which
the block over `pOffset` is free, or `order` itself. -/
def findSplitOrder (map : BpaMap) (order current pOffset : Nat) : Nat × Nat :=
  if current < maxOrder then
    if map.blockCheck current (pOffset / 2) = false then
      (current, pOffset / 2)
    else
      findSplitOrder map order (current + 1) (pOffset / 2)
  else
    (order, pOffset)
termination_by maxOrder - current

def splitDown (map : BpaMap) (order : Nat) : Nat → Nat → BpaMap
  | 0, _ => map
  | current + 1, pOffset =>
      if order < current + 1 then
        splitDown (zblockSplit map (current + 1) pOffset) order current
          (pOffset * 2)
      else
        map

/-- The bookkeeping at the end of both branches of `pages_reserve`, which is done
whether or not a block has been taken. -/
def Region.afterReserve {Map : Type} (region : Region Map) (order : Nat)
    (map : Map) : Region Map :=
  { region with
    map := map
    pagesFree := wordSub region.pagesFree (2 ^ order)
    memFull := region.memFull || decide (region.pagesFree ≤ 2 ^ order)
    lock := false }

def pagesReserve (region : Region) (order offset : Nat) :
    Except Fault (Nat × Region) :=
  match spinlockLock region with
  | .error fault => .error fault
  | .ok region =>
      let address := word (blockOrderSize order * offset + region.start)
      if region.map.blockCheck order offset = false then
        .ok (address, region.afterReserve order
          (reserveBlock region.map order offset))
      else
        let split := findSplitOrder region.map order (order + 1)
          (offset / 2 * 2)
        let map := splitDown region.map order split.1 split.2
        let map :=
          if map.blockCheck order offset = false then
            reserveBlock map order offset
          else
            map
        .ok (address, region.afterReserve order map)

/-! One split. -/

theorem zblockSplit_of_free {map : BpaMap} {order offset : Nat}
    (hzero : 0 < order) (horder : order < maxOrder)
    (hfree : map.freeArea order offset = false) :
    zblockSplit map order offset = zsplitBlock map order offset := by
  rw [zblockSplit, if_neg (by omega), blockCheck_eq, if_pos hfree]

theorem zfreeHalves_freeArea (map : BpaMap) (order offset : Nat) :
    (zfreeHalves map order offset).freeArea =
      (((map.blockSet order offset).blockClear (order - 1)
          (offset * 2)).blockClear (order - 1) (offset * 2 + 1)).freeArea := by
  unfold zfreeHalves
  simp only [setPagesFree_freeArea]
  split <;> rfl

theorem zfreeHalves_pages (map : BpaMap) (order offset : Nat) :
    (zfreeHalves map order offset).pages = map.pages := by
  unfold zfreeHalves
  simp only [setPagesFree_pages]
  split <;> rfl

theorem zfreeHalves_of_ne (map : BpaMap) {order other : Nat} (offset : Nat)
    (hne : other ≠ order - 1) :
    (zfreeHalves map order offset).pagesFree other = map.pagesFree other ∧
      (zfreeHalves map order offset).nextFreePage other =
        map.nextFreePage other := by
  unfold zfreeHalves
  simp only
  split <;> simp [hne]

theorem zfreeHalves_hint (map : BpaMap) (order offset : Nat) :
    (zfreeHalves map order offset).nextFreePage (order - 1) =
      if map.nextFreePage order * 2 < map.nextFreePage (order - 1) then
        map.nextFreePage order * 2
      else map.nextFreePage (order - 1) := by
  by_cases hlow : map.nextFreePage order * 2 < map.nextFreePage (order - 1)
  · simp [zfreeHalves, hlow]
  · simp [zfreeHalves, hlow]

theorem zsplitBlock_freeArea (map : BpaMap) (order offset : Nat) :
    (zsplitBlock map order offset).freeArea =
      (zfreeHalves map order offset).freeArea := by
  unfold zsplitBlock
  simp only [setPagesFree_freeArea]
  split_ifs <;> simp

theorem zsplitBlock_pages (map : BpaMap) (order offset : Nat) :
    (zsplitBlock map order offset).pages = map.pages := by
  unfold zsplitBlock
  simp only [setPagesFree_pages]
  split_ifs <;> simp [zfreeHalves_pages]

theorem zsplitBlock_free (map : BpaMap) {order offset : Nat}
    (horder : order < maxOrder) :
    (zsplitBlock map order offset).free = map.free.split ⟨order, offset⟩ := by
  rw [free_congr (zsplitBlock_freeArea map order offset),
    free_congr (zfreeHalves_freeArea map order offset),
    free_blockClear _ (by omega), free_blockClear _ (by omega), free_blockSet,
    Nat.mul_comm]
  rfl

theorem zsplitBlock_of_ne (map : BpaMap) {order other : Nat} (offset : Nat)
    (hne : other ≠ order) :
    (zsplitBlock map order offset).pagesFree other =
        (zfreeHalves map order offset).pagesFree other ∧
      (zsplitBlock map order offset).nextFreePage other =
        (zfreeHalves map order offset).nextFreePage other := by
  unfold zsplitBlock
  simp only
  split_ifs <;> simp [searchNextFreePage_of_ne, hne]

theorem zsplitBlock_counts_of_ne (map : BpaMap) {order : Nat} (offset : Nat)
    {other : Nat} (hself : other ≠ order) (hpred : other ≠ order - 1) :
    (zsplitBlock map order offset).pagesFree other = map.pagesFree other ∧
      (zsplitBlock map order offset).nextFreePage other =
        map.nextFreePage other := by
  have hsame := zsplitBlock_of_ne map offset hself
  have hrest := @zfreeHalves_of_ne map order other offset hpred
  exact ⟨hsame.1.trans hrest.1, hsame.2.trans hrest.2⟩

theorem zblockSplit_pages (map : BpaMap) (order offset : Nat) :
    (zblockSplit map order offset).pages = map.pages := by
  fun_induction zblockSplit map order offset with
  | case1 => rfl
  | case2 => exact zsplitBlock_pages _ _ _
  | case3 => rfl
  | case4 _ _ _ _ _ middle _ ih => exact (zsplitBlock_pages _ _ _).trans ih
  | case5 _ _ _ _ _ middle _ ih => exact ih

theorem splitDown_pages (map : BpaMap) (order current pOffset : Nat) :
    (splitDown map order current pOffset).pages = map.pages := by
  induction current generalizing map pOffset with
  | zero => rfl
  | succ current ih =>
      rw [splitDown]
      split
      · rw [ih, zblockSplit_pages]
      · rfl

/-- The rule of the descent: what each split on the left side of the block
keeps is kept on the whole way down. -/
theorem splitDown_rule {block : Block} {order : Nat}
    {state : BpaMap → Nat → Prop}
    (hstep : ∀ opened current, current < block.order →
      state opened (current + 1) →
      state (zblockSplit opened (current + 1)
        (block.leftmost (current + 1)).index) current)
    {map : BpaMap} (hstart : state map block.order)
    (horder : order ≤ block.order) :
    state (splitDown map order block.order block.index) order := by
  have hrun : ∀ depth opened, order + depth ≤ block.order →
      state opened (order + depth) →
      state (splitDown opened order (order + depth)
        (block.leftmost (order + depth)).index) order := by
    intro depth
    induction depth with
    | zero =>
        intro opened _ hopened
        have hsame : splitDown opened order order
            (block.leftmost order).index = opened := by
          cases order with
          | zero => rfl
          | succ order => exact if_neg (Nat.lt_irrefl _)
        rw [Nat.add_zero, hsame]
        exact hopened
    | succ depth ih =>
        intro opened hdepth hopened
        have hlt : order < order + (depth + 1) := by omega
        have hindex : (block.leftmost (order + (depth + 1))).index * 2 =
            (block.leftmost (order + depth)).index := by
          have hleft := @Block.leftmost_left block (order + depth) (by omega)
          rw [Nat.mul_comm]
          exact congrArg Block.index hleft
        have hpeel : splitDown opened order (order + (depth + 1))
            (block.leftmost (order + (depth + 1))).index =
              splitDown (zblockSplit opened (order + (depth + 1))
                (block.leftmost (order + (depth + 1))).index) order
                (order + depth) (block.leftmost (order + depth)).index := by
          rw [← hindex]
          exact if_pos hlt
        rw [hpeel]
        exact ih _ (by omega)
          (hstep opened (order + depth) (by omega) hopened)
  have hdown := hrun (block.order - order) map (by omega)
    (by rwa [Nat.add_sub_cancel' horder])
  rwa [Nat.add_sub_cancel' horder, Block.leftmost_self] at hdown

/-- A split of the block at the hint is the split the allocator makes, unless
the order below is empty and its hint too low. -/
theorem zsplitBlock_eq_splitNextFree {map : BpaMap} {order offset : Nat}
    (hzero : 0 < order) (hoffset : map.nextFreePage order = offset)
    (hempty : map.pagesFree (order - 1) = 0 →
      offset * 2 ≤ map.nextFreePage (order - 1)) :
    zsplitBlock map order offset = splitNextFree map order := by
  have hne : order ≠ order - 1 := by omega
  have hhint := (zfreeHalves_of_ne map offset hne).2
  have hsame : ∀ other : BpaMap, other.nextFreePage = map.nextFreePage →
      (if offset * 2 < map.nextFreePage (order - 1) ∨
          map.pagesFree (order - 1) = 0 then
        other.setNextFreePage (order - 1) (offset * 2) else other) =
      if offset * 2 < map.nextFreePage (order - 1) then
        other.setNextFreePage (order - 1) (offset * 2) else other := by
    intro other hother
    by_cases hlow : offset * 2 < map.nextFreePage (order - 1)
    · rw [if_pos (.inl hlow), if_pos hlow]
    · by_cases hnone : map.pagesFree (order - 1) = 0
      · have heq : offset * 2 = map.nextFreePage (order - 1) :=
          Nat.le_antisymm (hempty hnone) (Nat.le_of_not_lt hlow)
        rw [if_pos (.inr hnone), if_neg hlow, heq]
        ext1 <;> simp [hother]
      · rw [if_neg (by omega), if_neg hlow]
  have hhalves : splitNextFree map order =
      dropNextFreePage (zfreeHalves map order offset) order := by
    unfold splitNextFree zfreeHalves
    simp only [writeBlock_nextFreePage, writeBlock_pagesFree, hoffset]
    rw [hsame (((map.blockSet order offset).blockClear (order - 1)
      (offset * 2)).blockClear (order - 1) (offset * 2 + 1)) rfl]
  rw [hhalves]
  unfold zsplitBlock dropNextFreePage
  simp only [hhint, hoffset, ne_eq, ite_not, if_true]

/-! Taking one block. -/

theorem reserveBlock_of_hint {map : BpaMap} {order offset : Nat}
    (hhint : map.nextFreePage order = offset) :
    reserveBlock map order offset =
      searchNextFreePage ((map.blockSet order offset).setPagesFree order
        (wordSub (map.pagesFree order) 1)) order (offset + 1) :=
  if_pos hhint

theorem reserveBlock_of_ne_hint {map : BpaMap} {order offset : Nat}
    (hhint : map.nextFreePage order ≠ offset) :
    reserveBlock map order offset =
      (map.blockSet order offset).setPagesFree order
        (wordSub (map.pagesFree order) 1) :=
  if_neg hhint

theorem reserveBlock_freeArea (map : BpaMap) (order offset : Nat) :
    (reserveBlock map order offset).freeArea =
      (map.blockSet order offset).freeArea := by
  unfold reserveBlock
  simp only
  split <;> simp

theorem reserveBlock_pages (map : BpaMap) (order offset : Nat) :
    (reserveBlock map order offset).pages = map.pages := by
  unfold reserveBlock
  simp only
  split <;> simp

theorem reserveBlock_of_ne (map : BpaMap) {order other : Nat} (offset : Nat)
    (hne : other ≠ order) :
    (reserveBlock map order offset).pagesFree other = map.pagesFree other ∧
      (reserveBlock map order offset).nextFreePage other =
        map.nextFreePage other := by
  unfold reserveBlock
  simp only
  split <;> simp [searchNextFreePage_of_ne, hne]

theorem reserveBlock_slots_self {map : BpaMap} {order offset : Nat}
    (hsound : (map.slots order).Sound) (hlt : map.pagesFree order < wordSize)
    (hfree : map.freeArea order offset = false) :
    ((reserveBlock map order offset).slots order).Sound := by
  have hclear : (map.slots order).bits offset = false := hfree
  have hpos := hsound.count_pos hclear
  have hdec : wordSub (map.pagesFree order) 1 = (map.slots order).count - 1 :=
    wordSub_of_le hpos hlt
  have hslots : ((map.blockSet order offset).setPagesFree order
      (wordSub (map.pagesFree order) 1)).slots order =
      ⟨Function.update (map.slots order).bits offset true,
        (map.slots order).length, (map.slots order).count - 1,
        map.nextFreePage order⟩ := by
    rw [slots_setPagesFree_self, slots_writeBlock_self, hdec]
    rfl
  by_cases hhint : map.nextFreePage order = offset
  · rw [reserveBlock_of_hint hhint]
    apply searchNextFreePage_sound
    · rw [hslots]
      exact hsound.toCounted.occupy _ hclear
    · intro other hother
      have hbits := congrFun (congrArg FreeSlots.bits hslots) other
      simp only [BpaMap.slots] at hbits
      rw [hbits]
      by_cases heq : other = offset
      · rw [heq, Function.update_self]
      · rw [Function.update_of_ne heq]
        exact hsound.below_hint hpos other
          (show other < map.nextFreePage order by omega)
  · rw [reserveBlock_of_ne_hint hhint, hslots]
    exact hsound.occupy_of_ne_hint hclear hhint

theorem reserveBlock_slots_of_ne (map : BpaMap) {order other : Nat}
    (offset : Nat) (hne : other ≠ order) :
    (reserveBlock map order offset).slots other = map.slots other := by
  have hrest := reserveBlock_of_ne map offset hne
  simp only [BpaMap.slots, reserveBlock_pages, reserveBlock_freeArea,
    writeBlock_freeArea_of_ne _ _ _ _ hne, hrest]

theorem reserveBlock_free (map : BpaMap) (order offset : Nat) :
    (reserveBlock map order offset).free =
      map.free.remove ⟨order, offset⟩ := by
  rw [free_congr (reserveBlock_freeArea _ _ _), free_blockSet]

theorem reserveBlock_wellFormed {map : BpaMap} (hmap : map.WellFormed)
    {block : Block} (hfree : block ∈ map.free) :
    (reserveBlock map block.order block.index).WellFormed := by
  refine ⟨?_, ?_, ?_⟩
  · rw [reserveBlock_pages]
    exact hmap.pages_lt
  · intro other hother
    by_cases hself : other = block.order
    · subst hself
      exact reserveBlock_slots_self (hmap.slots_sound _ hother)
        (hmap.count_lt hother) hfree.2
    · rw [reserveBlock_slots_of_ne map _ hself]
      exact hmap.slots_sound other hother
  · rw [reserveBlock_free]
    exact hmap.apart.remove

/-! Looking for the free block above the requested one. -/

theorem findSplitOrder_of_none {map : BpaMap} {depth current : Nat}
    (order : Nat) {pOffset : Nat} (hdepth : current + depth = maxOrder)
    (hnone : ∀ other, current ≤ other → other < maxOrder →
      map.freeArea other (pOffset / 2 ^ (other + 1 - current)) = true) :
    (findSplitOrder map order current pOffset).1 = order := by
  induction depth generalizing current pOffset with
  | zero => rw [findSplitOrder, if_neg (by omega)]
  | succ depth ih =>
      have hset := hnone current (Nat.le_refl _) (by omega)
      rw [Nat.add_sub_cancel_left, pow_one] at hset
      rw [findSplitOrder, if_pos (by omega), if_neg (by simp [hset])]
      apply ih (by omega)
      intro other hother hlt
      have hstep : other + 1 - current = other + 1 - (current + 1) + 1 := by
        omega
      have h := hnone other (by omega) hlt
      rwa [hstep, pow_succ', ← Nat.div_div_eq_div_mul] at h

theorem findSplitOrder_of_free {map : BpaMap} {depth current top : Nat}
    (order : Nat) {pOffset : Nat} (hdepth : current + depth = top)
    (htop : top < maxOrder)
    (hset : ∀ other, current ≤ other → other < top →
      map.freeArea other (pOffset / 2 ^ (other + 1 - current)) = true)
    (hfree : map.freeArea top (pOffset / 2 ^ (top + 1 - current)) = false) :
    findSplitOrder map order current pOffset =
      (top, pOffset / 2 ^ (top + 1 - current)) := by
  induction depth generalizing current pOffset with
  | zero =>
      have heq : current = top := by omega
      subst heq
      rw [Nat.add_sub_cancel_left, pow_one] at hfree ⊢
      rw [findSplitOrder, if_pos htop, blockCheck_eq, if_pos hfree]
  | succ depth ih =>
      have hskip := hset current (Nat.le_refl _) (by omega)
      rw [Nat.add_sub_cancel_left, pow_one] at hskip
      have hstep : ∀ other, current < other → pOffset / 2 ^
          (other + 1 - current) =
            pOffset / 2 / 2 ^ (other + 1 - (current + 1)) := by
        intro other hother
        have hsucc : other + 1 - current = other + 1 - (current + 1) + 1 := by
          omega
        rw [hsucc, pow_succ', Nat.div_div_eq_div_mul]
      rw [findSplitOrder, if_pos (by omega), if_neg (by simp [hskip]),
        hstep top (by omega)]
      apply ih (by omega)
      · intro other hother hlt
        rw [← hstep other hother]
        exact hset other (by omega) hlt
      · rw [← hstep top (by omega)]
        exact hfree

/-- Rounding an offset down to the lower of its pair does not change the blocks
above it. -/
theorem even_div (offset : Nat) {shift : Nat} (hshift : 0 < shift) :
    offset / 2 * 2 / 2 ^ shift = offset / 2 ^ shift := by
  obtain ⟨rest, rfl⟩ : ∃ rest, shift = rest + 1 := ⟨shift - 1, by omega⟩
  rw [pow_succ', ← Nat.div_div_eq_div_mul, ← Nat.div_div_eq_div_mul,
    Nat.mul_div_cancel _ (by decide)]

section

variable {region : Region} {order offset : Nat}

theorem pagesReserve_of_free (hlock : region.lock = false)
    (hfree : region.map.freeArea order offset = false) :
    ∃ address, pagesReserve region order offset =
      .ok (address, region.afterReserve order
        (reserveBlock region.map order offset)) := by
  refine ⟨word (blockOrderSize order * offset + region.start), ?_⟩
  simp [pagesReserve, spinlockLock, hlock, hfree, Region.afterReserve]

theorem pagesReserve_of_none (hlock : region.lock = false)
    (hnone : ∀ other, order ≤ other → other < maxOrder →
      region.map.freeArea other (offset / 2 ^ (other - order)) = true)
    (horder : order < maxOrder) :
    ∃ address, pagesReserve region order offset =
      .ok (address, region.afterReserve order region.map) := by
  have hself := hnone order (Nat.le_refl _) horder
  rw [Nat.sub_self, pow_zero, Nat.div_one] at hself
  have hsplit := @findSplitOrder_of_none region.map
    (maxOrder - (order + 1)) (order + 1) order (offset / 2 * 2) (by omega) (by
      intro other hother hlt
      have hshift : other + 1 - (order + 1) = other - order := by omega
      rw [hshift, even_div offset (by omega)]
      exact hnone other (by omega) hlt)
  have hdown : ∀ map pOffset, splitDown map order order pOffset = map := by
    intro map pOffset
    cases order with
    | zero => rfl
    | succ order => exact if_neg (Nat.lt_irrefl _)
  refine ⟨word (blockOrderSize order * offset + region.start), ?_⟩
  simp [pagesReserve, spinlockLock, hlock, hself, Region.afterReserve, hsplit,
    hdown]

/-- Where a block above is free, that block is split, and the requested block is
taken if the splits have reached it. -/
theorem pagesReserve_of_above (hlock : region.lock = false) {top : Nat}
    (horder : order < top) (htop : top < maxOrder)
    (hset : ∀ other, order ≤ other → other < top →
      region.map.freeArea other (offset / 2 ^ (other - order)) = true)
    (hfree : region.map.freeArea top (offset / 2 ^ (top - order)) = false)
    {map : BpaMap}
    (hdown : splitDown region.map order top (offset / 2 ^ (top - order)) =
      map) :
    ∃ address, pagesReserve region order offset =
      .ok (address, region.afterReserve order
        (if map.freeArea order offset = false then
          reserveBlock map order offset
        else map)) := by
  have hself := hset order (Nat.le_refl _) horder
  rw [Nat.sub_self, pow_zero, Nat.div_one] at hself
  have hshift : ∀ other, order < other →
      offset / 2 * 2 / 2 ^ (other + 1 - (order + 1)) =
        offset / 2 ^ (other - order) := by
    intro other hother
    rw [Nat.add_sub_add_right]
    exact even_div offset (by omega)
  have hsplit := @findSplitOrder_of_free region.map (top - (order + 1))
    (order + 1) top order (offset / 2 * 2) (by omega) htop (by
      intro other hother hlt
      rw [hshift other hother]
      exact hset other (by omega) hlt) (by
      rw [hshift top horder]
      exact hfree)
  rw [hshift top horder] at hsplit
  refine ⟨word (blockOrderSize order * offset + region.start), ?_⟩
  simp [pagesReserve, spinlockLock, hlock, hself, Region.afterReserve, hsplit,
    hdown]

theorem pagesReserve_of_split (hlock : region.lock = false) {top : Nat}
    (horder : order < top) (htop : top < maxOrder)
    (hset : ∀ other, order ≤ other → other < top →
      region.map.freeArea other (offset / 2 ^ (other - order)) = true)
    (hfree : region.map.freeArea top (offset / 2 ^ (top - order)) = false)
    {map : BpaMap}
    (hdown : splitDown region.map order top (offset / 2 ^ (top - order)) = map)
    (hreached : map.freeArea order offset = false) :
    ∃ address, pagesReserve region order offset =
      .ok (address, region.afterReserve order
        (reserveBlock map order offset)) := by
  obtain ⟨address, hcall⟩ :=
    pagesReserve_of_above hlock horder htop hset hfree hdown
  rw [if_pos hreached] at hcall
  exact ⟨address, hcall⟩

end

end Synos.Page

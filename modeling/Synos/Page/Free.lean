import Synos.Page.Alloc

namespace Synos.Page

open Synos.Data

/-! Freeing a block and merging it with its buddies. -/

def joinBlocks (map : BpaMap) (order offset : Nat) : BpaMap :=
  let map := map.blockSet order offset
  let map := map.blockSet order (offset + 1)
  let map := map.blockClear (order + 1) (offset / 2)
  let map := map.setPagesFree order (wordSub (map.pagesFree order) 2)
  map.setPagesFree (order + 1) (wordAdd (map.pagesFree (order + 1)) 1)

def mergePair (map : BpaMap) (order offset : Nat) : BpaMap :=
  let map := joinBlocks map order offset
  let map :=
    if map.nextFreePage order = offset ∨ map.nextFreePage order = offset + 1 then
      searchNextFreePage map order (offset + 2)
    else
      map
  if offset / 2 < map.nextFreePage (order + 1) ∨
      map.pagesFree (order + 1) = 1 then
    map.setNextFreePage (order + 1) (offset / 2)
  else
    map

def blockMerge (map : BpaMap) (order offset : Nat) : BpaMap :=
  if maxOrder - 1 ≤ order then
    map
  else
    let offset := offset - offset % 2
    let map := mergePair map order offset
    if offset / 2 % 2 = 0 then
      if map.blockCheck (order + 1) (offset / 2 + 1) then map
      else blockMerge map (order + 1) (offset / 2)
    else
      if map.blockCheck (order + 1) (offset / 2 - 1) then map
      else blockMerge map (order + 1) (offset / 2)
termination_by maxOrder - order

def buddyOf (offset : Nat) : Nat :=
  if offset % 2 = 1 then offset - 1 else offset + 1

/-- The bitmap, counter and hint updates of `pages_free` before the merge. -/
def releaseBlock (map : BpaMap) (order offset : Nat) : BpaMap :=
  let map := map.blockClear order offset
  let map := map.setPagesFree order (wordAdd (map.pagesFree order) 1)
  if offset < map.nextFreePage order then map.setNextFreePage order offset
  else map

def returnBlock (map : BpaMap) (order offset : Nat) : BpaMap :=
  let map := releaseBlock map order offset
  if map.blockCheck order (buddyOf offset) then map
  else blockMerge map order offset

/-- `offset` counts pages whatever the order, and both early exits leave the
lock taken. -/
def pagesFree (region : Region) (phaddr order : Nat) : Except Fault Region :=
  match spinlockLock region with
  | .error fault => .error fault
  | .ok region =>
      if phaddr < region.start ∨
          wordAdd region.start region.size ≤ phaddr then
        .ok region
      else
        let offset := (phaddr - region.start) / pageSize
        if region.map.blockCheck order offset then
          let region :=
            if region.pagesFree = 0 then outOfMem region else region
          let region :=
            { region with pagesFree := wordAdd region.pagesFree (2 ^ order) }
          .ok (spinlockUnlock
            { region with map := returnBlock region.map order offset })
        else
          .ok region

def pageFree (region : Region) (phaddr : Nat) : Except Fault Region :=
  pagesFree region phaddr 0

/-! One level of the merge. -/

theorem joinBlocks_slots_of_ne (map : BpaMap) {order other : Nat}
    (offset : Nat) (hne : other ≠ order) (hneSucc : other ≠ order + 1) :
    (joinBlocks map order offset).slots other = map.slots other := by
  simp only [joinBlocks, slots_setPagesFree_of_ne _ _ hneSucc,
    slots_setPagesFree_of_ne _ _ hne, slots_writeBlock_of_ne _ _ _ hneSucc,
    slots_writeBlock_of_ne _ _ _ hne]

theorem joinBlocks_slots_self (map : BpaMap) (order offset : Nat) :
    (joinBlocks map order offset).slots order =
      ⟨Function.update (Function.update (map.freeArea order) offset true)
        (offset + 1) true, freeAreaLength map.pages order,
        wordSub (map.pagesFree order) 2, map.nextFreePage order⟩ := by
  have hne : order ≠ order + 1 := by omega
  simp only [joinBlocks, slots_setPagesFree_of_ne _ _ hne,
    slots_setPagesFree_self, slots_writeBlock_of_ne _ _ _ hne,
    slots_writeBlock_self]
  rfl

theorem joinBlocks_slots_succ (map : BpaMap) (order offset : Nat) :
    (joinBlocks map order offset).slots (order + 1) =
      ⟨Function.update (map.freeArea (order + 1)) (offset / 2) false,
        freeAreaLength map.pages (order + 1),
        wordAdd (map.pagesFree (order + 1)) 1,
        map.nextFreePage (order + 1)⟩ := by
  have hne : order + 1 ≠ order := by omega
  simp only [joinBlocks, slots_setPagesFree_self,
    slots_setPagesFree_of_ne _ _ hne, slots_writeBlock_self,
    slots_writeBlock_of_ne _ _ _ hne]
  simp [BpaMap.slots]

theorem joinBlocks_free (map : BpaMap) {order offset : Nat}
    (horder : order + 1 < maxOrder) (heven : offset % 2 = 0) :
    (joinBlocks map order offset).free =
      map.free.join ⟨order + 1, offset / 2⟩ := by
  have hhalf : 2 * (offset / 2) = offset := by omega
  have hbits : (joinBlocks map order offset).freeArea =
      (((map.blockSet order offset).blockSet order (offset + 1)).blockClear
        (order + 1) (offset / 2)).freeArea := by
    simp only [joinBlocks, setPagesFree_freeArea]
  rw [free_congr hbits, free_blockClear _ horder, free_blockSet, free_blockSet]
  simp only [Family.join, Block.left, Block.right, hhalf, Nat.add_sub_cancel]

theorem mergePair_freeArea (map : BpaMap) (order offset : Nat) :
    (mergePair map order offset).freeArea =
      (joinBlocks map order offset).freeArea := by
  unfold mergePair
  simp only
  split <;> split <;> simp

theorem mergePair_pages (map : BpaMap) (order offset : Nat) :
    (mergePair map order offset).pages = map.pages := by
  unfold mergePair
  simp only
  split <;> split <;> simp [joinBlocks]

theorem mergePair_free (map : BpaMap) {order offset : Nat}
    (horder : order + 1 < maxOrder) (heven : offset % 2 = 0) :
    (mergePair map order offset).free =
      map.free.join ⟨order + 1, offset / 2⟩ := by
  rw [free_congr (mergePair_freeArea map order offset),
    joinBlocks_free map horder heven]

theorem mergePair_slots_of_ne (map : BpaMap) {order other : Nat} (offset : Nat)
    (hne : other ≠ order) (hneSucc : other ≠ order + 1) :
    (mergePair map order offset).slots other = map.slots other := by
  rw [← joinBlocks_slots_of_ne map offset hne hneSucc]
  unfold mergePair
  simp only
  split <;> split <;>
    simp only [slots_setNextFreePage_of_ne _ _ hneSucc,
      slots_searchNextFreePage_of_ne _ _ hne]

theorem mergePair_slots_succ (map : BpaMap) (order offset : Nat) :
    (mergePair map order offset).slots (order + 1) =
      ⟨Function.update (map.freeArea (order + 1)) (offset / 2) false,
        freeAreaLength map.pages (order + 1),
        wordAdd (map.pagesFree (order + 1)) 1,
        if offset / 2 < map.nextFreePage (order + 1) ∨
            wordAdd (map.pagesFree (order + 1)) 1 = 1 then
          offset / 2
        else map.nextFreePage (order + 1)⟩ := by
  have hne : order + 1 ≠ order := by omega
  have hhint : ∀ other : BpaMap,
      other.slots (order + 1) =
        (joinBlocks map order offset).slots (order + 1) →
      (if offset / 2 < other.nextFreePage (order + 1) ∨
          other.pagesFree (order + 1) = 1 then
        other.setNextFreePage (order + 1) (offset / 2)
      else other).slots (order + 1) =
        ⟨Function.update (map.freeArea (order + 1)) (offset / 2) false,
          freeAreaLength map.pages (order + 1),
          wordAdd (map.pagesFree (order + 1)) 1,
          if offset / 2 < map.nextFreePage (order + 1) ∨
              wordAdd (map.pagesFree (order + 1)) 1 = 1 then
            offset / 2
          else map.nextFreePage (order + 1)⟩ := by
    intro other hother
    rw [joinBlocks_slots_succ] at hother
    have hcount : other.pagesFree (order + 1) =
        wordAdd (map.pagesFree (order + 1)) 1 :=
      congrArg FreeSlots.count hother
    have hnext : other.nextFreePage (order + 1) =
        map.nextFreePage (order + 1) :=
      congrArg FreeSlots.hint hother
    rw [hcount, hnext]
    split
    · rw [slots_setNextFreePage_self, hother]
    · exact hother
  unfold mergePair
  simp only
  split
  · exact hhint _ (slots_searchNextFreePage_of_ne _ _ hne)
  · exact hhint _ rfl

theorem mergePair_slots_self_sound {map : BpaMap} {order offset : Nat}
    (hsound : (map.slots order).Sound)
    (hlt : map.pagesFree order < wordSize)
    (hlow : map.freeArea order offset = false)
    (hhigh : map.freeArea order (offset + 1) = false) :
    ((mergePair map order offset).slots order).Sound := by
  have hne : order ≠ order + 1 := by omega
  have htwo : 2 ≤ map.pagesFree order :=
    hsound.toCounted.two_le_count hlow hhigh
  have hjoin := joinBlocks_slots_self map order offset
  rw [wordSub_of_le htwo hlt] at hjoin
  have hhint : (joinBlocks map order offset).nextFreePage order =
      map.nextFreePage order :=
    congrArg FreeSlots.hint hjoin
  have hdrop : ∀ other : BpaMap, (other.slots order).Sound →
      ((if offset / 2 < other.nextFreePage (order + 1) ∨
          other.pagesFree (order + 1) = 1 then
        other.setNextFreePage (order + 1) (offset / 2)
      else other).slots order).Sound := by
    intro other hother
    split
    · rw [slots_setNextFreePage_of_ne _ _ hne]
      exact hother
    · exact hother
  unfold mergePair
  apply hdrop
  rw [hhint]
  split
  · next hpair =>
      have hbits : (joinBlocks map order offset).freeArea order =
          Function.update (Function.update (map.freeArea order) offset true)
            (offset + 1) true :=
        congrArg FreeSlots.bits hjoin
      apply searchNextFreePage_sound
      · rw [hjoin]
        exact hsound.toCounted.occupy_pair _ hlow hhigh
      · rw [hbits]
        exact hsound.set_below_pair hpair
  · next hpair =>
      rw [hjoin]
      exact hsound.occupy_pair hlow hhigh hpair

theorem BpaMap.left_mem_free {map : BpaMap} {order offset : Nat}
    (horder : order < maxOrder) (heven : offset % 2 = 0)
    (hlow : map.freeArea order offset = false) :
    (⟨order + 1, offset / 2⟩ : Block).left ∈ map.free := by
  have hhalf : 2 * (offset / 2) = offset := by omega
  refine ⟨horder, ?_⟩
  simpa [Block.left, hhalf] using hlow

theorem BpaMap.right_mem_free {map : BpaMap} {order offset : Nat}
    (horder : order < maxOrder) (heven : offset % 2 = 0)
    (hhigh : map.freeArea order (offset + 1) = false) :
    (⟨order + 1, offset / 2⟩ : Block).right ∈ map.free := by
  have hhalf : 2 * (offset / 2) = offset := by omega
  refine ⟨horder, ?_⟩
  simpa [Block.right, hhalf] using hhigh

theorem mergePair_wellFormed {map : BpaMap} (hmap : map.WellFormed)
    {order offset : Nat} (horder : order + 1 < maxOrder)
    (heven : offset % 2 = 0) (hlow : map.freeArea order offset = false)
    (hhigh : map.freeArea order (offset + 1) = false) :
    (mergePair map order offset).WellFormed := by
  have hhalf : 2 * (offset / 2) = offset := by omega
  have hleft := BpaMap.left_mem_free (Nat.lt_of_succ_lt horder) heven hlow
  have hright := BpaMap.right_mem_free (Nat.lt_of_succ_lt horder) heven hhigh
  have hparent : map.freeArea (order + 1) (offset / 2) = true := by
    by_contra hclear
    exact hmap.apart.notMem_of_half (Nat.succ_pos _) hleft
      ⟨horder, by simpa using hclear⟩
  have hlength : offset / 2 < freeAreaLength map.pages (order + 1) := by
    have := hmap.index_lt hright
    simp only [Block.right, Nat.add_sub_cancel, hhalf] at this
    rw [freeAreaLength_eq, pow_succ, ← Nat.div_div_eq_div_mul]
    omega
  refine ⟨?_, ?_, ?_⟩
  · rw [mergePair_pages]
    exact hmap.pages_lt
  · intro other hother
    by_cases hself : other = order
    · subst hself
      exact mergePair_slots_self_sound (hmap.slots_sound other hother)
        (hmap.count_lt hother) hlow hhigh
    · by_cases hsucc : other = order + 1
      · subst hsucc
        have hsound := hmap.slots_sound (order + 1) hother
        have hbound : map.pagesFree (order + 1) + 1 < wordSize :=
          Nat.lt_of_le_of_lt
            (hsound.toCounted.release 0 hparent hlength).count_le
            (hmap.length_lt (order + 1))
        rw [mergePair_slots_succ, wordAdd_of_lt hbound]
        apply hsound.release hparent hlength
        · split <;> omega
        · split
          · exact .inl rfl
          · exact .inr ⟨by simp only [BpaMap.slots]; omega, rfl⟩
        · intro hpos
          simp only [BpaMap.slots] at hpos ⊢
          split <;> omega
      · rw [mergePair_slots_of_ne map offset hself hsucc]
        exact hmap.slots_sound other hother
  · rw [mergePair_free map horder heven]
    exact hmap.apart.join hleft hright (Nat.succ_pos _)

/-! The whole merge: it climbs as long as the buddy of the block just made is
free, and covers the same pages all the way. -/

/-- Both blocks of the pair that `offset` belongs to are free. -/
structure BpaMap.PairFree (map : BpaMap) (order offset : Nat) : Prop where
  low : map.freeArea order (offset - offset % 2) = false
  high : map.freeArea order (offset - offset % 2 + 1) = false

theorem BpaMap.pairFree_of_buddy {map : BpaMap} {order offset : Nat}
    (hself : map.freeArea order offset = false)
    (hbuddy : map.freeArea order (buddyOf offset) = false) :
    map.PairFree order offset := by
  unfold buddyOf at hbuddy
  split at hbuddy
  · rename_i hodd
    refine ⟨by rwa [hodd], ?_⟩
    rw [hodd, Nat.sub_add_cancel (by omega)]
    exact hself
  · rename_i heven
    have hzero : offset % 2 = 0 := by omega
    exact ⟨by rwa [hzero], by rwa [hzero]⟩

theorem mergePair_parent_free (map : BpaMap) (order offset : Nat) :
    (mergePair map order offset).freeArea (order + 1) (offset / 2) =
      false := by
  have h := congrArg FreeSlots.bits (mergePair_slots_succ map order offset)
  simp only [BpaMap.slots] at h
  rw [h, Function.update_self]

theorem blockMerge_top (map : BpaMap) {order : Nat} (offset : Nat)
    (horder : ¬ order + 1 < maxOrder) : blockMerge map order offset = map := by
  rw [blockMerge, if_pos (by omega)]

/-- The merge goes on from the block it has made as long as the buddy of that is
free. -/
theorem blockMerge_step (map : BpaMap) {order : Nat} (offset : Nat)
    (horder : order + 1 < maxOrder) :
    blockMerge map order offset =
      if (mergePair map order (offset - offset % 2)).blockCheck (order + 1)
          (buddyOf (offset / 2)) then
        mergePair map order (offset - offset % 2)
      else
        blockMerge (mergePair map order (offset - offset % 2)) (order + 1)
          (offset / 2) := by
  have hhalf : (offset - offset % 2) / 2 = offset / 2 := by omega
  rw [blockMerge, if_neg (by omega)]
  simp only [hhalf]
  by_cases hparity : offset / 2 % 2 = 0
  · have hbuddy : buddyOf (offset / 2) = offset / 2 + 1 := if_neg (by omega)
    rw [if_pos hparity, hbuddy]
  · have hbuddy : buddyOf (offset / 2) = offset / 2 - 1 := if_pos (by omega)
    rw [if_neg hparity, hbuddy]

/-- What one level does to the map decides what the whole merge does. -/
theorem blockMerge_induction {Good : BpaMap → Prop}
    (hstep : ∀ map order offset, order + 1 < maxOrder → offset % 2 = 0 →
      map.freeArea order offset = false →
      map.freeArea order (offset + 1) = false →
      Good map → Good (mergePair map order offset))
    {map : BpaMap} {depth order offset : Nat}
    (hdepth : order + depth = maxOrder - 1)
    (hpair : map.PairFree order offset) (hgood : Good map) :
    Good (blockMerge map order offset) := by
  induction depth generalizing map order offset with
  | zero =>
      rw [blockMerge_top map offset (by omega)]
      exact hgood
  | succ depth ih =>
      have heven : (offset - offset % 2) % 2 = 0 := by omega
      have hhalf : (offset - offset % 2) / 2 = offset / 2 := by omega
      have hnext := hstep map order _ (by omega) heven hpair.low hpair.high
        hgood
      have hparent := mergePair_parent_free map order (offset - offset % 2)
      rw [hhalf] at hparent
      rw [blockMerge_step map offset (by omega)]
      split
      · exact hnext
      · next hbuddy =>
          have hfree := Bool.eq_false_iff.mpr hbuddy
          exact ih (by omega) (BpaMap.pairFree_of_buddy hparent hfree) hnext

theorem blockMerge_covers {map : BpaMap} {order offset : Nat}
    (horder : order < maxOrder) (hpair : map.PairFree order offset)
    (point : Nat) :
    (blockMerge map order offset).free.Covers point ↔
      map.free.Covers point := by
  apply @blockMerge_induction
    (fun other => other.free.Covers point ↔ map.free.Covers point) _ map
    (maxOrder - 1 - order) order offset (by omega) hpair Iff.rfl
  intro other order offset horder heven hlow hhigh hother
  rw [mergePair_free other horder heven, Family.covers_join, hother]
  · exact BpaMap.left_mem_free (Nat.lt_of_succ_lt horder) heven hlow
  · exact BpaMap.right_mem_free (Nat.lt_of_succ_lt horder) heven hhigh
  · exact Nat.succ_pos _

theorem blockMerge_pages {map : BpaMap} {order offset : Nat}
    (horder : order < maxOrder) (hpair : map.PairFree order offset) :
    (blockMerge map order offset).pages = map.pages := by
  apply @blockMerge_induction (fun other => other.pages = map.pages) _ map
    (maxOrder - 1 - order) order offset (by omega) hpair rfl
  intro other order offset _ _ _ _ hother
  rw [mergePair_pages, hother]

theorem blockMerge_wellFormed {map : BpaMap} (hmap : map.WellFormed)
    {order offset : Nat} (horder : order < maxOrder)
    (hpair : map.PairFree order offset) :
    (blockMerge map order offset).WellFormed := by
  apply @blockMerge_induction BpaMap.WellFormed _ map
    (maxOrder - 1 - order) order offset (by omega) hpair hmap
  intro other order offset horder heven hlow hhigh hother
  exact mergePair_wellFormed hother horder heven hlow hhigh

/-! Releasing one block. -/

section

variable (map : BpaMap) (order offset : Nat)

theorem releaseBlock_freeArea :
    (releaseBlock map order offset).freeArea =
      (map.blockClear order offset).freeArea := by
  unfold releaseBlock
  simp only
  split <;> simp

theorem releaseBlock_pages :
    (releaseBlock map order offset).pages = map.pages := by
  unfold releaseBlock
  simp only
  split <;> simp

theorem releaseBlock_slots_self :
    (releaseBlock map order offset).slots order =
      ⟨Function.update (map.freeArea order) offset false,
        freeAreaLength map.pages order, wordAdd (map.pagesFree order) 1,
        if offset < map.nextFreePage order then offset
        else map.nextFreePage order⟩ := by
  unfold releaseBlock
  simp only [setPagesFree_nextFreePage, writeBlock_nextFreePage]
  by_cases hlower : offset < map.nextFreePage order
  · simp [hlower, BpaMap.slots]
  · simp [hlower, BpaMap.slots]

end

section

variable {map : BpaMap} {order offset : Nat}

theorem releaseBlock_slots_of_ne {other : Nat} (hne : other ≠ order) :
    (releaseBlock map order offset).slots other = map.slots other := by
  unfold releaseBlock
  simp only
  split <;>
    simp [slots_setNextFreePage_of_ne _ _ hne, slots_setPagesFree_of_ne _ _ hne,
      slots_writeBlock_of_ne _ _ _ hne]

theorem releaseBlock_free (horder : order < maxOrder) :
    (releaseBlock map order offset).free = map.free.add ⟨order, offset⟩ := by
  rw [free_congr (releaseBlock_freeArea map order offset),
    free_blockClear map horder]

/-- A block of the region that shares no page with the free ones. -/
structure BpaMap.Held (map : BpaMap) (block : Block) : Prop where
  order_lt : block.order < maxOrder
  inside : (block.index + 1) * 2 ^ block.order ≤ map.pages
  not_free : ∀ point ∈ block, ¬ map.free.Covers point

theorem BpaMap.Held.set {block : Block} (hheld : map.Held block) :
    map.freeArea block.order block.index = true := by
  by_contra hclear
  exact hheld.not_free block.first block.first_mem
    ⟨block, ⟨hheld.order_lt, by simpa using hclear⟩, block.first_mem⟩

theorem BpaMap.Held.index_lt {block : Block} (hheld : map.Held block) :
    block.index < freeAreaLength map.pages block.order := by
  rw [freeAreaLength_eq]
  exact (Nat.le_div_iff_mul_le (Nat.two_pow_pos _)).mpr hheld.inside

theorem BpaMap.Held.keep {next : BpaMap} {block : Block}
    (hheld : map.Held block) (hpages : next.pages = map.pages)
    (hcovers : ∀ point ∈ block, next.free.Covers point →
      map.free.Covers point) : next.Held block where
  order_lt := hheld.order_lt
  inside := by
    rw [hpages]
    exact hheld.inside
  not_free point hpoint hnow :=
    hheld.not_free point hpoint (hcovers point hpoint hnow)

theorem BpaMap.Held.apart_of_free {block other : Block}
    (hheld : map.Held block) (hfree : ∀ point ∈ other, map.free.Covers point) :
    other.Apart block :=
  fun point hpoint hmem => hheld.not_free point hmem (hfree point hpoint)

theorem BpaMap.Held.returned {next : BpaMap} {block other : Block}
    (hheld : map.Held block) (hpages : next.pages = map.pages)
    (hcovers : ∀ point, next.free.Covers point ↔
      map.free.Covers point ∨ point ∈ other)
    (hapart : block.Apart other) : next.Held block := by
  refine hheld.keep hpages ?_
  intro point hpoint hnow
  rcases (hcovers point).mp hnow with hfree | hmem
  · exact hfree
  · exact absurd hmem (hapart point hpoint)

theorem WellFormed.count_succ_lt (hmap : map.WellFormed) {block : Block}
    (hheld : map.Held block) : map.pagesFree block.order + 1 < wordSize := by
  have hcounted := (hmap.slots_sound block.order hheld.order_lt).toCounted
  exact Nat.lt_of_le_of_lt
    (hcounted.release 0 hheld.set hheld.index_lt).count_le
    (hmap.length_lt block.order)

theorem releaseBlock_counted (hmap : map.WellFormed)
    (hheld : map.Held ⟨order, offset⟩) {other : Nat}
    (hother : other < maxOrder) :
    ((releaseBlock map order offset).slots other).Counted := by
  by_cases hself : other = order
  · subst hself
    rw [releaseBlock_slots_self,
      wordAdd_of_lt (WellFormed.count_succ_lt hmap hheld)]
    exact (hmap.slots_sound other hother).toCounted.release _ hheld.set
      hheld.index_lt
  · rw [releaseBlock_slots_of_ne hself]
    exact (hmap.slots_sound other hother).toCounted

theorem releaseBlock_apart (hmap : map.WellFormed)
    (hheld : map.Held ⟨order, offset⟩) :
    (releaseBlock map order offset).free.Apart := by
  rw [releaseBlock_free hheld.order_lt]
  exact hmap.apart.add hheld.not_free

/-- The hint survives unless the order was empty and its hint was left pointing
below the block. -/
theorem releaseBlock_wellFormed (hmap : map.WellFormed)
    (hheld : map.Held ⟨order, offset⟩)
    (hhint : 0 < map.pagesFree order ∨ offset ≤ map.nextFreePage order) :
    (releaseBlock map order offset).WellFormed := by
  refine ⟨?_, ?_, releaseBlock_apart hmap hheld⟩
  · rw [releaseBlock_pages]
    exact hmap.pages_lt
  · intro other hother
    by_cases hself : other = order
    · subst hself
      rw [releaseBlock_slots_self,
        wordAdd_of_lt (WellFormed.count_succ_lt hmap hheld)]
      apply (hmap.slots_sound other hother).release hheld.set hheld.index_lt
      · show (if offset < map.nextFreePage other then offset
          else map.nextFreePage other) ≤ offset
        split <;> omega
      · split
        · exact .inl rfl
        · cases hhint with
          | inl hpos => exact .inr ⟨hpos, rfl⟩
          | inr hle => exact .inl (by simp only; omega)
      · intro hpos
        simp only [BpaMap.slots]
        split <;> omega
    · rw [releaseBlock_slots_of_ne hself]
      exact hmap.slots_sound other hother

/-! Releasing and merging. -/

theorem releaseBlock_pairFree
    (hbuddy : (releaseBlock map order offset).freeArea order
      (buddyOf offset) = false) :
    (releaseBlock map order offset).PairFree order offset := by
  apply BpaMap.pairFree_of_buddy _ hbuddy
  rw [releaseBlock_freeArea]
  simp

theorem returnBlock_cases (map : BpaMap) (order offset : Nat) :
    returnBlock map order offset = releaseBlock map order offset ∨
      (releaseBlock map order offset).PairFree order offset ∧
        returnBlock map order offset =
          blockMerge (releaseBlock map order offset) order offset := by
  cases hbuddy : (releaseBlock map order offset).blockCheck order
      (buddyOf offset) with
  | true =>
      left
      simp only [returnBlock, hbuddy, if_true]
  | false =>
      right
      refine ⟨releaseBlock_pairFree hbuddy, ?_⟩
      simp only [returnBlock, hbuddy, Bool.false_eq_true, if_false]

/-- Whatever the rest of the map says, the released block is what becomes
free. -/
theorem returnBlock_covers (map : BpaMap) {order offset : Nat}
    (horder : order < maxOrder) (point : Nat) :
    (returnBlock map order offset).free.Covers point ↔
      map.free.Covers point ∨ point ∈ (⟨order, offset⟩ : Block) := by
  have hrelease : (releaseBlock map order offset).free.Covers point ↔
      map.free.Covers point ∨ point ∈ (⟨order, offset⟩ : Block) := by
    rw [releaseBlock_free horder, Family.covers_add, or_comm]
  cases returnBlock_cases map order offset with
  | inl heq =>
      rw [heq]
      exact hrelease
  | inr hmerge =>
      rw [hmerge.2, ← hrelease]
      exact blockMerge_covers horder hmerge.1 point

theorem returnBlock_pages (map : BpaMap) {order offset : Nat}
    (horder : order < maxOrder) :
    (returnBlock map order offset).pages = map.pages := by
  rw [← releaseBlock_pages map order offset]
  cases returnBlock_cases map order offset with
  | inl heq => rw [heq]
  | inr hmerge =>
      rw [hmerge.2]
      exact blockMerge_pages horder hmerge.1

theorem returnBlock_wellFormed (hmap : map.WellFormed)
    (hheld : map.Held ⟨order, offset⟩)
    (hhint : 0 < map.pagesFree order ∨ offset ≤ map.nextFreePage order) :
    (returnBlock map order offset).WellFormed := by
  have hrelease := releaseBlock_wellFormed hmap hheld hhint
  cases returnBlock_cases map order offset with
  | inl heq =>
      rw [heq]
      exact hrelease
  | inr hmerge =>
      rw [hmerge.2]
      exact blockMerge_wellFormed hrelease hheld.order_lt hmerge.1

/-- An order without a free block has no free buddy, so a hint left stale there
does not reach the merge. -/
theorem returnBlock_of_empty (hmap : map.WellFormed)
    (hheld : map.Held ⟨order, offset⟩) (hempty : map.pagesFree order = 0) :
    returnBlock map order offset = releaseBlock map order offset := by
  have hbuddy : (releaseBlock map order offset).blockCheck order
      (buddyOf offset) = true := by
    have hne : buddyOf offset ≠ offset := by
      unfold buddyOf
      split <;> omega
    rw [blockCheck_eq, releaseBlock_freeArea, writeBlock_freeArea_self,
      Function.update_of_ne hne]
    exact (hmap.slots_sound order hheld.order_lt).toCounted.all_set hempty _
  simp only [returnBlock, hbuddy, if_true]

theorem returnBlock_counted (hmap : map.WellFormed)
    (hheld : map.Held ⟨order, offset⟩) :
    (returnBlock map order offset).free.Apart ∧
      ∀ other < maxOrder,
        ((returnBlock map order offset).slots other).Counted := by
  cases Nat.eq_zero_or_pos (map.pagesFree order) with
  | inl hempty =>
      rw [returnBlock_of_empty hmap hheld hempty]
      exact ⟨releaseBlock_apart hmap hheld,
        fun _ hother => releaseBlock_counted hmap hheld hother⟩
  | inr hpos =>
      have hreturn := returnBlock_wellFormed hmap hheld (.inl hpos)
      exact ⟨hreturn.apart,
        fun other hother => (hreturn.slots_sound other hother).toCounted⟩

end

/-! The call. -/

def Region.offsetOf {Map : Type} (region : Region Map) (phaddr : Nat) : Nat :=
  (phaddr - region.start) / pageSize

def Region.Contains {Map : Type} (region : Region Map) (phaddr : Nat) : Prop :=
  region.start ≤ phaddr ∧ phaddr < wordAdd region.start region.size

instance {Map : Type} (region : Region Map) (phaddr : Nat) :
    Decidable (region.Contains phaddr) :=
  inferInstanceAs (Decidable (_ ∧ _))

def Region.Addressable (region : Region) : Prop :=
  region.start + region.map.pages * pageSize ≤ wordSize

section

variable {block : Block}

theorem Region.last_le (region : Region)
    (hinside : (block.index + 1) * 2 ^ block.order ≤ region.map.pages) :
    region.start + pageSize * (block.first + 2 ^ block.order) ≤
      region.start + region.map.pages * pageSize := by
  have hle : pageSize * ((block.index + 1) * 2 ^ block.order) ≤
      pageSize * region.map.pages := Nat.mul_le_mul_left _ hinside
  rw [Nat.add_mul, Nat.one_mul, Nat.mul_comm _ region.map.pages] at hle
  exact Nat.add_le_add_left hle _

theorem Region.Addressable.address_eq {region : Region}
    (hspace : region.Addressable)
    (hinside : (block.index + 1) * 2 ^ block.order ≤ region.map.pages) :
    region.address block = region.start + pageSize * block.first := by
  have hlast := region.last_le hinside
  have hsame : blockOrderSize block.order * block.index =
      pageSize * block.first := by
    simp only [blockOrderSize, Block.first, Nat.mul_assoc]
    rw [Nat.mul_comm (2 ^ block.order)]
  have hpage : 0 < pageSize * 2 ^ block.order :=
    Nat.mul_pos (by decide) (Nat.two_pow_pos block.order)
  unfold Region.Addressable at hspace
  rw [Nat.mul_add] at hlast
  rw [Region.address, hsame, word_of_lt (by omega), Nat.add_comm]

theorem Region.Addressable.offsetOf_address {region : Region}
    (hspace : region.Addressable)
    (hinside : (block.index + 1) * 2 ^ block.order ≤ region.map.pages) :
    region.offsetOf (region.address block) = block.first := by
  rw [Region.offsetOf, hspace.address_eq hinside, Nat.add_sub_cancel_left,
    Nat.mul_div_cancel_left _ (by decide)]

end

def Region.afterFree {Map : Type} (region : Region Map) (order : Nat)
    (map : Map) : Region Map :=
  { region with
    map := map
    pagesFree := wordAdd region.pagesFree (2 ^ order)
    memFull := region.memFull || decide (region.pagesFree = 0)
    lock := false }

section

variable {region : Region} {phaddr order : Nat}

theorem pagesFree_of_set (hlock : region.lock = false)
    (hin : region.Contains phaddr)
    (hset : region.map.freeArea order (region.offsetOf phaddr) = true) :
    pagesFree region phaddr order =
      .ok (region.afterFree order
        (returnBlock region.map order (region.offsetOf phaddr))) := by
  obtain ⟨hge, hlt⟩ := hin
  have hrange : ¬ (phaddr < region.start ∨
      wordAdd region.start region.size ≤ phaddr) := by omega
  unfold Region.offsetOf at hset ⊢
  simp only [pagesFree, spinlockLock, hlock, Bool.false_eq_true, if_false,
    hrange, blockCheck_eq, hset, if_true]
  by_cases hzero : region.pagesFree = 0
  · simp [hzero, outOfMem, spinlockUnlock, Region.afterFree]
  · simp [hzero, spinlockUnlock, Region.afterFree]

theorem pagesFree_of_not_set (hlock : region.lock = false)
    (h : ¬ (region.Contains phaddr ∧
      region.map.freeArea order (region.offsetOf phaddr) = true)) :
    pagesFree region phaddr order = .ok { region with lock := true } := by
  simp only [pagesFree, spinlockLock, hlock, Bool.false_eq_true, if_false]
  split
  · rfl
  · rename_i hrange
    have hin : region.Contains phaddr := by
      unfold Region.Contains
      omega
    rw [if_neg]
    intro hset
    exact h ⟨hin, hset⟩

end

end Synos.Page

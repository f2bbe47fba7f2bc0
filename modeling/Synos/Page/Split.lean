import Synos.Page.Region

namespace Synos.Page

open Synos.Data

/-! Splitting a free block, and climbing to the nearest order that has one. -/

def splitNextFree (map : BpaMap) (order : Nat) : BpaMap :=
  let offset := map.nextFreePage order
  let map := map.blockSet order offset
  let map := map.blockClear (order - 1) (offset * 2)
  let map := map.blockClear (order - 1) (offset * 2 + 1)
  let map :=
    if offset * 2 < map.nextFreePage (order - 1) ∨
        map.pagesFree (order - 1) = 0 then
      map.setNextFreePage (order - 1) (offset * 2)
    else
      map
  let map := map.setPagesFree (order - 1) (wordAdd (map.pagesFree (order - 1)) 2)
  dropNextFreePage map order

def blockSplit (region : Region) (order : Nat) : Region :=
  if order = 0 ∨ maxOrder ≤ order then
    region
  else if 0 < region.map.pagesFree order then
    { region with map := splitNextFree region.map order }
  else if order = maxOrder - 1 then
    outOfMem region
  else
    let region := blockSplit region (order + 1)
    if region.map.pagesFree order = 0 then
      outOfMem region
    else
      -- `goto ord_check`, whose test now succeeds
      { region with map := splitNextFree region.map order }
termination_by maxOrder - order

/-! Taking the block at the hint. -/

theorem searchNextFreePage_of_some {map : BpaMap} {order start offset : Nat}
    (h : firstClear? (map.freeArea order) start
      (freeAreaLength map.pages order) = some offset) :
    searchNextFreePage map order start = map.setNextFreePage order offset := by
  unfold searchNextFreePage findNextFreePage BpaMap.blockCheck
  rw [h]

theorem searchNextFreePage_of_none {map : BpaMap} {order start : Nat}
    (h : firstClear? (map.freeArea order) start
      (freeAreaLength map.pages order) = none) :
    searchNextFreePage map order start =
      (map.setPagesFree order 0).setNextFreePage order 0 := by
  unfold searchNextFreePage findNextFreePage BpaMap.blockCheck
  rw [h]

@[simp] theorem searchNextFreePage_freeArea (map : BpaMap) (order start : Nat) :
    (searchNextFreePage map order start).freeArea = map.freeArea := by
  unfold searchNextFreePage findNextFreePage
  cases firstClear? (map.blockCheck order) start
    (freeAreaLength map.pages order) <;> rfl

@[simp] theorem searchNextFreePage_pages (map : BpaMap) (order start : Nat) :
    (searchNextFreePage map order start).pages = map.pages := by
  unfold searchNextFreePage findNextFreePage
  cases firstClear? (map.blockCheck order) start
    (freeAreaLength map.pages order) <;> rfl

theorem searchNextFreePage_of_ne (map : BpaMap) {order other : Nat}
    (start : Nat) (hne : other ≠ order) :
    (searchNextFreePage map order start).pagesFree other =
        map.pagesFree other ∧
      (searchNextFreePage map order start).nextFreePage other =
        map.nextFreePage other := by
  unfold searchNextFreePage findNextFreePage
  cases firstClear? (map.blockCheck order) start
    (freeAreaLength map.pages order) <;> simp [hne]

theorem slots_searchNextFreePage_of_ne (map : BpaMap) {order other : Nat}
    (start : Nat) (hne : other ≠ order) :
    (searchNextFreePage map order start).slots other = map.slots other := by
  simp [BpaMap.slots, searchNextFreePage_of_ne map start hne]

theorem searchNextFreePage_sound {map : BpaMap} {order start : Nat}
    (hcounted : (map.slots order).Counted)
    (hbelow : ∀ offset < start, map.freeArea order offset = true) :
    ((searchNextFreePage map order start).slots order).Sound := by
  cases hsearch : firstClear? (map.freeArea order) start
      (freeAreaLength map.pages order) with
  | none =>
      have hall : ∀ offset, map.freeArea order offset = true := by
        intro offset
        by_contra hset
        have hclear : (map.slots order).bits offset = false := by
          simpa [BpaMap.slots] using hset
        by_cases hlt : offset < start
        · exact hset (hbelow offset hlt)
        · exact hset (firstClear?_eq_none hsearch offset (by omega)
            (hcounted.lt_length hclear))
      have hzero : (map.slots order).count = 0 := by
        rw [hcounted.count_eq, clearCount_eq_zero]
        exact fun offset _ => hall offset
      rw [searchNextFreePage_of_none hsearch, slots_setNextFreePage_self,
        slots_setPagesFree_self]
      refine FreeSlots.Counted.sound ⟨?_, hcounted.padding⟩ ?_
      · exact hzero ▸ hcounted.count_eq
      · intro offset hclear
        have := hall offset
        simp only [BpaMap.slots] at hclear
        rw [hclear] at this
        cases this
  | some found =>
      obtain ⟨hge, -, hclear, hbetween⟩ := firstClear?_eq_some hsearch
      rw [searchNextFreePage_of_some hsearch, slots_setNextFreePage_self]
      refine FreeSlots.Counted.sound ⟨hcounted.count_eq, hcounted.padding⟩ ?_
      intro offset hoffset
      refine ⟨hclear, ?_⟩
      by_contra hgt
      simp only [BpaMap.slots] at hoffset hgt
      by_cases hlt : offset < start
      · rw [hbelow offset hlt] at hoffset
        cases hoffset
      · rw [hbetween offset (by omega) (by omega)] at hoffset
        cases hoffset

theorem dropNextFreePage_freeArea (map : BpaMap) (order : Nat) :
    (dropNextFreePage map order).freeArea = map.freeArea := by
  unfold dropNextFreePage
  split <;> simp

theorem dropNextFreePage_pages (map : BpaMap) (order : Nat) :
    (dropNextFreePage map order).pages = map.pages := by
  unfold dropNextFreePage
  split <;> simp

theorem dropNextFreePage_of_ne (map : BpaMap) {order other : Nat}
    (hne : other ≠ order) :
    (dropNextFreePage map order).pagesFree other = map.pagesFree other ∧
      (dropNextFreePage map order).nextFreePage other =
        map.nextFreePage other := by
  have hsearch := searchNextFreePage_of_ne map (map.nextFreePage order + 1) hne
  unfold dropNextFreePage
  split <;> simp [hne, hsearch]

theorem dropNextFreePage_sound {map : BpaMap} {order : Nat} {before : FreeSlots}
    (hbefore : before.Sound) (hpos : 0 < before.count)
    (hlt : before.count < wordSize)
    (hmap : map.slots order =
      { before with bits := Function.update before.bits before.hint true }) :
    ((dropNextFreePage map order).slots order).Sound ∧
      (dropNextFreePage map order).pagesFree order = before.count - 1 := by
  have hbits : map.freeArea order =
      Function.update before.bits before.hint true :=
    congrArg FreeSlots.bits hmap
  have hlength : freeAreaLength map.pages order = before.length :=
    congrArg FreeSlots.length hmap
  have hcount : map.pagesFree order = before.count :=
    congrArg FreeSlots.count hmap
  have hhint : map.nextFreePage order = before.hint :=
    congrArg FreeSlots.hint hmap
  have hshape : ∀ hint, (dropNextFreePage map order).nextFreePage order = hint →
      (dropNextFreePage map order).pagesFree order = before.count - 1 →
      (dropNextFreePage map order).slots order =
        ⟨Function.update before.bits before.hint true, before.length,
          before.count - 1, hint⟩ := by
    intro hint hnext hfree
    simp only [BpaMap.slots, dropNextFreePage_freeArea, dropNextFreePage_pages,
      hnext, hfree, hbits, hlength]
  have hdec : wordSub before.count 1 = before.count - 1 :=
    wordSub_of_le hpos hlt
  by_cases hone : before.count = 1
  · have hnext : (dropNextFreePage map order).nextFreePage order = 0 := by
      simp [dropNextFreePage, hcount, hone]
    have hfree : (dropNextFreePage map order).pagesFree order =
        before.count - 1 := by
      rw [hone] at hdec
      simp [dropNextFreePage, hcount, hone, hdec]
    refine ⟨?_, hfree⟩
    rw [hshape _ hnext hfree]
    exact hbefore.occupy_last 0 (hbefore.hint_clear hpos) hone
  · obtain ⟨offset, hoffset⟩ := hbefore.exists_firstClear (by omega)
    have hsearch := hoffset
    rw [← hbits, ← hhint, ← hlength] at hsearch
    have hnext : (dropNextFreePage map order).nextFreePage order = offset := by
      simp [dropNextFreePage, hcount, hone, searchNextFreePage_of_some hsearch]
    have hfree : (dropNextFreePage map order).pagesFree order =
        before.count - 1 := by
      simp [dropNextFreePage, hcount, hone, searchNextFreePage_of_some hsearch,
        hdec]
    refine ⟨?_, hfree⟩
    rw [hshape _ hnext hfree]
    exact hbefore.occupy_hint hpos hoffset

/-! One split. -/

theorem splitNextFree_pages (map : BpaMap) (order : Nat) :
    (splitNextFree map order).pages = map.pages := by
  unfold splitNextFree
  simp only [dropNextFreePage_pages]
  split <;> rfl

theorem splitNextFree_freeArea (map : BpaMap) (order : Nat) :
    (splitNextFree map order).freeArea =
      (((map.blockSet order (map.nextFreePage order)).blockClear (order - 1)
          (map.nextFreePage order * 2)).blockClear (order - 1)
        (map.nextFreePage order * 2 + 1)).freeArea := by
  unfold splitNextFree
  simp only [dropNextFreePage_freeArea]
  split <;> rfl

theorem splitNextFree_free (map : BpaMap) {order : Nat}
    (horder : order < maxOrder) :
    (splitNextFree map order).free =
      map.free.split ⟨order, map.nextFreePage order⟩ := by
  rw [free_congr (splitNextFree_freeArea map order)]
  rw [free_blockClear _ (by omega), free_blockClear _ (by omega),
    free_blockSet, Nat.mul_comm]
  rfl

theorem splitNextFree_slots_of_ne (map : BpaMap) {order other : Nat}
    (hne : other ≠ order) (hnePred : other ≠ order - 1) :
    (splitNextFree map order).slots other = map.slots other := by
  have hbits : (splitNextFree map order).freeArea other =
      map.freeArea other := by
    rw [splitNextFree_freeArea, writeBlock_freeArea_of_ne _ _ _ _ hnePred,
      writeBlock_freeArea_of_ne _ _ _ _ hnePred,
      writeBlock_freeArea_of_ne _ _ _ _ hne]
  have hcount : (splitNextFree map order).pagesFree other =
      map.pagesFree other := by
    unfold splitNextFree
    simp only [(dropNextFreePage_of_ne _ hne).1]
    split <;> simp [hnePred]
  have hhint : (splitNextFree map order).nextFreePage other =
      map.nextFreePage other := by
    unfold splitNextFree
    simp only [(dropNextFreePage_of_ne _ hne).2]
    split <;> simp [hnePred]
  simp only [BpaMap.slots, splitNextFree_pages, hbits, hcount, hhint]

theorem half_not_free {map : BpaMap} (hmap : map.WellFormed) {block half : Block}
    (hfree : block ∈ map.free) (horder : 0 < block.order)
    (hhalf : half = block.left ∨ half = block.right) :
    map.freeArea half.order half.index = true := by
  have hsub : half.first ∈ block := by
    rw [Block.mem_halves horder]
    rcases hhalf with rfl | rfl
    · exact .inl (Block.first_mem _)
    · exact .inr (Block.first_mem _)
  have hpred : half.order = block.order - 1 := by
    rcases hhalf with rfl | rfl <;> rfl
  by_contra hclear
  have hmem : half ∈ map.free := ⟨by
    have := hfree.1
    omega, by simpa using hclear⟩
  have heq := hmap.apart.unique hmem hfree (Block.first_mem _) hsub
  rw [heq] at hpred
  omega

theorem splitNextFree_slots_self (map : BpaMap) {order : Nat}
    (hzero : 0 < order) {before : FreeSlots}
    (hbefore : before = map.slots order) (hsound : before.Sound)
    (hpos : 0 < before.count) (hlt : before.count < wordSize) :
    ((splitNextFree map order).slots order).Sound := by
  have hne : order ≠ order - 1 := by omega
  unfold splitNextFree
  refine (dropNextFreePage_sound hsound hpos hlt ?_).1
  subst hbefore
  simp only [BpaMap.slots, FreeSlots.mk.injEq]
  refine ⟨?_, ?_, ?_, ?_⟩
  · rw [setPagesFree_freeArea]
    split <;> simp [writeBlock_freeArea_of_ne _ _ _ _ hne]
  · split <;> rfl
  · split <;> simp [hne]
  · split <;> simp [hne]

theorem splitNextFree_slots_pred (map : BpaMap) {order : Nat}
    (hzero : 0 < order) :
    (splitNextFree map order).slots (order - 1) =
      ⟨Function.update (Function.update (map.freeArea (order - 1))
          (map.nextFreePage order * 2) false)
          (map.nextFreePage order * 2 + 1) false,
        freeAreaLength map.pages (order - 1),
        wordAdd (map.pagesFree (order - 1)) 2,
        if map.nextFreePage order * 2 < map.nextFreePage (order - 1) ∨
            map.pagesFree (order - 1) = 0 then
          map.nextFreePage order * 2
        else map.nextFreePage (order - 1)⟩ := by
  have hne : order - 1 ≠ order := by omega
  simp only [BpaMap.slots, FreeSlots.mk.injEq]
  refine ⟨?_, ?_, ?_, ?_⟩
  · rw [splitNextFree_freeArea]
    simp [writeBlock_freeArea_of_ne _ _ _ _ hne]
  · rw [splitNextFree_pages]
  · simp only [splitNextFree, (dropNextFreePage_of_ne _ hne).1]
    split <;> simp
  · simp only [splitNextFree, (dropNextFreePage_of_ne _ hne).2]
    split <;> simp_all

theorem splitNextFree_wellFormed {map : BpaMap} (hmap : map.WellFormed)
    {order : Nat} (hzero : 0 < order) (horder : order < maxOrder)
    (hpos : 0 < map.pagesFree order) :
    (splitNextFree map order).WellFormed := by
  have hfree := hmap.hint_mem horder hpos
  have hlow := half_not_free hmap hfree hzero (.inl rfl)
  have hhigh := half_not_free hmap hfree hzero (.inr rfl)
  have hindex := hmap.index_lt hfree
  simp only [Block.left, Block.right, Nat.mul_comm 2] at hlow hhigh
  have hlength : freeAreaLength map.pages (order - 1) / 2 =
      map.pages / 2 ^ order := by
    rw [freeAreaLength_eq, Nat.div_div_eq_div_mul, ← pow_succ,
      Nat.sub_add_cancel hzero]
  have hpair := (hmap.slots_sound (order - 1) (by omega)).release_pair
    hlow hhigh (by
      simp only [BpaMap.slots] at *
      omega)
  have hcount : map.pagesFree (order - 1) + 2 < wordSize :=
    Nat.lt_of_le_of_lt hpair.count_le (hmap.length_lt (order - 1))
  refine ⟨?_, ?_, ?_⟩
  · rw [splitNextFree_pages]
    exact hmap.pages_lt
  · intro other hother
    by_cases hself : other = order
    · subst hself
      exact splitNextFree_slots_self map hzero rfl
        (hmap.slots_sound other horder) hpos (hmap.count_lt horder)
    · by_cases hpred : other = order - 1
      · subst hpred
        rw [splitNextFree_slots_pred map hzero, wordAdd_of_lt hcount]
        exact hpair
      · rw [splitNextFree_slots_of_ne map hself hpred]
        exact hmap.slots_sound other hother
  · rw [splitNextFree_free map horder]
    exact hmap.apart.split hfree hzero

/-! Climbing.  `top` is the lowest order from `order` on with a free block; the
block taken there is opened down to the order below `order`. -/

theorem blockSplit_of_pos {region : Region} {order : Nat}
    (hzero : 0 < order) (horder : order < maxOrder)
    (hpos : 0 < region.map.pagesFree order) :
    blockSplit region order =
      { region with map := splitNextFree region.map order } := by
  rw [blockSplit, if_neg (by omega), if_pos hpos]

theorem blockSplit_of_empty {region : Region} {order : Nat}
    (hzero : 0 < order) (horder : order + 1 < maxOrder)
    (hempty : region.map.pagesFree order = 0) :
    blockSplit region order =
      if (blockSplit region (order + 1)).map.pagesFree order = 0 then
        outOfMem (blockSplit region (order + 1))
      else
        { blockSplit region (order + 1) with
          map := splitNextFree (blockSplit region (order + 1)).map order } := by
  rw [blockSplit, if_neg (by omega), if_neg (by omega), if_neg (by omega)]

theorem blockSplit_of_none {region : Region} {depth order : Nat}
    (hzero : 0 < order) (hdepth : order + depth = maxOrder - 1)
    (hnone : ∀ other, order ≤ other → other < maxOrder →
      region.map.pagesFree other = 0) :
    blockSplit region order = outOfMem region := by
  have hempty := hnone order (Nat.le_refl _) (by
    simp only [maxOrder] at *
    omega)
  induction depth generalizing order with
  | zero =>
      rw [blockSplit, if_neg (by simp only [maxOrder] at *; omega),
        if_neg (by omega), if_pos (by omega)]
  | succ depth ih =>
      have hnext := ih (Nat.succ_pos order) (by omega)
        (fun other hle => hnone other (by omega))
        (hnone (order + 1) (by omega) (by simp only [maxOrder] at *; omega))
      rw [blockSplit_of_empty hzero (by simp only [maxOrder] at *; omega)
        hempty, hnext]
      simp [outOfMem, hempty]

/-- After an opening down to `order` the hint of that order is the leftmost
part. -/
theorem hint_of_opened {map opened : BpaMap} (hmap : map.WellFormed)
    (hopened : opened.WellFormed) {block : Block} {order : Nat}
    (horder : order < block.order) (hblock : block.order < maxOrder)
    (hempty : map.pagesFree order = 0)
    (hfree : opened.free = map.free.opened block order) :
    0 < opened.pagesFree order ∧
      (⟨order, opened.nextFreePage order⟩ : Block) = block.leftmost order := by
  have hlt : order < maxOrder := by omega
  have hmem : block.leftmost order ∈ opened.free := by
    rw [hfree]
    exact Family.leftmost_mem_opened
  have hlow : ∀ other < (block.leftmost order).index,
      opened.freeArea order other = true := by
    intro other hother
    by_contra hclear
    have hother' : (⟨order, other⟩ : Block) ∈ opened.free :=
      ⟨hlt, by simpa using hclear⟩
    rw [hfree] at hother'
    rcases hother' with h | ⟨-, -, h⟩ | h
    · exact hmap.not_free_of_empty hempty rfl h.1
    · simp only [Block.leftmost] at *
      omega
    · rw [← h] at hother
      exact Nat.lt_irrefl _ hother
  have hhint := (hopened.slots_sound order hlt).hint_unique hmem.2 hlow
  refine ⟨hopened.count_pos hmem, ?_⟩
  rw [show opened.nextFreePage order = _ from hhint]
  rfl

theorem blockSplit_of_some {region : Region} (hmap : region.map.WellFormed)
    {depth order top : Nat} (hzero : 0 < order) (hdepth : order + depth = top)
    (htop : top < maxOrder) (hpos : 0 < region.map.pagesFree top)
    (hempty : ∀ other, order ≤ other → other < top →
      region.map.pagesFree other = 0) :
    ∃ map : BpaMap,
      blockSplit region order = { region with map := map } ∧
      map.WellFormed ∧ map.pages = region.map.pages ∧
      map.free = region.map.free.opened
        ⟨top, region.map.nextFreePage top⟩ (order - 1) := by
  have hfree := hmap.hint_mem htop hpos
  induction depth generalizing order with
  | zero =>
      have heq : order = top := by omega
      subst heq
      refine ⟨_, blockSplit_of_pos hzero htop hpos,
        splitNextFree_wellFormed hmap hzero htop hpos,
        splitNextFree_pages _ _, ?_⟩
      rw [splitNextFree_free _ htop,
        ← Family.opened_split hmap.apart hfree (by simp only; omega),
        Nat.sub_add_cancel hzero, Family.opened_self hfree,
        Block.leftmost_self ⟨order, _⟩]
  | succ depth ih =>
      have hlt : order < top := by omega
      obtain ⟨map, hsplit, hwell, hpages, hopened⟩ := ih (Nat.succ_pos order)
        (by omega) (fun other hle => hempty other (by omega))
      rw [Nat.succ_sub_one] at hopened
      obtain ⟨hcount, hhint⟩ := hint_of_opened hmap hwell hlt htop
        (hempty order (Nat.le_refl _) hlt) hopened
      refine ⟨splitNextFree map order, ?_,
        splitNextFree_wellFormed hwell hzero (by omega) hcount, ?_, ?_⟩
      · rw [blockSplit_of_empty hzero (by omega)
          (hempty order (Nat.le_refl _) hlt), hsplit]
        exact if_neg (Nat.ne_of_gt hcount)
      · rw [splitNextFree_pages, hpages]
      · have hstep := @Family.opened_split _ _ hmap.apart hfree (order - 1)
          (by simp only; omega)
        rw [Nat.sub_add_cancel hzero] at hstep
        rw [splitNextFree_free _ (by omega), hhint, hopened, hstep]

end Synos.Page

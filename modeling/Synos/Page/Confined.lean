import Synos.Page.Reserve

namespace Synos.Page

open Synos.Data

/-! What allocation can reach from any state of the bitmaps, consistent or not:
the blocks it hands out stay among the allowed pages as long as every free
block, every hint and the first block of every stocked order do. -/

structure BpaMap.Confined (map : BpaMap) (allowed : Nat → Prop) : Prop where
  free : ∀ block ∈ map.free, block.Within allowed
  hint : ∀ order < maxOrder, 0 < map.pagesFree order →
    (⟨order, map.nextFreePage order⟩ : Block).Within allowed
  first : ∀ order < maxOrder, 0 < map.pagesFree order →
    (⟨order, 0⟩ : Block).Within allowed

theorem searchNextFreePage_hint (map : BpaMap) {order : Nat} (start : Nat)
    (horder : order < maxOrder) :
    (searchNextFreePage map order start).nextFreePage order = 0 ∨
      (⟨order, (searchNextFreePage map order start).nextFreePage order⟩ :
        Block) ∈ map.free := by
  cases hsearch : firstClear? (map.freeArea order) start
      (freeAreaLength map.pages order) with
  | none =>
      left
      rw [searchNextFreePage_of_none hsearch]
      simp
  | some found =>
      right
      rw [searchNextFreePage_of_some hsearch]
      refine ⟨horder, ?_⟩
      simpa using (firstClear?_eq_some hsearch).2.2.1

theorem dropNextFreePage_hint (map : BpaMap) {order : Nat}
    (horder : order < maxOrder) :
    (dropNextFreePage map order).nextFreePage order = 0 ∨
      (⟨order, (dropNextFreePage map order).nextFreePage order⟩ : Block) ∈
        map.free := by
  unfold dropNextFreePage
  by_cases hone : map.pagesFree order = 1
  · simp [hone]
  · simpa [hone] using
      searchNextFreePage_hint map (map.nextFreePage order + 1) horder

section

variable {allowed : Nat → Prop} {map : BpaMap} {order : Nat}

theorem BpaMap.Confined.take (hmap : map.Confined allowed)
    (horder : order < maxOrder) (hpos : 0 < map.pagesFree order) :
    (dropNextFreePage (map.blockSet order (map.nextFreePage order))
      order).Confined allowed := by
  have hfamily : ∀ other, (dropNextFreePage other order).free = other.free :=
    fun other => free_congr (dropNextFreePage_freeArea other order)
  refine ⟨?_, ?_, ?_⟩
  · intro block hblock
    rw [hfamily, free_blockSet] at hblock
    exact hmap.free block hblock.1
  · intro other hother hcount
    by_cases hself : other = order
    · subst hself
      cases dropNextFreePage_hint
          (map.blockSet other (map.nextFreePage other)) hother with
      | inl hzero =>
          rw [hzero]
          exact hmap.first other hother hpos
      | inr hfree =>
          rw [free_blockSet] at hfree
          exact hmap.free _ hfree.1
    · obtain ⟨hsame, hhint⟩ := dropNextFreePage_of_ne
        (map.blockSet order (map.nextFreePage order)) hself
      rw [hsame] at hcount
      rw [hhint]
      exact hmap.hint other hother hcount
  · intro other hother hcount
    by_cases hself : other = order
    · subst hself
      exact hmap.first other hother hpos
    · rw [(dropNextFreePage_of_ne _ hself).1] at hcount
      exact hmap.first other hother hcount

theorem splitNextFree_hint (map : BpaMap) {order : Nat}
    (horder : order < maxOrder) :
    (splitNextFree map order).nextFreePage order = 0 ∨
      (⟨order, (splitNextFree map order).nextFreePage order⟩ : Block) ∈
        (splitNextFree map order).free := by
  have h : ∀ other : BpaMap,
      (dropNextFreePage other order).nextFreePage order = 0 ∨
        (⟨order, (dropNextFreePage other order).nextFreePage order⟩ :
          Block) ∈ (dropNextFreePage other order).free := by
    intro other
    rw [free_congr (dropNextFreePage_freeArea other order)]
    exact dropNextFreePage_hint other horder
  exact h _

theorem BpaMap.Confined.split (hmap : map.Confined allowed) (hzero : 0 < order)
    (horder : order < maxOrder) (hpos : 0 < map.pagesFree order) :
    (splitNextFree map order).Confined allowed := by
  have hhalves := (hmap.hint order horder hpos).halves hzero
  have hfirst := hmap.first order horder hpos
  have hfree : ∀ block ∈ (splitNextFree map order).free,
      block.Within allowed := by
    intro block hblock
    rw [splitNextFree_free map horder] at hblock
    cases hblock with
    | inl hright => exact hright ▸ hhalves.2
    | inr hrest =>
        cases hrest with
        | inl hleft => exact hleft ▸ hhalves.1
        | inr hold => exact hmap.free block hold.1
  have hpred := splitNextFree_slots_pred map hzero
  refine ⟨hfree, ?_, ?_⟩
  · intro other hother hcount
    by_cases hself : other = order
    · subst hself
      cases splitNextFree_hint map hother with
      | inl hnone =>
          rw [hnone]
          exact hfirst
      | inr hmem => exact hfree _ hmem
    · by_cases hbelow : other = order - 1
      · subst hbelow
        rw [show (splitNextFree map order).nextFreePage (order - 1) = _ from
          congrArg FreeSlots.hint hpred]
        simp only
        split
        · rw [Nat.mul_comm]
          exact hhalves.1
        · exact hmap.hint _ hother (by omega)
      · have hslots := splitNextFree_slots_of_ne map hself hbelow
        rw [show (splitNextFree map order).pagesFree other = _ from
          congrArg FreeSlots.count hslots] at hcount
        rw [show (splitNextFree map order).nextFreePage other = _ from
          congrArg FreeSlots.hint hslots]
        exact hmap.hint other hother hcount
  · intro other hother hcount
    by_cases hself : other = order
    · exact hself ▸ hfirst
    · by_cases hbelow : other = order - 1
      · exact hbelow ▸ hfirst.first (Nat.sub_le _ _)
      · have hslots := splitNextFree_slots_of_ne map hself hbelow
        rw [show (splitNextFree map order).pagesFree other = _ from
          congrArg FreeSlots.count hslots] at hcount
        exact hmap.first other hother hcount

end

section

variable {allowed : Nat → Prop} {region : Region} {order : Nat}

theorem blockSplit_confined {depth order : Nat} (hzero : 0 < order)
    (hdepth : order + depth = maxOrder - 1)
    (hmap : region.map.Confined allowed) :
    ∃ map full, blockSplit region order =
        { region with map := map, memFull := full } ∧
      map.pages = region.map.pages ∧ map.Confined allowed := by
  have horder : order < maxOrder := by
    simp only [maxOrder] at *
    omega
  induction depth generalizing order with
  | zero =>
      by_cases hpos : 0 < region.map.pagesFree order
      · exact ⟨_, _, blockSplit_of_pos hzero horder hpos,
          splitNextFree_pages _ _, hmap.split hzero horder hpos⟩
      · refine ⟨region.map, true, ?_, rfl, hmap⟩
        rw [blockSplit, if_neg (by omega), if_neg hpos, if_pos (by omega)]
        rfl
  | succ depth ih =>
      by_cases hpos : 0 < region.map.pagesFree order
      · exact ⟨_, _, blockSplit_of_pos hzero horder hpos,
          splitNextFree_pages _ _, hmap.split hzero horder hpos⟩
      · have hnext : order + 1 < maxOrder := by
          simp only [maxOrder] at *
          omega
        obtain ⟨map, full, hsplit, hpages, hconfined⟩ :=
          @ih (order + 1) (Nat.succ_pos _) (by omega) hnext
        rw [blockSplit_of_empty hzero hnext (by omega), hsplit]
        simp only
        by_cases hnone : map.pagesFree order = 0
        · rw [if_pos hnone]
          exact ⟨map, true, rfl, hpages, hconfined⟩
        · rw [if_neg hnone]
          exact ⟨_, full, rfl, (splitNextFree_pages _ _).trans hpages,
            hconfined.split hzero horder (by omega)⟩

/-- What one allocation from a confined region hands out. -/
structure Confines (allowed : Nat → Prop) (region : Region) (order : Nat)
    (address : Nat) (after : Region) : Prop where
  call : pagesAlloc region order = .ok (address, after)
  start_eq : after.start = region.start
  pages_eq : after.map.pages = region.map.pages
  unlocked : after.lock = false
  confined : after.map.Confined allowed
  granted : address ≠ 0 → ∃ block : Block, block.order = order ∧
    address = region.address block ∧ block.Within allowed

theorem allocNextFree_confines (hmap : region.map.Confined allowed)
    (horder : order < maxOrder) (hpos : 0 < region.map.pagesFree order)
    {before : Region} (hstart : region.start = before.start)
    (hpages : region.map.pages = before.map.pages)
    (hcall : pagesAlloc before order = .ok (allocNextFree region order)) :
    Confines allowed before order (allocNextFree region order).1
      (allocNextFree region order).2 := by
  rw [allocNextFree_eq] at *
  refine ⟨hcall, hstart, ?_, rfl, ?_, fun _ =>
    ⟨⟨order, region.map.nextFreePage order⟩, rfl, ?_, ?_⟩⟩
  · simp only [Region.afterAlloc, allocNextFree_map, dropNextFreePage_pages]
    exact hpages
  · simp only [Region.afterAlloc, allocNextFree_map]
    exact hmap.take horder hpos
  · simp only [Region.address, hstart]
  · exact hmap.hint order horder hpos

theorem pagesAlloc_confined (hmap : region.map.Confined allowed)
    (hlock : region.lock = false) (horder : order < maxOrder) :
    ∃ address after, Confines allowed region order address after := by
  have hcall : pagesAlloc region order =
      if 0 < region.map.pagesFree order then
        .ok (allocNextFree { region with lock := true } order)
      else if order = maxOrder - 1 then
        .ok (0, outOfMem region)
      else if (blockSplit { region with lock := true }
          (order + 1)).map.pagesFree order = 0 then
        .ok (0, spinlockUnlock (outOfMem
          (blockSplit { region with lock := true } (order + 1))))
      else
        .ok (allocNextFree (blockSplit { region with lock := true }
          (order + 1)) order) := by
    simp [pagesAlloc, Nat.not_le_of_lt horder, spinlockLock, hlock, outOfMem,
      spinlockUnlock]
  by_cases hpos : 0 < region.map.pagesFree order
  · rw [if_pos hpos] at hcall
    exact ⟨_, _, @allocNextFree_confines allowed { region with lock := true }
      order hmap horder hpos region rfl rfl hcall⟩
  · rw [if_neg hpos] at hcall
    by_cases htop : order = maxOrder - 1
    · rw [if_pos htop] at hcall
      exact ⟨0, outOfMem region, hcall, rfl, rfl, hlock, hmap,
        fun h => (h rfl).elim⟩
    · rw [if_neg htop] at hcall
      obtain ⟨map, full, hsplit, hpages, hconfined⟩ :=
        @blockSplit_confined allowed { region with lock := true }
          (maxOrder - 1 - (order + 1)) (order + 1) (Nat.succ_pos _)
          (by simp only [maxOrder] at *; omega) hmap
      rw [hsplit] at hcall
      by_cases hnone : map.pagesFree order = 0
      · rw [if_pos hnone] at hcall
        exact ⟨_, _, hcall, rfl, hpages, rfl, hconfined,
          fun h => (h rfl).elim⟩
      · rw [if_neg hnone] at hcall
        exact ⟨_, _, @allocNextFree_confines allowed
          { region with map := map, memFull := full, lock := true } order
          hconfined horder (Nat.pos_of_ne_zero hnone) region rfl hpages hcall⟩

end

/-! Splitting towards a page that is to be withheld: one free block still holds
it, and every other block within reach is allowed. -/

structure BpaMap.Withholds (map : BpaMap) (allowed : Nat → Prop)
    (block : Block) : Prop where
  mem : block ∈ map.free
  free : ∀ other ∈ map.free, other ≠ block → other.Within allowed
  hint : ∀ order < maxOrder, (⟨order, 0⟩ : Block).Within allowed →
    (⟨order, map.nextFreePage order⟩ : Block) ≠ block →
    (⟨order, map.nextFreePage order⟩ : Block).Within allowed
  first : ∀ order < maxOrder, 0 < map.pagesFree order →
    (⟨order, 0⟩ : Block).Within allowed

section

variable {allowed : Nat → Prop} {map : BpaMap} {block : Block}

theorem zsplitBlock_hint (map : BpaMap) {order : Nat} (offset : Nat)
    (hzero : 0 < order) (horder : order < maxOrder) :
    (zsplitBlock map order offset).nextFreePage order = 0 ∨
      (⟨order, (zsplitBlock map order offset).nextFreePage order⟩ : Block) ∈
        (zsplitBlock map order offset).free ∨
      (zsplitBlock map order offset).nextFreePage order ≠ offset ∧
        (zsplitBlock map order offset).nextFreePage order =
          map.nextFreePage order := by
  have hhint := (zfreeHalves_of_ne map offset
    (show order ≠ order - 1 by omega)).2
  rw [free_congr (zsplitBlock_freeArea map order offset)]
  unfold zsplitBlock
  by_cases hone : (zfreeHalves map order offset).pagesFree order = 1
  · left
    simp [hone]
  · by_cases heq : offset = map.nextFreePage order
    · simpa [hone, hhint, heq.symm] using
        searchNextFreePage_hint (zfreeHalves map order offset)
          (offset + 1) horder
    · refine .inr (.inr ?_)
      simp [hone, hhint, heq]
      exact fun h => heq h.symm

theorem allowed_of_ne_half {half : Block}
    (hhalf : half = block.left ∧ block.right.Within allowed ∨
      half = block.right ∧ block.left.Within allowed) {other : Block}
    (hother : other = block.left ∨ other = block.right) (hne : other ≠ half) :
    other.Within allowed := by
  cases hhalf with
  | inl hlow =>
      cases hother with
      | inl hleft => exact (hne (hleft.trans hlow.1.symm)).elim
      | inr hright => exact hright ▸ hlow.2
  | inr hhigh =>
      cases hother with
      | inl hleft => exact hleft ▸ hhigh.2
      | inr hright => exact (hne (hright.trans hhigh.1.symm)).elim

theorem BpaMap.Withholds.split_free (hmap : map.Withholds allowed block)
    {half : Block}
    (hhalf : half = block.left ∧ block.right.Within allowed ∨
      half = block.right ∧ block.left.Within allowed) {other : Block}
    (hother : other ∈ (zsplitBlock map block.order block.index).free)
    (hne : other ≠ half) : other.Within allowed := by
  have hfamily : (zsplitBlock map block.order block.index).free =
      map.free.split block := zsplitBlock_free map hmap.mem.1
  rw [hfamily] at hother
  rcases hother with hright | hleft | hold
  · exact allowed_of_ne_half hhalf (.inr hright) hne
  · exact allowed_of_ne_half hhalf (.inl hleft) hne
  · exact hmap.free other hold.1 hold.2

theorem BpaMap.Withholds.split_hint_pred (hmap : map.Withholds allowed block)
    (hzero : 0 < block.order)
    (hfirst : (⟨block.order, 0⟩ : Block).Within allowed) {half : Block}
    (hhalf : half = block.left ∧ block.right.Within allowed ∨
      half = block.right ∧ block.left.Within allowed)
    (hwithin : (⟨block.order - 1, 0⟩ : Block).Within allowed)
    (hne : (⟨block.order - 1, (zsplitBlock map block.order
      block.index).nextFreePage (block.order - 1)⟩ : Block) ≠ half) :
    (⟨block.order - 1, (zsplitBlock map block.order block.index).nextFreePage
      (block.order - 1)⟩ : Block).Within allowed := by
  have horder := hmap.mem.1
  have hself : block.order - 1 ≠ block.order := by omega
  rw [(zsplitBlock_of_ne map block.index hself).2, zfreeHalves_hint] at hne ⊢
  split at hne
  · rename_i hlow
    rw [if_pos hlow, Nat.mul_comm]
    rw [Nat.mul_comm] at hne
    by_cases hblock :
        (⟨block.order, map.nextFreePage block.order⟩ : Block) = block
    · refine allowed_of_ne_half hhalf (.inl ?_) hne
      rw [Block.left, ← congrArg Block.index hblock]
    · exact (@Block.Within.halves
        ⟨block.order, map.nextFreePage block.order⟩ allowed hzero
        (hmap.hint _ horder hfirst hblock)).1
  · rename_i hhigh
    rw [if_neg hhigh]
    exact hmap.hint _ (by omega) hwithin
      fun heq => hself (congrArg Block.order heq)

theorem BpaMap.Withholds.split (hmap : map.Withholds allowed block)
    (hzero : 0 < block.order)
    (hfirst : (⟨block.order, 0⟩ : Block).Within allowed) {half : Block}
    (hhalf : half = block.left ∧ block.right.Within allowed ∨
      half = block.right ∧ block.left.Within allowed) :
    (zsplitBlock map block.order block.index).Withholds allowed half := by
  refine ⟨?_, fun other => hmap.split_free hhalf, ?_, ?_⟩
  · have hfamily : (zsplitBlock map block.order block.index).free =
        map.free.split block := zsplitBlock_free map hmap.mem.1
    rw [hfamily]
    cases hhalf with
    | inl h => exact .inr (.inl h.1)
    | inr h => exact .inl h.1
  · intro order hlt hwithin hne
    by_cases hself : order = block.order
    · subst hself
      rcases zsplitBlock_hint map block.index hzero hlt with
        hnone | hmem | ⟨hmoved, hsame⟩
      · rw [hnone]
        exact hfirst
      · exact hmap.split_free hhalf hmem hne
      · rw [hsame] at hmoved ⊢
        apply hmap.hint _ hlt hwithin
        intro heq
        exact hmoved (congrArg Block.index heq)
    · by_cases hpred : order = block.order - 1
      · subst hpred
        exact hmap.split_hint_pred hzero hfirst hhalf hwithin hne
      · rw [(zsplitBlock_counts_of_ne map block.index hself hpred).2]
        exact hmap.hint _ hlt hwithin
          fun heq => hself (congrArg Block.order heq)
  · intro order hlt hcount
    by_cases hself : order = block.order
    · exact hself ▸ hfirst
    · by_cases hpred : order = block.order - 1
      · exact hpred ▸ hfirst.first (Nat.sub_le _ _)
      · rw [(zsplitBlock_counts_of_ne map block.index hself hpred).1] at hcount
        exact hmap.first _ hlt hcount

theorem BpaMap.Withholds.splitTo (hmap : map.Withholds allowed block)
    (hzero : 0 < block.order)
    (hfirst : (⟨block.order, 0⟩ : Block).Within allowed) {page : Nat}
    (hallowed : ∀ point ∈ block, point ≠ page → allowed point) {half : Block}
    (hhalf : half = block.left ∨ half = block.right) (hpage : page ∈ half) :
    (zsplitBlock map block.order block.index).Withholds allowed half := by
  have hwithin : ∀ other, other = block.left ∨ other = block.right →
      page ∉ other → other.Within allowed := by
    intro other hother hnot point hpoint
    refine hallowed point ?_ (fun heq => hnot (heq ▸ hpoint))
    rw [Block.mem_halves hzero]
    cases hother with
    | inl hleft => exact .inl (hleft ▸ hpoint)
    | inr hright => exact .inr (hright ▸ hpoint)
  apply hmap.split hzero hfirst
  cases hhalf with
  | inl hleft =>
      rw [hleft] at hpage
      exact .inl ⟨hleft, hwithin _ (.inr rfl)
        (Block.not_mem_right_of_mem_left hpage)⟩
  | inr hright =>
      rw [hright] at hpage
      exact .inr ⟨hright, hwithin _ (.inl rfl) (fun hleft =>
        Block.not_mem_right_of_mem_left hleft hpage)⟩

theorem splitDown_of_free {depth : Nat} (hmem : block ∈ map.free)
    (hdepth : block.order = depth + 1) :
    splitDown map 0 (depth + 1) block.index =
      splitDown (zsplitBlock map block.order block.index) 0 depth
        block.left.index := by
  rw [splitDown, if_pos (Nat.succ_pos _), ← hdepth,
    zblockSplit_of_free (by omega) hmem.1 hmem.2, Nat.mul_comm]
  rfl

/-- Splitting all the way down leaves the page in a block of its own, provided
it is one of the first two pages of the block. -/
theorem BpaMap.Withholds.splitDown {page depth : Nat}
    (hmap : map.Withholds allowed block)
    (hfirst : (⟨block.order, 0⟩ : Block).Within allowed)
    (hallowed : ∀ point ∈ block, point ≠ page → allowed point)
    (hdepth : block.order = depth + 1)
    (hpage : page ∈ block.leftmost 1) :
    (Page.splitDown map 0 (depth + 1) block.index).Withholds allowed
      ⟨0, page⟩ := by
  have hzero : 0 < block.order := by omega
  rw [splitDown_of_free hmap.mem hdepth]
  induction depth generalizing map block with
  | zero =>
      have hone : block.leftmost 1 = block := by
        rw [← show block.order = 1 from hdepth, Block.leftmost_self]
      have hpoint : page ∈ (⟨0, page⟩ : Block) :=
        Block.mem_def.mpr (by simp)
      rw [hone, Block.mem_halves hzero] at hpage
      apply hmap.splitTo hzero hfirst hallowed _ hpoint
      cases hpage with
      | inl hleft =>
          exact .inl (Block.mem_unique hpoint hleft
            (show 0 = block.order - 1 by omega))
      | inr hright =>
          exact .inr (Block.mem_unique hpoint hright
            (show 0 = block.order - 1 by omega))
  | succ depth ih =>
      have hlow : block.left.order = depth + 1 := by
        rw [Block.left, hdepth]
        rfl
      rw [← Block.left_leftmost (by omega)] at hpage
      have hleft := Block.leftmost_subset (by omega) hpage
      have hsplit := hmap.splitTo hzero hfirst hallowed (.inl rfl) hleft
      rw [splitDown_of_free hsplit.mem hlow]
      apply ih hsplit
      · exact hfirst.first (Nat.sub_le _ _)
      · intro point hpoint hne
        exact hallowed point ((Block.mem_halves hzero).mpr (.inl hpoint)) hne
      · exact hlow
      · exact hpage
      · omega

theorem BpaMap.Withholds.reserve (hmap : map.Withholds allowed block)
    (hfirst : (⟨block.order, 0⟩ : Block).Within allowed) :
    (reserveBlock map block.order block.index).Confined allowed := by
  have hfree : ∀ other ∈ (reserveBlock map block.order block.index).free,
      other.Within allowed := by
    intro other hother
    rw [reserveBlock_free] at hother
    exact hmap.free other hother.1 hother.2
  refine ⟨hfree, ?_, ?_⟩
  · intro order hlt hcount
    by_cases hself : order = block.order
    · subst hself
      by_cases hhint : map.nextFreePage block.order = block.index
      · have hsearch := searchNextFreePage_hint
          ((map.blockSet block.order block.index).setPagesFree block.order
            (wordSub (map.pagesFree block.order) 1)) (block.index + 1) hlt
        rw [← reserveBlock_of_hint hhint] at hsearch
        cases hsearch with
        | inl hnone =>
            rw [hnone]
            exact hfirst
        | inr hmem =>
            apply hfree
            rw [free_congr (reserveBlock_freeArea _ _ _)]
            exact hmem
      · rw [reserveBlock_of_ne_hint hhint]
        apply hmap.hint _ hlt hfirst
        intro heq
        exact hhint (congrArg Block.index heq)
    · have hrest := reserveBlock_of_ne map block.index hself
      rw [hrest.1] at hcount
      rw [hrest.2]
      apply hmap.hint _ hlt (hmap.first _ hlt hcount)
      exact fun heq => hself (congrArg Block.order heq)
  · intro order hlt hcount
    by_cases hself : order = block.order
    · exact hself ▸ hfirst
    · rw [(reserveBlock_of_ne map block.index hself).1] at hcount
      exact hmap.first _ hlt hcount

end

end Synos.Page

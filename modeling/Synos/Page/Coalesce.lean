import Synos.Data.Climb
import Synos.Page.Layout

namespace Synos.Page

open Synos.Data

/-! How far a merge climbs, and which bits it reads on the way. -/

/-- `block_merge`, with the buddies whose bits it reads. -/
def blockMergeTraced (map : BpaMap) (order offset : Nat) :
    BpaMap × List Block :=
  if maxOrder - 1 ≤ order then
    (map, [])
  else
    let offset := offset - offset % 2
    let map := mergePair map order offset
    if offset / 2 % 2 = 0 then
      let buddy := ⟨order + 1, offset / 2 + 1⟩
      if map.blockCheck (order + 1) (offset / 2 + 1) then (map, [buddy])
      else
        let merged := blockMergeTraced map (order + 1) (offset / 2)
        (merged.1, buddy :: merged.2)
    else
      let buddy := ⟨order + 1, offset / 2 - 1⟩
      if map.blockCheck (order + 1) (offset / 2 - 1) then (map, [buddy])
      else
        let merged := blockMergeTraced map (order + 1) (offset / 2)
        (merged.1, buddy :: merged.2)
termination_by maxOrder - order

section

variable {map : BpaMap} {order offset : Nat}

theorem blockMergeTraced_top (horder : ¬ order + 1 < maxOrder) :
    blockMergeTraced map order offset = (map, []) := by
  rw [blockMergeTraced, if_pos (by omega)]

theorem blockMergeTraced_step (horder : order + 1 < maxOrder) :
    blockMergeTraced map order offset =
      if (mergePair map order (offset - offset % 2)).blockCheck (order + 1)
          (buddyOf (offset / 2)) then
        (mergePair map order (offset - offset % 2),
          [⟨order + 1, buddyOf (offset / 2)⟩])
      else
        ((blockMergeTraced (mergePair map order (offset - offset % 2))
            (order + 1) (offset / 2)).1,
          ⟨order + 1, buddyOf (offset / 2)⟩ ::
            (blockMergeTraced (mergePair map order (offset - offset % 2))
              (order + 1) (offset / 2)).2) := by
  have hhalf : (offset - offset % 2) / 2 = offset / 2 := by omega
  rw [blockMergeTraced, if_neg (by omega)]
  simp only [hhalf]
  by_cases hparity : offset / 2 % 2 = 0
  · have hbuddy : buddyOf (offset / 2) = offset / 2 + 1 :=
      if_neg (by omega)
    rw [if_pos hparity, hbuddy]
  · have hbuddy : buddyOf (offset / 2) = offset / 2 - 1 :=
      if_pos (by omega)
    rw [if_neg hparity, hbuddy]

theorem blockMergeTraced_fst :
    (blockMergeTraced map order offset).1 = blockMerge map order offset := by
  induction hdepth : maxOrder - order generalizing map order offset with
  | zero =>
      rw [blockMergeTraced_top (by omega), blockMerge_top map offset (by omega)]
  | succ depth ih =>
      by_cases htop : order + 1 < maxOrder
      · rw [blockMergeTraced_step htop, blockMerge_step map offset htop]
        split
        · rfl
        · exact ih (by omega)
      · rw [blockMergeTraced_top htop, blockMerge_top map offset htop]

end

/-- The merge stops with the block around `block` of order `top`, in place of all
free blocks that it has joined. -/
structure MergesUp (map : BpaMap) (block : Block) (top : Nat)
    (merged : BpaMap × List Block) : Prop where
  order_lt : block.order < top
  top_lt : top < maxOrder
  free_eq : merged.1.free = map.free.climb block top
  climbed_free : Family.climbed block top ⊆ map.free
  stops : top = maxOrder - 1 ∨ (block.ancestor top).sibling ∉ merged.1.free
  reads_length : merged.2.length ≤ maxOrder - 1 - block.order
  reads_inside : ∀ read ∈ merged.2,
    read.index < 8 * (areaLayout map.pages read.order).2

section

variable {map : BpaMap} {order offset : Nat}

theorem BpaMap.PairFree.left_mem (hpair : map.PairFree order offset)
    (horder : order < maxOrder) :
    (Block.ancestor ⟨order, offset⟩ (order + 1)).left ∈ map.free := by
  have hhalf : (offset - offset % 2) / 2 = offset / 2 := by omega
  have hleft := BpaMap.left_mem_free horder (by omega) hpair.low
  rw [hhalf] at hleft
  rw [Block.ancestor_succ ⟨order, offset⟩]
  exact hleft

theorem BpaMap.PairFree.right_mem (hpair : map.PairFree order offset)
    (horder : order < maxOrder) :
    (Block.ancestor ⟨order, offset⟩ (order + 1)).right ∈ map.free := by
  have hhalf : (offset - offset % 2) / 2 = offset / 2 := by omega
  have hright := BpaMap.right_mem_free horder (by omega) hpair.high
  rw [hhalf] at hright
  rw [Block.ancestor_succ ⟨order, offset⟩]
  exact hright

theorem BpaMap.PairFree.climbed_free (hpair : map.PairFree order offset)
    (horder : order < maxOrder) :
    Family.climbed ⟨order, offset⟩ (order + 1) ⊆ map.free := by
  intro other hother
  have hhalf := Block.eq_half_iff.mpr (Family.mem_climbed_succ.mp hother)
  cases hhalf with
  | inl hleft =>
      rw [hleft]
      exact hpair.left_mem horder
  | inr hright =>
      rw [hright]
      exact hpair.right_mem horder

theorem buddy_inside {next : BpaMap} (hnext : next.WellFormed) {block : Block}
    (hfree : block ∈ next.free) :
    buddyOf block.index < 8 * (areaLayout next.pages block.order).2 := by
  have hindex := hnext.index_lt hfree
  have hpages : 0 < next.pages :=
    Nat.pos_of_ne_zero fun hzero => by
      rw [hzero, Nat.zero_div] at hindex
      exact absurd hindex (Nat.not_lt_zero _)
  have hroom := areaLayout_room hpages hindex
  have hbuddy := @buddyOf_lt block.index
    (4 * (areaLayout next.pages block.order).2) (by omega)
  omega

structure Joined (map : BpaMap) (block : Block) (next : BpaMap) : Prop where
  wellFormed : next.WellFormed
  pages_eq : next.pages = map.pages
  free_eq : next.free = map.free.join (block.ancestor (block.order + 1))
  parent_free : block.ancestor (block.order + 1) ∈ next.free

theorem mergePair_joined (hmap : map.WellFormed)
    (horder : order + 1 < maxOrder) (hpair : map.PairFree order offset) :
    Joined map ⟨order, offset⟩
      (mergePair map order (offset - offset % 2)) := by
  have heven : (offset - offset % 2) % 2 = 0 := by omega
  have hhalf : (offset - offset % 2) / 2 = offset / 2 := by omega
  have hfree := mergePair_free map horder heven
  rw [hhalf, ← Block.ancestor_succ ⟨order, offset⟩] at hfree
  constructor
  · exact mergePair_wellFormed hmap horder heven hpair.low hpair.high
  · exact mergePair_pages map order _
  · exact hfree
  · rw [hfree]
    exact .inl rfl

theorem Joined.mergesUp {next : BpaMap} {block : Block}
    (hjoined : Joined map block next) (horder : block.order + 1 < maxOrder)
    (hclimbed : Family.climbed block (block.order + 1) ⊆ map.free)
    (hstops : block.order + 1 = maxOrder - 1 ∨
      (block.ancestor (block.order + 1)).sibling ∉ next.free) :
    MergesUp map block (block.order + 1)
      (next, [(block.ancestor (block.order + 1)).sibling]) where
  order_lt := Nat.lt_succ_self _
  top_lt := horder
  free_eq := hjoined.free_eq.trans Family.join_eq_climb
  climbed_free := hclimbed
  stops := hstops
  reads_length := by
    rw [List.length_singleton]
    omega
  reads_inside := by
    rw [List.forall_mem_singleton, ← hjoined.pages_eq]
    exact buddy_inside hjoined.wellFormed hjoined.parent_free

theorem Joined.climbs {next : BpaMap} {block : Block} {top : Nat}
    {merged : BpaMap × List Block} (hmap : map.WellFormed)
    (hjoined : Joined map block next)
    (hleft : (block.ancestor (block.order + 1)).left ∈ map.free)
    (hclimbed : Family.climbed block (block.order + 1) ⊆ map.free)
    (hmerges : MergesUp next (block.ancestor (block.order + 1)) top merged) :
    MergesUp map block top
      (merged.1, (block.ancestor (block.order + 1)).sibling :: merged.2) := by
  have horder : block.order < top := Nat.lt_of_succ_lt hmerges.order_lt
  have htop := hmerges.top_lt
  have hlength := hmerges.reads_length
  change merged.2.length ≤ maxOrder - 1 - (block.order + 1) at hlength
  have hparent : block.ancestor (block.order + 1) ∉ map.free :=
    hmap.apart.notMem_of_half (Nat.succ_pos _) hleft
  constructor
  · exact horder
  · exact htop
  · rw [hmerges.free_eq, hjoined.free_eq, Family.climb_join horder hparent]
  · intro other hother
    cases (Family.mem_climbed_parent horder).mp hother with
    | inl hfirst => exact hclimbed hfirst
    | inr hlater =>
        have hnext := hmerges.climbed_free hlater.1
        rw [hjoined.free_eq] at hnext
        exact (hnext.resolve_left hlater.2).1.1
  · have hstops := hmerges.stops
    rwa [Block.ancestor_ancestor (Nat.le_succ _) hmerges.order_lt.le] at hstops
  · rw [List.length_cons]
    omega
  · rw [List.forall_mem_cons, ← hjoined.pages_eq]
    exact ⟨buddy_inside hjoined.wellFormed hjoined.parent_free,
      hmerges.reads_inside⟩

theorem blockMergeTraced_mergesUp (hmap : map.WellFormed)
    (horder : order + 1 < maxOrder) (hpair : map.PairFree order offset) :
    ∃ top, MergesUp map ⟨order, offset⟩ top
      (blockMergeTraced map order offset) := by
  induction hdepth : maxOrder - order generalizing map order offset with
  | zero => omega
  | succ depth ih =>
      have hlow := Nat.lt_of_succ_lt horder
      have hjoined := mergePair_joined hmap horder hpair
      have hclimbed := hpair.climbed_free hlow
      have hancestor := Block.ancestor_succ ⟨order, offset⟩
      have hsibling : (Block.ancestor ⟨order, offset⟩ (order + 1)).sibling =
          ⟨order + 1, buddyOf (offset / 2)⟩ := by
        rw [hancestor]
        rfl
      rw [blockMergeTraced_step horder, ← hsibling]
      split
      · next hused =>
          refine ⟨order + 1, hjoined.mergesUp horder hclimbed (.inr ?_)⟩
          rw [hsibling]
          exact fun hfree => absurd (hfree.2.symm.trans hused) (by decide)
      · next hbuddy =>
          by_cases hnext : order + 1 + 1 < maxOrder
          · have hparent := hjoined.parent_free.2
            rw [hancestor] at hparent
            obtain ⟨top, htop⟩ := ih hjoined.wellFormed hnext
              (BpaMap.pairFree_of_buddy hparent (Bool.eq_false_iff.mpr hbuddy))
              (by omega)
            refine ⟨top, hjoined.climbs hmap (hpair.left_mem hlow) hclimbed ?_⟩
            rw [hancestor]
            exact htop
          · rw [blockMergeTraced_top hnext]
            exact ⟨order + 1, hjoined.mergesUp horder hclimbed
              (.inl (show order + 1 = maxOrder - 1 by omega))⟩

/-- A merge of two free buddies leaves a well-formed map of the same pages, and
climbs as far as it can. -/
theorem blockMerge_coalesces (hmap : map.WellFormed)
    (horder : order < maxOrder - 1) (hpair : map.PairFree order offset) :
    (blockMergeTraced map order offset).1 = blockMerge map order offset ∧
      (blockMerge map order offset).WellFormed ∧
      (blockMerge map order offset).pages = map.pages ∧
      (∀ page, (blockMerge map order offset).free.Covers page ↔
        map.free.Covers page) ∧
      ∃ top, MergesUp map ⟨order, offset⟩ top
        (blockMergeTraced map order offset) := by
  have hlow : order < maxOrder := by omega
  exact ⟨blockMergeTraced_fst, blockMerge_wellFormed hmap hlow hpair,
    blockMerge_pages hlow hpair, blockMerge_covers hlow hpair,
    blockMergeTraced_mergesUp hmap (by omega) hpair⟩

end

def fourPages : BpaMap where
  pages := 4
  freeArea order index :=
    !decide (order = 0 ∧ index < 2 ∨ order = 1 ∧ index = 1)
  pagesFree order := if order = 0 then 2 else if order = 1 then 1 else 0
  nextFreePage order := if order = 1 then 1 else 0

theorem fourPages_freeArea {order index : Nat} :
    fourPages.freeArea order index = false ↔
      order = 0 ∧ index < 2 ∨ order = 1 ∧ index = 1 := by
  rw [fourPages, Bool.not_eq_false', decide_eq_true_eq]

theorem fourPages_sound (order : Nat) : (fourPages.slots order).Sound := by
  match order with
  | 0 =>
      refine ⟨⟨by decide, ?_⟩, fun _ => rfl, fun _ slot hslot => by cases hslot⟩
      intro slot hslot
      have hlast : 4 ≤ slot := hslot
      exact Bool.of_not_eq_false fun hfree => by
        have := fourPages_freeArea.mp hfree
        omega
  | 1 =>
      refine ⟨⟨by decide, ?_⟩, fun _ => rfl, ?_⟩
      · intro slot hslot
        have hlast : 2 ≤ slot := hslot
        exact Bool.of_not_eq_false fun hfree => by
          have := fourPages_freeArea.mp hfree
          omega
      · intro _ slot hslot
        have hfirst : slot < 1 := hslot
        exact Bool.of_not_eq_false fun hfree => by
          have := fourPages_freeArea.mp hfree
          omega
  | order + 2 =>
      have hused : ∀ slot, fourPages.freeArea (order + 2) slot = true :=
        fun slot => Bool.of_not_eq_false fun hfree => by
          have := fourPages_freeArea.mp hfree
          omega
      refine ⟨⟨(clearCount_eq_zero.mpr fun slot _ => hused slot).symm,
        fun slot _ => hused slot⟩, fun hpos => absurd hpos (Nat.lt_irrefl 0),
        fun _ slot _ => hused slot⟩

theorem fourPages_apart : fourPages.free.Apart := by
  intro first hfirst second hsecond point hpoint hother
  obtain ⟨firstOrder, firstIndex⟩ := first
  obtain ⟨secondOrder, secondIndex⟩ := second
  have hone := fourPages_freeArea.mp hfirst.2
  have htwo := fourPages_freeArea.mp hsecond.2
  rw [Block.mem_def] at hpoint hother
  simp only at hone htwo hpoint hother
  rw [Block.mk.injEq]
  rcases hone with ⟨rfl, hindex⟩ | ⟨rfl, hindex⟩ <;>
    rcases htwo with ⟨rfl, hsame⟩ | ⟨rfl, hsame⟩ <;> omega

theorem fourPages_wellFormed : fourPages.WellFormed where
  pages_lt := by decide
  slots_sound order _ := fourPages_sound order
  apart := fourPages_apart

theorem blockMerge_coalesces_fourPages :
    (blockMergeTraced fourPages 0 0).1 = blockMerge fourPages 0 0 ∧
      (blockMerge fourPages 0 0).WellFormed ∧
      (blockMerge fourPages 0 0).pages = fourPages.pages ∧
      (∀ page, (blockMerge fourPages 0 0).free.Covers page ↔
        fourPages.free.Covers page) ∧
      ∃ top, MergesUp fourPages ⟨0, 0⟩ top (blockMergeTraced fourPages 0 0) :=
  blockMerge_coalesces fourPages_wellFormed (by decide) ⟨by decide, by decide⟩

end Synos.Page

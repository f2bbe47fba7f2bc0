import Synos.Page.Reach

namespace Synos.Page

open Synos.Data

/-! When `pages_reserve` reserves exactly the block it is asked for. -/

/-- The block lies inside one free block. -/
def BpaMap.Holds (map : BpaMap) (block : Block) : Prop :=
  ∃ outer ∈ map.free, block.Inside outer

/-- A block inside a free block has been reserved; a block without a free page
has left the free pages alone. -/
structure Reserves (before after : Region) (block : Block) : Prop where
  covers : before.map.Holds block → ∀ page, after.map.free.Covers page ↔
    before.map.free.Covers page ∧ page ∉ block
  dropped : before.map.Holds block →
    after.pagesFree + 2 ^ block.order = before.pagesFree
  balanced : before.map.Holds block → after.Balanced
  unchanged : (∀ page ∈ block, ¬ before.map.free.Covers page) →
    after.pagesFree = before.pagesFree ∧
      ∀ page, after.map.free.Covers page ↔ before.map.free.Covers page

/-- The block is one of the first two of its order in a free block from which the
hints steer a descent to it. -/
def BpaMap.Reaches (map : BpaMap) (block : Block) : Prop :=
  ∃ outer ∈ map.free, block.Inside outer ∧
    block.index ≤ (outer.leftmost block.order).index + 1 ∧
    map.Steers outer block.order

theorem BpaMap.Reaches.holds {map : BpaMap} {block : Block}
    (hreaches : map.Reaches block) : map.Holds block := by
  obtain ⟨outer, hfree, hinside, -⟩ := hreaches
  exact ⟨outer, hfree, hinside⟩

theorem BpaMap.Holds.covers {map : BpaMap} {block : Block}
    (hholds : map.Holds block) : ∀ page ∈ block, map.free.Covers page := by
  obtain ⟨outer, hfree, hinside⟩ := hholds
  exact fun page hpage => ⟨outer, hfree, hinside page hpage⟩

theorem wordSub_ne {value amount : Nat} (hpos : 0 < amount)
    (hlt : amount < wordSize) : wordSub value amount ≠ value := by
  simp only [wordSize] at hlt
  simp only [wordSub, word, wordSize]
  omega

theorem two_pow_order_lt {order : Nat} (horder : order < maxOrder) :
    2 ^ order < wordSize :=
  Nat.pow_lt_pow_right (by decide) (by simp only [maxOrder] at horder; omega)

section

variable {region : Region} {block outer : Block}

theorem BpaMap.above_set {map : BpaMap} (hnone : ¬ map.Holds block)
    {other : Nat} (hle : block.order ≤ other) (hlt : other < maxOrder) :
    map.freeArea other (block.index / 2 ^ (other - block.order)) = true := by
  by_contra hclear
  exact hnone ⟨⟨other, block.index / 2 ^ (other - block.order)⟩,
    ⟨hlt, by simpa using hclear⟩, Block.inside_iff.mpr ⟨hle, rfl⟩⟩

/-- Nothing is taken, yet the pages are counted out. -/
theorem pagesReserve_of_not_holds (hlock : region.lock = false)
    (horder : block.order < maxOrder) (hnone : ¬ region.map.Holds block) :
    ∃ address, pagesReserve region block.order block.index =
      .ok (address, region.afterReserve block.order region.map) :=
  pagesReserve_of_none hlock
    (fun _ hle hlt => BpaMap.above_set hnone hle hlt) horder

theorem pagesReserve_of_inside (hmap : region.map.WellFormed)
    (hlock : region.lock = false) (hfree : outer ∈ region.map.free)
    (hinside : block.Inside outer) (hlt : block.order < outer.order) :
    ∃ address, pagesReserve region block.order block.index =
      .ok (address, region.afterReserve block.order
        (if (splitDown region.map block.order outer.order
            outer.index).freeArea block.order block.index = false then
          reserveBlock (splitDown region.map block.order outer.order
            outer.index) block.order block.index
        else
          splitDown region.map block.order outer.order outer.index)) := by
  have hindex := (Block.inside_iff.mp hinside).2
  have hpage := hinside _ block.first_mem
  obtain ⟨hset, -⟩ := hmap.above hfree hpage
  apply pagesReserve_of_above hlock hlt hfree.1
  · intro other hle hother
    have hself := hset other hother
    rwa [← Nat.add_sub_cancel' hle, pow_add, ← Nat.div_div_eq_div_mul,
      Block.mem_def.mp block.first_mem, Nat.add_sub_cancel' hle] at hself
  · rw [hindex]
    exact hfree.2
  · rw [hindex]

theorem Descends.reached_iff {map opened : BpaMap} (hmap : map.WellFormed)
    (hfree : outer ∈ map.free) (hinside : block.Inside outer)
    (hlt : block.order < outer.order)
    (hdescends : Descends map opened outer block.order) :
    opened.freeArea block.order block.index = false ↔
      block.index = (outer.leftmost block.order).index ∨
        block.index = (outer.leftmost block.order).index + 1 := by
  have hlow : block.order < maxOrder := Nat.lt_trans hlt hfree.1
  have hmem : block ∈ opened.free ↔
      opened.freeArea block.order block.index = false :=
    ⟨fun h => h.2, fun h => ⟨hlow, h⟩⟩
  rw [← hmem, hdescends.free_eq]
  constructor
  · rintro (hold | ⟨-, -, hchip⟩ | hleft)
    · have heq := hmap.apart.unique hold.1 hfree block.first_mem
        (hinside _ block.first_mem)
      exact (hold.2 heq).elim
    · exact .inr hchip
    · exact .inl (congrArg Block.index hleft)
  · rintro (hleft | hright)
    · exact .inr (.inr (Block.mem_unique block.first_mem (by
        rw [Block.mem_def]
        exact (Block.mem_def.mp block.first_mem).trans hleft) rfl))
    · exact .inr (.inl ⟨Nat.le_refl _, hlt, hright⟩)

theorem Region.Balanced.holds_le (hbalanced : region.Balanced)
    (hholds : region.map.Holds block) :
    2 ^ block.order ≤ region.pagesFree := by
  have hsub : blockPages block ⊆ region.map.freePages :=
    fun page hpage => hholds.covers page hpage
  have hle := Set.ncard_le_ncard hsub hbalanced.wellFormed.freePages_finite
  rwa [blockPages_ncard, ← hbalanced.wellFormed.weight_eq,
    ← hbalanced.balanced] at hle

theorem Region.Balanced.afterReserve (hbalanced : region.Balanced)
    (hholds : region.map.Holds block) {map : BpaMap} (hwell : map.WellFormed)
    (hcovers : ∀ page, map.free.Covers page ↔
      region.map.free.Covers page ∧ page ∉ block) :
    Reserves region (region.afterReserve block.order map) block := by
  have hweight := hbalanced.wellFormed.weight_remove hwell hholds.covers hcovers
  have hlt := hbalanced.wellFormed.weight_lt
  have hle := hbalanced.holds_le hholds
  have hdrop : (region.afterReserve block.order map).pagesFree =
      region.pagesFree - 2 ^ block.order :=
    wordSub_of_le hle (hbalanced.balanced ▸ hlt)
  refine ⟨fun _ => hcovers, fun _ => ?_, fun _ => ⟨hwell, rfl, ?_⟩, ?_⟩
  · omega
  · rw [hdrop, hbalanced.balanced]
    change region.map.weight - 2 ^ block.order = map.weight
    omega
  · intro hnone
    exact (hnone _ block.first_mem (hholds.covers _ block.first_mem)).elim

theorem reserveBlock_covers {map : BpaMap} (hapart : map.free.Apart)
    (hfree : block ∈ map.free) (page : Nat) :
    (reserveBlock map block.order block.index).free.Covers page ↔
      map.free.Covers page ∧ page ∉ block := by
  rw [reserveBlock_free]
  exact Family.covers_remove hapart hfree

/-- Inside a free block the reservation is exact if and only if the descent
reaches the block along good hints. -/
theorem pagesReserve_inside_iff (hbalanced : region.Balanced)
    (hfree : outer ∈ region.map.free) (hinside : block.Inside outer) :
    Returns (pagesReserve region block.order block.index)
        (fun result => Reserves region result.2 block) ↔
      block.index ≤ (outer.leftmost block.order).index + 1 ∧
        region.map.Steers outer block.order := by
  have hmap := hbalanced.wellFormed
  have hholds : region.map.Holds block := ⟨outer, hfree, hinside⟩
  have horder := (Block.inside_iff.mp hinside).1
  have hleft := hinside.leftmost_le
  rcases Nat.eq_or_lt_of_le horder with heq | hlt
  · obtain rfl : block = outer :=
      Block.mem_unique block.first_mem (hinside _ block.first_mem) heq
    obtain ⟨address, hcall⟩ :=
      pagesReserve_of_free hbalanced.unlocked hfree.2
    constructor
    · intro _
      refine ⟨by rw [Block.leftmost_self]; omega, ?_⟩
      intro other hle hother
      omega
    · intro _
      exact returns_iff.mpr ⟨_, hcall, hbalanced.afterReserve hholds
        (reserveBlock_wellFormed hmap hfree)
        (reserveBlock_covers hmap.apart hfree)⟩
  · obtain ⟨address, hcall⟩ := pagesReserve_of_inside hmap hbalanced.unlocked
      hfree hinside hlt
    have hdescends := splitDown_descends hmap hfree horder
    have hreached := hdescends.reached_iff hmap hfree hinside hlt
    have hsound := Family.opened_sound hmap.apart hfree
      (Nat.add_sub_cancel' horder)
    by_cases hclear : (splitDown region.map block.order outer.order
        outer.index).freeArea block.order block.index = false
    · have hplace := hreached.mp hclear
      have hmem : block ∈ (splitDown region.map block.order outer.order
          outer.index).free := ⟨Nat.lt_trans hlt hfree.1, hclear⟩
      have hwell := hdescends.reserve_wellFormed_iff hmap hfree hlt hplace
      have hcovers : ∀ page, (reserveBlock (splitDown region.map block.order
          outer.order outer.index) block.order block.index).free.Covers page ↔
            region.map.free.Covers page ∧ page ∉ block := by
        intro page
        rw [reserveBlock_covers (hdescends.free_eq ▸ hsound.1) hmem,
          hdescends.free_eq, hsound.2]
      rw [if_pos hclear] at hcall
      rw [hcall]
      constructor
      · intro hreserves
        exact ⟨by omega, hwell.mp (hreserves.balanced hholds).wellFormed⟩
      · rintro ⟨-, hsteers⟩
        exact hbalanced.afterReserve hholds (hwell.mpr hsteers) hcovers
    · rw [if_neg hclear] at hcall
      rw [hcall]
      constructor
      · intro hreserves
        have hgone := (hreserves.covers hholds block.first).mp
        have hstill := (hsound.2 block.first).mpr
          (hholds.covers _ block.first_mem)
        rw [← hdescends.free_eq] at hstill
        exact ((hgone hstill).2 block.first_mem).elim
      · rintro ⟨hle, -⟩
        exact (hclear (hreached.mpr (by omega))).elim

/-- `pages_reserve` does what it is meant to do for a block that the descent
reaches along good hints, and makes no promise about a block whose free pages
lie in several free blocks; everywhere else it goes wrong. -/
theorem pagesReserve_reserves_iff {region : Region} {order index : Nat}
    (hbalanced : region.Balanced) (horder : order < maxOrder) :
    Returns (pagesReserve region order index)
        (fun result => Reserves region result.2 ⟨order, index⟩) ↔
      region.map.Reaches ⟨order, index⟩ ∨
        ¬ region.map.Holds ⟨order, index⟩ ∧
          ∃ page ∈ (⟨order, index⟩ : Block), region.map.free.Covers page := by
  by_cases hholds : region.map.Holds ⟨order, index⟩
  · obtain ⟨outer, hfree, hinside⟩ := hholds
    have hiff := pagesReserve_inside_iff hbalanced hfree hinside
    constructor
    · exact fun hreturns => .inl ⟨outer, hfree, hinside, hiff.mp hreturns⟩
    · rintro (⟨other, hother, hinsideOther, hreaches⟩ | ⟨hnone, -⟩)
      · have hfirst := Block.first_mem ⟨order, index⟩
        obtain rfl := hbalanced.wellFormed.apart.unique hother hfree
          (hinsideOther _ hfirst) (hinside _ hfirst)
        exact hiff.mpr hreaches
      · exact (hnone ⟨outer, hfree, hinside⟩).elim
  · obtain ⟨address, hcall⟩ := @pagesReserve_of_not_holds region ⟨order, index⟩
      hbalanced.unlocked horder hholds
    simp only at hcall
    rw [hcall]
    constructor
    · intro hreserves
      refine .inr ⟨hholds, ?_⟩
      by_contra hnone
      have hsame := (hreserves.unchanged (fun page hpage hcovers =>
        hnone ⟨page, hpage, hcovers⟩)).1
      exact wordSub_ne (Nat.two_pow_pos order) (two_pow_order_lt horder) hsame
    · rintro (hreaches | ⟨-, page, hpage, hcovers⟩)
      · exact (hholds hreaches.holds).elim
      · refine ⟨fun h => (hholds h).elim, fun h => (hholds h).elim,
          fun h => (hholds h).elim, ?_⟩
        intro hnone
        exact (hnone page hpage hcovers).elim

end

/-- The second page of a free pair is reached. -/
theorem pagesReserve_reserves_second :
    tripleRegion.Balanced ∧ 0 < maxOrder ∧
      Returns (pagesReserve tripleRegion 0 1)
        fun result => Reserves tripleRegion result.2 ⟨0, 1⟩ := by
  refine ⟨tripleRegion_balanced, by decide, ?_⟩
  apply (pagesReserve_reserves_iff tripleRegion_balanced (by decide)).mpr
  refine .inl ⟨⟨1, 0⟩, ⟨by decide, by decide⟩, ?_, by decide, ?_⟩
  · exact Block.inside_iff.mpr ⟨by decide, by decide⟩
  · intro other _ hlt
    obtain rfl : other = 0 := Nat.lt_one_iff.mp hlt
    decide

def quadRegion : Region where
  start := 0x200000
  size := 0x4000
  attrib := 0
  pagesTotal := 4
  pagesFree := 4
  memFull := false
  lock := false
  map := partitionMap 4 maxOrder

/-- The third page of a free block of four is not taken. -/
theorem pagesReserve_misses_third :
    quadRegion.Balanced ∧ 0 < maxOrder ∧ 2 < quadRegion.map.pages / 2 ^ 0 ∧
      quadRegion.map.Holds ⟨0, 2⟩ ∧
      ¬ Returns (pagesReserve quadRegion 0 2)
        fun result => Reserves quadRegion result.2 ⟨0, 2⟩ := by
  have hholds : quadRegion.map.Holds ⟨0, 2⟩ :=
    ⟨⟨2, 0⟩, ⟨by decide, by decide⟩,
      Block.inside_iff.mpr ⟨by decide, by decide⟩⟩
  refine ⟨⟨partitionMap_wellFormed (by decide), rfl,
    (partitionMap_weight 4).symm⟩, by decide, by decide, hholds, ?_⟩
  have hstill : Returns (pagesReserve quadRegion 0 2)
      fun result => result.2.map.freeArea 1 1 = false := by
    decide +kernel
  intro hreserves
  obtain ⟨result, hcall, hfree⟩ := returns_iff.mp hstill
  rw [hcall] at hreserves
  have hcovers : result.2.map.free.Covers 2 :=
    ⟨⟨1, 1⟩, ⟨by decide, hfree⟩, by decide⟩
  exact ((hreserves.covers hholds 2).mp hcovers).2 (by decide)

end Synos.Page

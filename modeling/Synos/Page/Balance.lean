import Synos.Page.Account
import Mathlib.Algebra.BigOperators.Group.Finset.Basic

namespace Synos.Page

open Synos.Data

/-! The counters of a map weighed by the sizes of their blocks, and the number
of free pages. -/

/-- The sum of `pages_free[o] * 2 ^ o` over the orders. -/
def BpaMap.weight (map : BpaMap) : Nat :=
  ∑ order ∈ Finset.range maxOrder, map.pagesFree order * 2 ^ order

def slotPages (bits : Nat → Bool) (order length : Nat) : Set Nat :=
  {page | page / 2 ^ order < length ∧ bits (page / 2 ^ order) = false}

theorem slotPages_finite (bits : Nat → Bool) (order length : Nat) :
    (slotPages bits order length).Finite := by
  refine (Set.finite_lt_nat (length * 2 ^ order)).subset ?_
  intro page hpage
  exact (Nat.div_lt_iff_lt_mul (Nat.two_pow_pos order)).mp hpage.1

theorem slotPages_succ (bits : Nat → Bool) (order length : Nat) :
    slotPages bits order (length + 1) =
      if bits length then slotPages bits order length
      else slotPages bits order length ∪ blockPages ⟨order, length⟩ := by
  cases hbit : bits length with
  | true =>
      ext page
      simp only [if_true, slotPages, Set.mem_ofPred_eq]
      constructor
      · rintro ⟨hlt, hclear⟩
        refine ⟨Nat.lt_of_le_of_ne (Nat.le_of_lt_succ hlt) ?_, hclear⟩
        intro heq
        rw [heq, hbit] at hclear
        cases hclear
      · rintro ⟨hlt, hclear⟩
        exact ⟨Nat.lt_succ_of_lt hlt, hclear⟩
  | false =>
      ext page
      simp only [Bool.false_eq_true, if_false, slotPages, blockPages,
        Set.mem_union, Set.mem_ofPred_eq, Block.mem_def]
      constructor
      · rintro ⟨hlt, hclear⟩
        rcases Nat.eq_or_lt_of_le (Nat.le_of_lt_succ hlt) with heq | hgt
        · exact .inr heq
        · exact .inl ⟨hgt, hclear⟩
      · rintro (⟨hlt, hclear⟩ | heq)
        · exact ⟨Nat.lt_succ_of_lt hlt, hclear⟩
        · exact ⟨heq ▸ Nat.lt_succ_self _, heq ▸ hbit⟩

theorem slotPages_ncard (bits : Nat → Bool) (order length : Nat) :
    (slotPages bits order length).ncard =
      clearCount bits length * 2 ^ order := by
  induction length with
  | zero => simp [slotPages, clearCount]
  | succ length ih =>
      rw [slotPages_succ, clearCount, Nat.count_succ]
      cases hbit : bits length with
      | true => simpa [clearCount] using ih
      | false =>
          have hdisjoint : Disjoint (slotPages bits order length)
              (blockPages ⟨order, length⟩) := by
            rw [Set.disjoint_left]
            rintro page ⟨hlt, -⟩ hpage
            exact Nat.lt_irrefl _ (Block.mem_def.mp hpage ▸ hlt)
          rw [if_neg (by simp), Set.ncard_union_eq hdisjoint
            (slotPages_finite _ _ _) (blockPages_finite _), ih,
            blockPages_ncard, Nat.add_mul]
          simp [clearCount]

def BpaMap.pagesBelow (map : BpaMap) (limit : Nat) : Set Nat :=
  {page | ∃ block ∈ map.free, block.order < limit ∧ page ∈ block}

theorem BpaMap.pagesBelow_succ {map : BpaMap} {limit : Nat}
    (hlimit : limit < maxOrder) (hcounted : (map.slots limit).Counted) :
    map.pagesBelow (limit + 1) = map.pagesBelow limit ∪
      slotPages (map.freeArea limit) limit (freeAreaLength map.pages limit) := by
  ext page
  constructor
  · rintro ⟨⟨order, index⟩, hfree, hlt, hpage⟩
    rcases Nat.eq_or_lt_of_le (Nat.le_of_lt_succ hlt) with heq | hgt
    · simp only at heq
      subst heq
      have hindex : page / 2 ^ order = index := hpage
      have hclear : map.freeArea order index = false := hfree.2
      refine .inr ⟨?_, ?_⟩
      · rw [hindex]
        exact hcounted.lt_length hclear
      · rw [hindex]
        exact hclear
    · exact .inl ⟨_, hfree, hgt, hpage⟩
  · rintro (⟨block, hfree, hlt, hpage⟩ | ⟨-, hclear⟩)
    · exact ⟨block, hfree, Nat.lt_succ_of_lt hlt, hpage⟩
    · exact ⟨⟨limit, page / 2 ^ limit⟩, ⟨hlimit, hclear⟩,
        Nat.lt_succ_self _, Block.mem_def.mpr rfl⟩

theorem BpaMap.pagesBelow_ncard {map : BpaMap}
    (hcounted : ∀ order < maxOrder, (map.slots order).Counted)
    (hapart : map.free.Apart) {limit : Nat} (hlimit : limit ≤ maxOrder) :
    (map.pagesBelow limit).Finite ∧
      (map.pagesBelow limit).ncard =
        ∑ order ∈ Finset.range limit, map.pagesFree order * 2 ^ order := by
  induction limit with
  | zero =>
      have hempty : map.pagesBelow 0 = ∅ := by
        ext page
        simp [BpaMap.pagesBelow]
      simp [hempty]
  | succ limit ih =>
      obtain ⟨hfinite, hcard⟩ := ih (by omega)
      have hslots := hcounted limit (by omega)
      have hdisjoint : Disjoint (map.pagesBelow limit)
          (slotPages (map.freeArea limit) limit
            (freeAreaLength map.pages limit)) := by
        rw [Set.disjoint_left]
        rintro page ⟨block, hfree, hlt, hpage⟩ ⟨-, hclear⟩
        have heq := hapart.unique hfree
          (show (⟨limit, page / 2 ^ limit⟩ : Block) ∈ map.free from
            ⟨by simp only; omega, hclear⟩)
          hpage (Block.mem_def.mpr rfl)
        rw [heq] at hlt
        exact Nat.lt_irrefl _ hlt
      rw [map.pagesBelow_succ (by omega) hslots]
      refine ⟨hfinite.union (slotPages_finite _ _ _), ?_⟩
      rw [Set.ncard_union_eq hdisjoint hfinite (slotPages_finite _ _ _), hcard,
        slotPages_ncard, Finset.sum_range_succ]
      exact congrArg (fun count => _ + count * 2 ^ limit) hslots.count_eq.symm

/-- Exact counters of disjoint blocks add up to the number of free pages. -/
theorem BpaMap.WellFormed.weight_eq {map : BpaMap} (hmap : map.WellFormed) :
    map.weight = map.freePages.ncard := by
  have hall : map.freePages = map.pagesBelow maxOrder := by
    ext page
    constructor
    · rintro ⟨block, hfree, hpage⟩
      exact ⟨block, hfree, hfree.1, hpage⟩
    · rintro ⟨block, hfree, -, hpage⟩
      exact ⟨block, hfree, hpage⟩
  rw [hall, (BpaMap.pagesBelow_ncard (fun order horder =>
    (hmap.slots_sound order horder).toCounted) hmap.apart
    (Nat.le_refl _)).2, BpaMap.weight]

/-- A well-formed region whose count of free pages is the weight of its map. -/
structure Region.Balanced (region : Region) : Prop where
  wellFormed : region.map.WellFormed
  unlocked : region.lock = false
  balanced : region.pagesFree = region.map.weight

/-! Setting up a region. -/

theorem partitionMap_weight (pages : Nat) :
    (partitionMap pages maxOrder).weight = pages := by
  simp [BpaMap.weight, partitionMap, maxOrder, Finset.sum_range_succ]
  omega

/-- `region_map` cuts the pages into free blocks, each page into exactly one
block, and leaves exact counters and hints and no two free buddies. -/
theorem regionMap_partition (region : Region) (pages : Nat)
    (hlock : region.lock = false) :
    Returns (regionMap region pages) fun result =>
      (∀ page < pages, ∃! block, block ∈ result.map.free ∧ page ∈ block) ∧
      (∀ page, pages ≤ page → ¬ result.map.free.Covers page) ∧
      (∀ order < maxOrder,
        result.map.pagesFree order =
            clearCount (result.map.freeArea order) (pages / 2 ^ order) ∧
          (∀ index, pages / 2 ^ order ≤ index →
            result.map.freeArea order index = true) ∧
          (0 < result.map.pagesFree order →
            result.map.freeArea order (result.map.nextFreePage order) = false ∧
              ∀ index < result.map.nextFreePage order,
                result.map.freeArea order index = true)) ∧
      result.map.free.Coalesced (maxOrder - 1) ∧
      result.map.weight = pages := by
  rw [returns_iff]
  refine ⟨_, regionMap_eq region pages hlock, ?_, ?_, ?_,
    partitionMap_coalesced pages, partitionMap_weight pages⟩
  · intro page hlt
    obtain ⟨block, hfree, hpage⟩ := partitionMap_covers.mpr hlt
    refine ⟨block, ⟨hfree, hpage⟩, ?_⟩
    rintro other ⟨hother, hpageOther⟩
    exact (partitionMap_apart pages).unique hother hfree hpageOther hpage
  · intro page hle hcovers
    exact Nat.not_lt_of_le hle (partitionMap_covers.mp hcovers)
  · intro order horder
    have hsound := @partitionMap_slots_sound pages order horder
    have hlength : ((partitionMap pages maxOrder).slots order).length =
        pages / 2 ^ order := freeAreaLength_eq pages order
    refine ⟨?_, ?_, ?_⟩
    · rw [← hlength]
      exact hsound.count_eq
    · intro index hle
      exact hsound.padding index (hlength ▸ hle)
    · intro hpos
      exact ⟨hsound.hint_clear hpos, hsound.below_hint hpos⟩

theorem regionMap_partition_seven :
    (⟨0x200000, 0x7000, 0, 0, 0, true, false, blankMap 0⟩ : Region).lock =
        false ∧
      Returns (regionMap
          ⟨0x200000, 0x7000, 0, 0, 0, true, false, blankMap 0⟩ 7)
        fun result => result.map.weight = 7 :=
  ⟨rfl, by
    obtain ⟨result, hcall, -, -, -, -, hweight⟩ :=
      returns_iff.mp (regionMap_partition
        ⟨0x200000, 0x7000, 0, 0, 0, true, false, blankMap 0⟩ 7 rfl)
    exact returns_iff.mpr ⟨result, hcall, hweight⟩⟩

/-! Allocating from an arbitrary well-formed region. -/

theorem Region.address_leftmost (region : Region) {block : Block} {order : Nat}
    (horder : order ≤ block.order) :
    region.address (block.leftmost order) =
      word (region.start + block.first * pageSize) := by
  have hfirst := Block.leftmost_first block horder
  simp only [Block.first, Block.leftmost] at hfirst
  simp only [Region.address, Block.leftmost, blockOrderSize, Block.first]
  rw [← hfirst, Nat.add_comm]
  congr 2
  ring

theorem BpaMap.WellFormed.weight_remove {map after : BpaMap}
    (hmap : map.WellFormed) (hafter : after.WellFormed) {block : Block}
    (hfree : ∀ page ∈ block, map.free.Covers page)
    (hcovers : ∀ page, after.free.Covers page ↔
      map.free.Covers page ∧ page ∉ block) :
    after.weight + 2 ^ block.order = map.weight := by
  rw [hafter.weight_eq, hmap.weight_eq]
  exact hmap.ncard_removed hfree hcovers

theorem BpaMap.WellFormed.weight_add {map after : BpaMap}
    (hmap : map.WellFormed) (hafter : after.WellFormed) {block : Block}
    (hnot : ∀ page ∈ block, ¬ map.free.Covers page)
    (hcovers : ∀ page, after.free.Covers page ↔
      map.free.Covers page ∨ page ∈ block) :
    after.weight = map.weight + 2 ^ block.order := by
  rw [hafter.weight_eq, hmap.weight_eq]
  exact hmap.ncard_added hnot hcovers

theorem Takes.weight {region : Region} {order : Nat} {block : Block}
    {map : BpaMap} (hmap : region.map.WellFormed)
    (htakes : Takes region order block map) :
    map.weight + 2 ^ order = region.map.weight := by
  rw [← htakes.order_eq]
  exact hmap.weight_remove htakes.wellFormed htakes.was_free htakes.covers

theorem BpaMap.WellFormed.weight_lt {map : BpaMap} (hmap : map.WellFormed) :
    map.weight < wordSize := by
  rw [hmap.weight_eq]
  exact hmap.freePages_ncard_lt

theorem Takes.balanced {region : Region} {order : Nat} {block : Block}
    {map : BpaMap} (hbalanced : region.Balanced)
    (htakes : Takes region order block map) :
    (region.afterAlloc order map).Balanced := by
  refine ⟨htakes.wellFormed, rfl, ?_⟩
  have hweight := htakes.weight hbalanced.wellFormed
  have hlt := hbalanced.wellFormed.weight_lt
  simp only [Region.afterAlloc, hbalanced.balanced]
  rw [wordSub_of_le (by omega) hlt]
  omega

/-- `block` is the lowest free block of the lowest order from `order` on that
has a free block. -/
structure BpaMap.Lowest (map : BpaMap) (order : Nat) (block : Block) :
    Prop where
  free : block ∈ map.free
  le_order : order ≤ block.order
  lowest : ∀ other ∈ map.free, order ≤ other.order →
    block.order < other.order ∨
      block.order = other.order ∧ block.index ≤ other.index

theorem BpaMap.Serves.lowest {map : BpaMap} (hmap : map.WellFormed)
    {order top : Nat} (hserves : map.Serves order top) :
    map.Lowest order ⟨top, map.nextFreePage top⟩ := by
  refine ⟨hmap.hint_mem hserves.top_lt hserves.count_pos, hserves.le_top, ?_⟩
  intro other hother hle
  rcases Nat.lt_trichotomy other.order top with hlt | heq | hgt
  · exact (hmap.not_free_of_empty (hserves.count_zero _ hle hlt) rfl
      hother).elim
  · refine .inr ⟨heq.symm, ?_⟩
    have hclear := hother.2
    rw [heq] at hclear
    exact (hmap.slots_sound top hserves.top_lt).hint_le hclear
  · exact .inl hgt

/-- From any well-formed region `pages_alloc` takes the first pages of the
lowest sufficient free block and cuts the rest of it into one block of each
order in between; without such a block it only marks the region full. -/
theorem pagesAlloc_lowest (region : Region) (order : Nat)
    (hbalanced : region.Balanced) (horder : order < maxOrder) :
    ((∃ block ∈ region.map.free, order ≤ block.order) →
      ∃ block, region.map.Lowest order block ∧
        Returns (pagesAlloc region order) fun (address, result) =>
          address = word (region.start + block.first * pageSize) ∧
          result.Balanced ∧
          (∀ page, result.map.free.Covers page ↔
            region.map.free.Covers page ∧
              ¬ (block.first ≤ page ∧ page < block.first + 2 ^ order)) ∧
          ∀ other, other ∈ result.map.free ↔
            (other ∈ region.map.free ∧ other ≠ block) ∨
              (order ≤ other.order ∧ other.order < block.order ∧
                other.index =
                  block.index * 2 ^ (block.order - other.order) + 1)) ∧
      ((¬ ∃ block ∈ region.map.free, order ≤ block.order) →
        pagesAlloc region order = .ok (0, { region with memFull := true })) := by
  have hmap := hbalanced.wellFormed
  constructor
  · rintro ⟨block, hfree, hle⟩
    cases region.map.serves_or_empty order with
    | inr hempty =>
        exact (hmap.not_free_of_empty (hempty _ hle hfree.1) rfl hfree).elim
    | inl hserves =>
        obtain ⟨top, hserves⟩ := hserves
        obtain ⟨map, hcall, hwell, hpages, hcarved⟩ :=
          pagesAlloc_of_serves hmap hbalanced.unlocked hserves
        have htakes := hserves.takes hmap hcall hwell hpages hcarved
        refine ⟨_, hserves.lowest hmap, returns_iff.mpr ⟨_, hcall, ?_,
          htakes.balanced hbalanced, ?_, ?_⟩⟩
        · exact region.address_leftmost hserves.le_top
        · intro page
          rw [← Block.mem_leftmost hserves.le_top]
          exact htakes.covers page
        · intro other
          simp only [Region.afterAlloc, hcarved]
          exact Iff.rfl
  · intro hnone
    refine pagesAlloc_of_empty hbalanced.unlocked horder ?_
    intro other hle hlt
    by_contra hpos
    exact hnone ⟨_, hmap.hint_mem hlt (Nat.pos_of_ne_zero hpos), hle⟩

def tripleRegion : Region where
  start := 0x200000
  size := 0x3000
  attrib := 0
  pagesTotal := 3
  pagesFree := 3
  memFull := false
  lock := false
  map := partitionMap 3 maxOrder

theorem tripleRegion_balanced : tripleRegion.Balanced :=
  ⟨partitionMap_wellFormed (by decide), rfl, (partitionMap_weight 3).symm⟩

def sixRegion : Region :=
  { tripleRegion with
    size := 0x6000, pagesTotal := 6, pagesFree := 6, map := partitionMap 6 maxOrder }

theorem sixRegion_balanced : sixRegion.Balanced :=
  ⟨partitionMap_wellFormed (by decide), rfl, (partitionMap_weight 6).symm⟩

/-- A request for one page splits the block of two. -/
theorem pagesAlloc_lowest_six :
    sixRegion.Balanced ∧
      Returns (pagesAlloc sixRegion 0) fun (address, result) =>
        address = 0x204000 ∧ result.Balanced ∧
          ⟨0, 5⟩ ∈ result.map.free ∧ ⟨1, 2⟩ ∉ result.map.free := by
  refine ⟨sixRegion_balanced, ?_⟩
  obtain ⟨block, hlowest, hreturns⟩ :=
    (pagesAlloc_lowest sixRegion 0 sixRegion_balanced (by decide)).1
      ⟨⟨1, 2⟩, ⟨by decide, by decide⟩, by decide⟩
  obtain ⟨⟨address, result⟩, hcall, haddress, hresult, -, hfree⟩ :=
    returns_iff.mp hreturns
  obtain rfl : block = ⟨1, 2⟩ := by
    obtain ⟨horder, hin⟩ := mem_partitionMap_free.mp hlowest.free
    have hle := hlowest.lowest ⟨1, 2⟩ ⟨by decide, by decide⟩ (Nat.zero_le _)
    have hbounds := inPartition_bounds hin block.first_mem
    have hmax : maxOrder = 10 := rfl
    obtain ⟨order, index⟩ := block
    simp only [Block.first] at hle hbounds
    rcases order with _ | _ | order
    · omega
    · obtain rfl : index = 2 := by omega
      rfl
    · omega
  refine returns_iff.mpr ⟨_, hcall, haddress, hresult, (hfree _).mpr ?_, ?_⟩
  · exact .inr (by decide)
  · rw [hfree]
    rintro (⟨-, hne⟩ | ⟨-, hlt, -⟩)
    · exact hne rfl
    · exact Nat.lt_irrefl _ hlt

end Synos.Page

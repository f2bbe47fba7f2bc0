import Synos.Page.Split

namespace Synos.Page

open Synos.Data

/-! Allocation of a block from a region. -/

def allocNextFree (region : Region) (order : Nat) : Nat × Region :=
  let offset := region.map.nextFreePage order
  let map := region.map.blockSet order offset
  let physAddr := word (blockOrderSize order * offset + region.start)
  let region := { region with map := dropNextFreePage map order }
  let region :=
    if region.pagesFree ≤ 2 ^ order then outOfMem region else region
  let region :=
    { region with pagesFree := wordSub region.pagesFree (2 ^ order) }
  (physAddr, spinlockUnlock region)

def pagesAlloc (region : Region) (order : Nat) : Except Fault (Nat × Region) :=
  if maxOrder ≤ order then
    .ok (0, region)
  else
    match spinlockLock region with
    | .error fault => .error fault
    | .ok region =>
        if 0 < region.map.pagesFree order then
          .ok (allocNextFree region order)
        else if order = maxOrder - 1 then
          .ok (0, spinlockUnlock (outOfMem region))
        else
          let region := blockSplit region (order + 1)
          if region.map.pagesFree order = 0 then
            .ok (0, spinlockUnlock (outOfMem region))
          else
            -- `goto check_ord`, whose test now succeeds
            .ok (allocNextFree region order)

def pageAlloc (region : Region) : Except Fault (Nat × Region) :=
  pagesAlloc region 0

def Region.address {Map : Type} (region : Region Map) (block : Block) : Nat :=
  word (blockOrderSize block.order * block.index + region.start)

theorem allocNextFree_map (region : Region) (order : Nat) :
    (allocNextFree region order).2.map =
      dropNextFreePage (region.map.blockSet order
        (region.map.nextFreePage order)) order := by
  unfold allocNextFree outOfMem spinlockUnlock
  simp only
  split <;> rfl

def Region.afterAlloc {Map : Type} (region : Region Map) (order : Nat)
    (map : Map) : Region Map :=
  { region with
    map := map
    pagesFree := wordSub region.pagesFree (2 ^ order)
    memFull := region.memFull || decide (region.pagesFree ≤ 2 ^ order)
    lock := false }

theorem allocNextFree_eq (region : Region) (order : Nat) :
    allocNextFree region order =
      (region.address ⟨order, region.map.nextFreePage order⟩,
        region.afterAlloc order (allocNextFree region order).2.map) := by
  simp only [allocNextFree, Region.address, Region.afterAlloc, outOfMem,
    spinlockUnlock]
  split
  · rename_i hle
    simp [hle]
  · rename_i hgt
    simp [hgt]

theorem takeNextFree_wellFormed {map : BpaMap} (hmap : map.WellFormed)
    {order : Nat} (horder : order < maxOrder)
    (hpos : 0 < map.pagesFree order) :
    (dropNextFreePage (map.blockSet order (map.nextFreePage order))
      order).WellFormed := by
  refine ⟨?_, ?_, ?_⟩
  · rw [dropNextFreePage_pages]
    exact hmap.pages_lt
  · intro other hother
    by_cases hself : other = order
    · subst hself
      refine (dropNextFreePage_sound (hmap.slots_sound other horder) hpos
        (hmap.count_lt horder) ?_).1
      simp [BpaMap.slots]
    · obtain ⟨hfree, hnext⟩ := dropNextFreePage_of_ne
        (map.blockSet order (map.nextFreePage order)) hself
      have hslots : (dropNextFreePage (map.blockSet order
          (map.nextFreePage order)) order).slots other = map.slots other := by
        simp only [BpaMap.slots, hfree, hnext, dropNextFreePage_freeArea,
          dropNextFreePage_pages]
        rw [writeBlock_freeArea_of_ne _ _ _ _ hself]
        rfl
      rw [hslots]
      exact hmap.slots_sound other hother
  · rw [free_congr (dropNextFreePage_freeArea _ _), free_blockSet]
    exact hmap.apart.remove

/-- The order the allocator serves a request from: the lowest one from `order`
on that has a free block. -/
structure BpaMap.Serves (map : BpaMap) (order top : Nat) : Prop where
  le_top : order ≤ top
  top_lt : top < maxOrder
  count_pos : 0 < map.pagesFree top
  count_zero : ∀ other, order ≤ other → other < top → map.pagesFree other = 0

theorem BpaMap.serves_or_empty (map : BpaMap) (order : Nat) :
    (∃ top, map.Serves order top) ∨
      ∀ other, order ≤ other → other < maxOrder → map.pagesFree other = 0 := by
  by_cases h : ∃ top, order ≤ top ∧ top < maxOrder ∧ 0 < map.pagesFree top
  · obtain ⟨hle, hlt, hpos⟩ := Nat.find_spec h
    refine .inl ⟨Nat.find h, hle, hlt, hpos, ?_⟩
    intro other hother hbelow
    have := Nat.find_min h hbelow
    by_contra hne
    exact this ⟨hother, by omega, by omega⟩
  · right
    intro other hother hlt
    by_contra hne
    exact h ⟨other, hother, hlt, by omega⟩

variable {region : Region} {order top : Nat}

theorem pagesAlloc_of_empty (hlock : region.lock = false)
    (horder : order < maxOrder)
    (hempty : ∀ other, order ≤ other → other < maxOrder →
      region.map.pagesFree other = 0) :
    pagesAlloc region order = .ok (0, outOfMem region) := by
  have hzero := hempty order (Nat.le_refl _) horder
  simp only [pagesAlloc, if_neg (Nat.not_le_of_lt horder), spinlockLock, hlock,
    Bool.false_eq_true, if_false, hzero, Nat.lt_irrefl]
  by_cases htop : order = maxOrder - 1
  · simp [htop, outOfMem, spinlockUnlock, hlock]
  · have hsplit := @blockSplit_of_none { region with lock := true }
      (maxOrder - 1 - (order + 1)) (order + 1) (Nat.succ_pos _)
      (by simp only [maxOrder] at *; omega)
      (fun other hle hlt => hempty other (by omega) hlt)
    rw [if_neg htop, hsplit]
    simp [outOfMem, spinlockUnlock, hzero, hlock]

theorem pagesAlloc_of_serves (hmap : region.map.WellFormed)
    (hlock : region.lock = false) (hserves : region.map.Serves order top) :
    ∃ map : BpaMap,
      pagesAlloc region order =
        .ok (region.address
            ((⟨top, region.map.nextFreePage top⟩ : Block).leftmost order),
          region.afterAlloc order map) ∧
      map.WellFormed ∧ map.pages = region.map.pages ∧
      map.free = region.map.free.carved
        ⟨top, region.map.nextFreePage top⟩ order := by
  obtain ⟨hle, htop, hpos, hempty⟩ := hserves
  have hfree := hmap.hint_mem htop hpos
  have horder : order < maxOrder := by omega
  simp only [pagesAlloc, if_neg (Nat.not_le_of_lt horder), spinlockLock, hlock,
    Bool.false_eq_true, if_false]
  rcases Nat.eq_or_lt_of_le hle with heq | hlt
  · subst heq
    refine ⟨_, ?_, takeNextFree_wellFormed hmap horder hpos,
      dropNextFreePage_pages _ _, ?_⟩
    · rw [if_pos hpos, allocNextFree_eq, allocNextFree_map,
        Block.leftmost_self ⟨order, _⟩]
      rfl
    · rw [free_congr (dropNextFreePage_freeArea _ _), free_blockSet,
        ← Family.opened_remove hmap.apart hfree (Nat.le_refl _),
        Family.opened_self hfree, Block.leftmost_self]
  · have hzero := hempty order (Nat.le_refl _) hlt
    obtain ⟨map, hsplit, hwell, hpages, hopened⟩ :=
      @blockSplit_of_some { region with lock := true } hmap
        (top - (order + 1)) (order + 1) top (Nat.succ_pos _) (by omega) htop
        hpos (fun other hother => hempty other (by omega))
    rw [Nat.add_sub_cancel] at hopened
    obtain ⟨hcount, hhint⟩ :=
      hint_of_opened hmap hwell hlt htop hzero hopened
    refine ⟨_, ?_, takeNextFree_wellFormed hwell horder hcount, ?_, ?_⟩
    · rw [if_neg (by omega), if_neg (by omega), hsplit]
      rw [if_neg (Nat.ne_of_gt hcount), allocNextFree_eq, allocNextFree_map,
        ← hhint]
      rfl
    · rw [dropNextFreePage_pages]
      exact hpages
    · rw [free_congr (dropNextFreePage_freeArea _ _), free_blockSet, hhint,
        hopened, Family.opened_remove hmap.apart hfree hle]

/-- The outcome of a successful allocation at `order`: `block` leaves the free
pages and `map` is what remains. -/
structure Takes (region : Region) (order : Nat) (block : Block)
    (map : BpaMap) : Prop where
  order_eq : block.order = order
  call : pagesAlloc region order =
    .ok (region.address block, region.afterAlloc order map)
  wellFormed : map.WellFormed
  pages_eq : map.pages = region.map.pages
  was_free : ∀ point ∈ block, region.map.free.Covers point
  covers : ∀ point, map.free.Covers point ↔
    region.map.free.Covers point ∧ point ∉ block
  coalesced : region.map.free.Coalesced (maxOrder - 1) →
    map.free.Coalesced (maxOrder - 1)

theorem BpaMap.Serves.takes (hmap : region.map.WellFormed)
    (hserves : region.map.Serves order top) {map : BpaMap}
    (hcall : pagesAlloc region order =
      .ok (region.address
          ((⟨top, region.map.nextFreePage top⟩ : Block).leftmost order),
        region.afterAlloc order map))
    (hwell : map.WellFormed) (hpages : map.pages = region.map.pages)
    (hcarved : map.free = region.map.free.carved
      ⟨top, region.map.nextFreePage top⟩ order) :
    Takes region order
      ((⟨top, region.map.nextFreePage top⟩ : Block).leftmost order) map := by
  have hfree := hmap.hint_mem hserves.top_lt hserves.count_pos
  refine ⟨rfl, hcall, hwell, hpages, ?_, ?_, ?_⟩
  · intro point hpoint
    exact ⟨_, hfree, Block.leftmost_subset hserves.le_top hpoint⟩
  · intro point
    rw [hcarved]
    exact Family.covers_carved hmap.apart hfree hserves.le_top
  · intro hcoalesced
    rw [hcarved]
    apply hcoalesced.carved
    intro other hother hle
    by_contra hlt
    exact hmap.not_free_of_empty
      (hserves.count_zero other.order hle (by simp only at hlt; omega)) rfl
      hother

theorem pagesAlloc_takes (hmap : region.map.WellFormed)
    (hlock : region.lock = false) (hserves : region.map.Serves order top) :
    ∃ map, Takes region order
      ((⟨top, region.map.nextFreePage top⟩ : Block).leftmost order) map := by
  obtain ⟨map, hcall, hwell, hpages, hcarved⟩ :=
    pagesAlloc_of_serves hmap hlock hserves
  exact ⟨map, hserves.takes hmap hcall hwell hpages hcarved⟩

/-- An allocation either finds every order from `order` on empty and returns
zero, or takes a block. -/
theorem pagesAlloc_cases (hmap : region.map.WellFormed)
    (hlock : region.lock = false) (horder : order < maxOrder) :
    (pagesAlloc region order = .ok (0, outOfMem region) ∧
      ∀ other, order ≤ other → other < maxOrder →
        region.map.pagesFree other = 0) ∨
      ∃ block map, Takes region order block map := by
  cases region.map.serves_or_empty order with
  | inl hserves =>
      obtain ⟨top, hserves⟩ := hserves
      obtain ⟨map, htakes⟩ := pagesAlloc_takes hmap hlock hserves
      exact .inr ⟨_, map, htakes⟩
  | inr hempty => exact .inl ⟨pagesAlloc_of_empty hlock horder hempty, hempty⟩

theorem BpaMap.WellFormed.inside {map : BpaMap} (hmap : map.WellFormed)
    {block : Block} (hfree : ∀ point ∈ block, map.free.Covers point) :
    (block.index + 1) * 2 ^ block.order ≤ map.pages := by
  have hpos := Nat.two_pow_pos block.order
  have hlast : block.first + 2 ^ block.order - 1 ∈ block :=
    Block.mem_iff.mpr ⟨by omega, by omega⟩
  have hlt := hmap.lt_pages (hfree _ hlast)
  rw [Nat.add_mul, Nat.one_mul]
  simp only [Block.first] at hlt
  omega

end Synos.Page

import Synos.Page.Free
import Synos.Page.Partition

namespace Synos.Page

open Synos.Data

/-! When freeing a block gives back exactly its pages. -/

/-- The free pages have grown by exactly the pages of `block`, each of them lies
in one free block, and every counter is exact. -/
structure ReturnsBlock (before after : Region) (block : Block) : Prop where
  pages : after.map.pages = before.map.pages
  covers : ∀ point, after.map.free.Covers point ↔
    before.map.free.Covers point ∨ point ∈ block
  apart : after.map.free.Apart
  counted : ∀ order < maxOrder, (after.map.slots order).Counted
  pagesFree : after.pagesFree = wordAdd before.pagesFree (2 ^ block.order)

/-- The pages of the map lie inside the region and the region inside the address
space. -/
structure Region.Fits (region : Region) : Prop where
  pages_le : region.map.pages * pageSize ≤ region.size
  size_le : region.start + region.size ≤ wordSize

section

variable {region : Region} {block : Block}

theorem Region.Fits.addressable (hfits : region.Fits) : region.Addressable := by
  have := hfits.pages_le
  have := hfits.size_le
  unfold Region.Addressable
  omega

/-- The range check lets every block of the region through, unless the end of
the region wraps to zero. -/
theorem Region.Fits.contains_address (hfits : region.Fits)
    (hinside : (block.index + 1) * 2 ^ block.order ≤ region.map.pages) :
    region.Contains (region.address block) ↔
      region.start + region.size < wordSize := by
  have hlast := Region.last_le region hinside
  have hpages := hfits.pages_le
  have hpage : 0 < pageSize * 2 ^ block.order :=
    Nat.mul_pos (by decide) (Nat.two_pow_pos block.order)
  rw [Region.Contains, hfits.addressable.address_eq hinside]
  rw [Nat.mul_add] at hlast
  constructor
  · intro hcontains
    by_contra hge
    have hwrap : region.start + region.size = wordSize := by
      have := hfits.size_le
      omega
    have hzero : wordAdd region.start region.size = 0 := by
      rw [wordAdd, hwrap, word, Nat.mod_self]
    have := hcontains.2
    omega
  · intro hlt
    rw [wordAdd_of_lt hlt]
    omega

/-- The offset counts pages, so it names the freed block only at order zero or
at the start of the region. -/
theorem first_eq_index_iff :
    block.first = block.index ↔ block.order = 0 ∨ block.index = 0 := by
  constructor
  · intro hfirst
    by_contra hboth
    have htwo : 2 ≤ 2 ^ block.order := by
      calc 2 = 2 ^ 1 := rfl
        _ ≤ 2 ^ block.order :=
          Nat.pow_le_pow_right (by decide) (by omega)
    have := Nat.mul_le_mul_left block.index htwo
    simp only [Block.first] at hfirst
    omega
  · intro h
    cases h with
    | inl hzero => simp [Block.first, hzero]
    | inr hzero => simp [Block.first, hzero]

theorem pagesFree_returnsBlock (hmap : region.map.WellFormed)
    (hlock : region.lock = false) (hfits : region.Fits)
    (hheld : region.map.Held block)
    (hindex : block.order = 0 ∨ block.index = 0)
    (hend : region.start + region.size < wordSize) :
    ∃ after, pagesFree region (region.address block) block.order = .ok after ∧
      ReturnsBlock region after block := by
  have hoffset : region.offsetOf (region.address block) = block.index := by
    rw [hfits.addressable.offsetOf_address hheld.inside, first_eq_index_iff.mpr hindex]
  have hcall := pagesFree_of_set hlock
    ((hfits.contains_address hheld.inside).mpr hend)
    (by
      rw [hoffset]
      exact hheld.set)
  rw [hoffset] at hcall
  obtain ⟨hapart, hcounted⟩ := returnBlock_counted hmap hheld
  exact ⟨_, hcall, returnBlock_pages _ hheld.order_lt,
    returnBlock_covers _ hheld.order_lt, hapart, hcounted, rfl⟩

/-- At any other index the first page of the block is not free afterwards. -/
theorem pagesFree_not_returnsBlock (hlock : region.lock = false)
    (hfits : region.Fits) (hheld : region.map.Held block)
    (h : ¬ ((block.order = 0 ∨ block.index = 0) ∧
      region.start + region.size < wordSize)) {after : Region}
    (hcall : pagesFree region (region.address block) block.order = .ok after) :
    ¬ ReturnsBlock region after block := by
  intro hreturns
  have hfirst := (hreturns.covers block.first).mpr (.inr block.first_mem)
  by_cases hset : region.Contains (region.address block) ∧
      region.map.freeArea block.order
        (region.offsetOf (region.address block)) = true
  · rw [pagesFree_of_set hlock hset.1 hset.2] at hcall
    cases hcall
    have hend := (hfits.contains_address hheld.inside).mp hset.1
    rw [hfits.addressable.offsetOf_address hheld.inside] at hfirst
    have hcovers := (returnBlock_covers region.map hheld.order_lt _).mp hfirst
    cases hcovers with
    | inl hfree => exact hheld.not_free _ block.first_mem hfree
    | inr hwrong =>
        have hself : block.first / 2 ^ block.order = block.index :=
          Block.mem_def.mp block.first_mem
        have hindex : block.first / 2 ^ block.order = block.first :=
          Block.mem_def.mp hwrong
        exact h ⟨first_eq_index_iff.mp (hindex.symm.trans hself), hend⟩
  · rw [pagesFree_of_not_set hlock hset] at hcall
    cases hcall
    exact hheld.not_free _ block.first_mem hfirst

end

/-- `pages_free` gives back exactly the block it is passed if and only if the
block is a single page or the first block of the region, and the end of the
region does not wrap. -/
theorem pagesFree_returnsBlock_iff {region : Region} {block : Block}
    (hmap : region.map.WellFormed) (hlock : region.lock = false)
    (hfits : region.Fits) (hheld : region.map.Held block) :
    (∃ after,
      pagesFree region (region.address block) block.order = .ok after ∧
        ReturnsBlock region after block) ↔
      (block.order = 0 ∨ block.index = 0) ∧
        region.start + region.size < wordSize := by
  constructor
  · intro hreturns
    obtain ⟨after, hcall, hblock⟩ := hreturns
    by_contra h
    exact pagesFree_not_returnsBlock hlock hfits hheld h hcall hblock
  · intro h
    exact pagesFree_returnsBlock hmap hlock hfits hheld h.1 h.2

def exhaustedRegion : Region where
  start := 0x200000
  size := 0x4000
  attrib := 0
  pagesTotal := 4
  pagesFree := 0
  memFull := true
  lock := false
  map := blankMap 4

theorem exhaustedRegion_fits : exhaustedRegion.Fits :=
  ⟨by decide, by decide⟩

theorem exhaustedRegion_held {block : Block} (horder : block.order < maxOrder)
    (hinside : (block.index + 1) * 2 ^ block.order ≤ 4) :
    exhaustedRegion.map.Held block :=
  ⟨horder, hinside, fun point _ => blankMap_not_covers 4 point⟩

theorem pagesFree_returns_first_pair :
    ∃ after,
      pagesFree exhaustedRegion (exhaustedRegion.address ⟨1, 0⟩) 1 =
        .ok after ∧
      ReturnsBlock exhaustedRegion after ⟨1, 0⟩ :=
  (pagesFree_returnsBlock_iff (blankMap_wellFormed (by decide)) rfl
    exhaustedRegion_fits
    (exhaustedRegion_held (by decide) (by decide))).mpr
    ⟨.inr rfl, by decide⟩

/-- The second pair of the region is given back at the offset of its first page,
which is the index of a pair past the end. -/
theorem pagesFree_loses_second_pair :
    exhaustedRegion.map.WellFormed ∧ exhaustedRegion.lock = false ∧
      exhaustedRegion.Fits ∧ exhaustedRegion.map.Held ⟨1, 1⟩ ∧
      ¬ ∃ after,
        pagesFree exhaustedRegion (exhaustedRegion.address ⟨1, 1⟩) 1 =
          .ok after ∧
        ReturnsBlock exhaustedRegion after ⟨1, 1⟩ := by
  have hheld : exhaustedRegion.map.Held ⟨1, 1⟩ :=
    exhaustedRegion_held (by decide) (by decide)
  refine ⟨blankMap_wellFormed (by decide), rfl, exhaustedRegion_fits, hheld, ?_⟩
  intro hreturns
  obtain ⟨after, hcall, hblock⟩ := hreturns
  exact pagesFree_not_returnsBlock rfl exhaustedRegion_fits hheld (by decide)
    hcall hblock

end Synos.Page

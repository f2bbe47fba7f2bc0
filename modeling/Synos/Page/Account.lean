import Synos.Page.CallRun
import Mathlib.Data.Set.Card
import Mathlib.Order.Interval.Finset.Nat

namespace Synos.Page

open Synos.Data

/-! A region whose account of free pages is exact, and what allocating from it
and freeing into it make of the account. -/

def BpaMap.freePages (map : BpaMap) : Set Nat := {page | map.free.Covers page}

theorem BpaMap.WellFormed.freePages_finite {map : BpaMap}
    (hmap : map.WellFormed) : map.freePages.Finite :=
  (Set.finite_lt_nat map.pages).subset fun _ hpage => hmap.lt_pages hpage

theorem BpaMap.WellFormed.freePages_ncard_le {map : BpaMap}
    (hmap : map.WellFormed) : map.freePages.ncard ≤ map.pages := by
  have hsub : map.freePages ⊆ ((Finset.range map.pages : Finset Nat) :
      Set Nat) := by
    intro page hpage
    simpa using hmap.lt_pages hpage
  have hle := Set.ncard_le_ncard hsub (Finset.finite_toSet _)
  rwa [Set.ncard_coe_finset, Finset.card_range] at hle

theorem BpaMap.WellFormed.freePages_ncard_lt {map : BpaMap}
    (hmap : map.WellFormed) : map.freePages.ncard < wordSize :=
  Nat.lt_of_le_of_lt hmap.freePages_ncard_le hmap.pages_lt

theorem BpaMap.WellFormed.freePages_ncard_eq_zero {map : BpaMap}
    (hmap : map.WellFormed) :
    map.freePages.ncard = 0 ↔ ∀ page, ¬ map.free.Covers page := by
  rw [Set.ncard_eq_zero hmap.freePages_finite, Set.eq_empty_iff_forall_notMem]
  rfl

def blockPages (block : Block) : Set Nat := {page | page ∈ block}

theorem blockPages_ncard (block : Block) :
    (blockPages block).ncard = 2 ^ block.order := by
  have hsame : blockPages block =
      ((Finset.Ico block.first (block.first + 2 ^ block.order) :
        Finset Nat) : Set Nat) := by
    ext page
    simp [blockPages, Block.mem_iff]
  rw [hsame, Set.ncard_coe_finset, Nat.card_Ico, Nat.add_sub_cancel_left]

theorem blockPages_finite (block : Block) : (blockPages block).Finite :=
  Set.finite_of_ncard_pos (by
    rw [blockPages_ncard]
    exact Nat.two_pow_pos _)

section

variable {map after : BpaMap} {block : Block}

theorem BpaMap.WellFormed.ncard_removed (hmap : map.WellFormed)
    (hfree : ∀ page ∈ block, map.free.Covers page)
    (hcovers : ∀ page, after.free.Covers page ↔
      map.free.Covers page ∧ page ∉ block) :
    after.freePages.ncard + 2 ^ block.order = map.freePages.ncard := by
  have hsub : blockPages block ⊆ map.freePages :=
    fun page hpage => hfree page hpage
  have hpages : after.freePages = map.freePages \ blockPages block := by
    ext page
    exact hcovers page
  have hle := Set.ncard_le_ncard hsub hmap.freePages_finite
  rw [hpages, Set.ncard_sdiff hsub (blockPages_finite block)]
  rw [blockPages_ncard] at *
  omega

theorem BpaMap.WellFormed.ncard_added (hmap : map.WellFormed)
    (hnot : ∀ page ∈ block, ¬ map.free.Covers page)
    (hcovers : ∀ page, after.free.Covers page ↔
      map.free.Covers page ∨ page ∈ block) :
    after.freePages.ncard = map.freePages.ncard + 2 ^ block.order := by
  have hunion : after.freePages = map.freePages ∪ blockPages block := by
    ext page
    exact hcovers page
  have hdisjoint : Disjoint map.freePages (blockPages block) := by
    rw [Set.disjoint_left]
    exact fun page hfree hpage => hnot page hpage hfree
  rw [hunion, Set.ncard_union_eq hdisjoint hmap.freePages_finite
    (blockPages_finite block), blockPages_ncard]

end

/-- The counter of free pages is exact, the region is marked full just when no
page is free, and no free page has the address zero. -/
structure Region.Exact (region : Region) : Prop where
  wellFormed : region.map.WellFormed
  unlocked : region.lock = false
  fits : region.map.pages * pageSize ≤ region.size
  space : region.start + region.size < wordSize
  counted : region.pagesFree = region.map.freePages.ncard
  full : region.memFull = true ↔ ∀ page, ¬ region.map.free.Covers page
  nonzero : region.start = 0 → ¬ region.map.free.Covers 0

section

variable {region : Region} {block : Block} {order : Nat}

theorem Region.Exact.addressable (hexact : region.Exact) :
    region.Addressable := by
  have hfits := hexact.fits
  have hspace := hexact.space
  unfold Region.Addressable
  omega

theorem Region.Exact.address_eq (hexact : region.Exact)
    (hinside : (block.index + 1) * 2 ^ block.order ≤ region.map.pages) :
    region.address block = (grantOf region.start block).address :=
  hexact.addressable.address_eq hinside

theorem Region.Exact.address_ne_zero (hexact : region.Exact)
    (hfree : ∀ page ∈ block, region.map.free.Covers page) :
    region.address block ≠ 0 := by
  have hinside := hexact.wellFormed.inside hfree
  rw [hexact.addressable.address_eq hinside]
  intro hzero
  have hstart : region.start = 0 := by omega
  have hfirst : block.first = 0 := by
    simp only [pageSize] at hzero
    omega
  exact hexact.nonzero hstart (hfirst ▸ hfree _ block.first_mem)

theorem Region.Exact.alloc_full (hexact : region.Exact)
    (hfull : region.memFull = true) (order : Nat) :
    pagesAlloc region order = .ok (0, region) := by
  by_cases horder : order < maxOrder
  · have hsame : outOfMem region = region := by
      simp [outOfMem, ← hfull]
    cases pagesAlloc_cases hexact.wellFormed hexact.unlocked horder with
    | inl hnone => rw [hnone.1, hsame]
    | inr htakes =>
        obtain ⟨block, map, htakes⟩ := htakes
        exact (hexact.full.mp hfull _
          (htakes.was_free _ block.first_mem)).elim
  · rw [pagesAlloc, if_pos (by omega)]

theorem Takes.exact (hexact : region.Exact) {map : BpaMap}
    (htakes : Takes region order block map) :
    (region.afterAlloc order map).Exact := by
  have hcard := hexact.wellFormed.ncard_removed htakes.was_free htakes.covers
  rw [htakes.order_eq] at hcard
  have hnotFull : region.memFull = false := by
    by_contra hfull
    exact hexact.full.mp (by simpa using hfull) _
      (htakes.was_free _ block.first_mem)
  have hlt := hexact.wellFormed.freePages_ncard_lt
  refine ⟨htakes.wellFormed, rfl, ?_, hexact.space, ?_, ?_, ?_⟩
  · simp only [Region.afterAlloc, htakes.pages_eq]
    exact hexact.fits
  · simp only [Region.afterAlloc, hexact.counted]
    rw [wordSub_of_le (by omega) hlt]
    omega
  · simp only [Region.afterAlloc, hnotFull, Bool.false_or, decide_eq_true_eq,
      hexact.counted]
    rw [← htakes.wellFormed.freePages_ncard_eq_zero]
    omega
  · intro hstart hcovers
    exact hexact.nonzero hstart ((htakes.covers 0).mp hcovers).1

theorem Region.Exact.free (hexact : region.Exact) (hheld : region.map.Held block)
    (hplace : block.order = 0 ∨ block.index = 0)
    (hhint : 0 < region.map.pagesFree block.order ∨
      block.index ≤ region.map.nextFreePage block.order)
    (hnotFull : region.memFull = false)
    (hnonzero : region.start = 0 → 0 ∉ block) :
    ∃ map, Page.pagesFree region (region.address block) block.order =
        .ok (region.afterFree block.order map) ∧
      (region.afterFree block.order map).Exact ∧
      (region.afterFree block.order map).memFull = false ∧
      map.pages = region.map.pages ∧
      ∀ page, map.free.Covers page ↔
        region.map.free.Covers page ∨ page ∈ block := by
  have hoffset : region.offsetOf (region.address block) = block.index := by
    rw [hexact.addressable.offsetOf_address hheld.inside,
      first_eq_index_iff.mpr hplace]
  have hfits : region.Fits := ⟨hexact.fits, Nat.le_of_lt hexact.space⟩
  have hcall := pagesFree_of_set hexact.unlocked
    ((hfits.contains_address hheld.inside).mpr hexact.space)
    (by
      rw [hoffset]
      exact hheld.set)
  rw [hoffset] at hcall
  have hwell := returnBlock_wellFormed hexact.wellFormed hheld hhint
  have hpages := @returnBlock_pages region.map block.order block.index
    hheld.order_lt
  have hcovers := @returnBlock_covers region.map block.order block.index
    hheld.order_lt
  have hsome : region.map.freePages.ncard ≠ 0 := by
    rw [Ne, hexact.wellFormed.freePages_ncard_eq_zero, ← hexact.full, hnotFull]
    simp
  have hcard := hexact.wellFormed.ncard_added hheld.not_free hcovers
  have hbound := hwell.freePages_ncard_lt
  have hpos := Nat.two_pow_pos block.order
  have hmemFull : (region.afterFree block.order
      (returnBlock region.map block.order block.index)).memFull = false := by
    simp [Region.afterFree, hnotFull, hexact.counted, hsome]
  refine ⟨_, hcall, ⟨hwell, rfl, ?_, hexact.space, ?_, ?_, ?_⟩, hmemFull,
    hpages, hcovers⟩
  · simp only [Region.afterFree, hpages]
    exact hexact.fits
  · simp only [Region.afterFree, hexact.counted]
    rw [wordAdd_of_lt (by omega), hcard]
  · rw [hmemFull]
    simp only [Region.afterFree, Bool.false_eq_true, false_iff]
    rw [← hwell.freePages_ncard_eq_zero]
    omega
  · intro hstart hzero
    cases (hcovers 0).mp hzero with
    | inl hfree => exact hexact.nonzero hstart hfree
    | inr hmem => exact hnonzero hstart hmem

end

end Synos.Page

import Synos.Page.CallRun
import Synos.Page.Confined
import Synos.Page.Descent

namespace Synos.Page

open Synos.Data

/-! Reserving one page of a region, and what any run of allocations can hand out
afterwards. -/

section

variable {map : BpaMap} {block : Block} {page : Nat}

/-- The page is one of the first two of the block: the only ones a descent that
always goes left can reach. -/
def Leads (block : Block) (page : Nat) : Prop :=
  page = block.first ∨ page = block.first + 1 ∧ 0 < block.order

theorem Leads.mem_leftmost (hleads : Leads block page)
    (hzero : 0 < block.order) : page ∈ block.leftmost 1 := by
  have hfirst := Block.leftmost_first block (show 1 ≤ block.order from hzero)
  rw [Block.mem_iff, hfirst]
  cases hleads with
  | inl h => exact ⟨by omega, by simp only [Block.leftmost]; omega⟩
  | inr h => exact ⟨by omega, by simp only [Block.leftmost]; omega⟩

theorem Leads.mem (hleads : Leads block page) : page ∈ block := by
  by_cases hzero : 0 < block.order
  · exact Block.leftmost_subset hzero (hleads.mem_leftmost hzero)
  · rw [Block.mem_iff]
    have hpos := Nat.two_pow_pos block.order
    cases hleads with
    | inl h => omega
    | inr h => omega

variable {region : Region}

theorem pagesReserve_page (hmap : region.map.WellFormed)
    (hlock : region.lock = false) (hfree : block ∈ region.map.free)
    (hpage : page ∈ block)
    (hreached : (splitDown region.map 0 block.order block.index).freeArea 0
      page = false) :
    ∃ address, pagesReserve region 0 page = .ok (address,
      region.afterReserve 0 (reserveBlock
        (splitDown region.map 0 block.order block.index) 0 page)) := by
  obtain ⟨hset, hclear⟩ := hmap.above hfree hpage
  have hindex : page / 2 ^ (block.order - 0) = block.index :=
    Block.mem_def.mp hpage
  by_cases hzero : block.order = 0
  · rw [hzero] at hreached ⊢
    exact pagesReserve_of_free hlock hreached
  · apply pagesReserve_of_split hlock (Nat.pos_of_ne_zero hzero) hfree.1
    · intro other _ hother
      exact hset other hother
    · exact hclear
    · rw [hindex]
    · exact hreached

theorem pagesReserve_guided (hmap : region.map.WellFormed)
    (hlock : region.lock = false) (hfree : block ∈ region.map.free)
    (hguides : region.map.Guides block) (hleads : Leads block page) :
    ∃ address map, pagesReserve region 0 page =
        .ok (address, region.afterReserve 0 map) ∧
      map.pages = region.map.pages ∧ map.WellFormed ∧
      ∀ point, map.free.Covers point ↔
        region.map.free.Covers point ∧ point ≠ page := by
  have hopening := splitDown_opening hmap hfree hguides (Nat.zero_le _)
  have hmem : (⟨0, page⟩ : Block) ∈
      (splitDown region.map 0 block.order block.index).free := by
    rw [hopening.free_eq]
    cases hleads with
    | inl hlow =>
        right
        right
        simp [hlow, Block.leftmost, Block.first]
    | inr hhigh =>
        right
        left
        exact ⟨Nat.le_refl _, hhigh.2, hhigh.1⟩
  obtain ⟨address, hcall⟩ := pagesReserve_page hmap hlock hfree hleads.mem
    hmem.2
  have hsound := Family.opened_sound hmap.apart hfree
    (show 0 + block.order = block.order from Nat.zero_add _)
  refine ⟨address, _, hcall, ?_, reserveBlock_wellFormed hopening.wellFormed
    hmem, ?_⟩
  · rw [reserveBlock_pages, hopening.pages_eq]
  · intro point
    rw [reserveBlock_free, Family.covers_remove hopening.wellFormed.apart hmem,
      hopening.free_eq, hsound.2, Block.mem_def]
    simp

theorem pagesReserve_withheld (hmap : region.map.WellFormed)
    (hlock : region.lock = false) {allowed : Nat → Prop}
    (hwithholds : region.map.Withholds allowed block)
    (hfirst : (⟨block.order, 0⟩ : Block).Within allowed)
    (hallowed : ∀ point ∈ block, point ≠ page → allowed point)
    (hleads : Leads block page) :
    ∃ address map, pagesReserve region 0 page =
        .ok (address, region.afterReserve 0 map) ∧
      map.pages = region.map.pages ∧ map.Confined allowed := by
  have hfree := hwithholds.mem
  have hdown : (splitDown region.map 0 block.order block.index).Withholds
      allowed ⟨0, page⟩ := by
    cases hdepth : block.order with
    | zero =>
        have hself : (⟨0, page⟩ : Block) = block :=
          Block.mem_unique (Block.mem_def.mpr (by simp)) hleads.mem hdepth.symm
        rw [hself]
        exact hwithholds
    | succ depth =>
        exact hwithholds.splitDown hfirst hallowed hdepth
          (hleads.mem_leftmost (by omega))
  obtain ⟨address, hcall⟩ := pagesReserve_page hmap hlock hfree hleads.mem
    hdown.mem.2
  refine ⟨address, _, hcall, ?_, hdown.reserve (hfirst.first (Nat.zero_le _))⟩
  rw [reserveBlock_pages, splitDown_pages]

end

/-! Runs of allocations. -/

/-- An allocation hands out allowed pages only: either the bitmaps are
consistent and the free pages allowed, or the bitmaps are confined. -/
structure Region.Shields (region : Region) (allowed : Nat → Prop) : Prop where
  unlocked : region.lock = false
  space : region.Addressable
  inside : ∀ point, allowed point → point < region.map.pages
  state : region.map.WellFormed ∧
      (∀ point, region.map.free.Covers point → allowed point) ∨
    region.map.Confined allowed

section

variable {region : Region} {allowed : Nat → Prop}

theorem Region.Shields.address_eq (hshields : region.Shields allowed)
    {block : Block} (hwithin : block.Within allowed) :
    region.address block = (grantOf region.start block).address := by
  have hpos := Nat.two_pow_pos block.order
  apply hshields.space.address_eq
  have hlast : block.first + 2 ^ block.order - 1 ∈ block :=
    Block.mem_iff.mpr ⟨by omega, by omega⟩
  have hlt := hshields.inside _ (hwithin _ hlast)
  rw [Nat.add_mul, Nat.one_mul]
  simp only [Block.first] at hlt
  omega

theorem Region.Shields.alloc (hshields : region.Shields allowed) (order : Nat) :
    ∃ address after, pagesAlloc region order = .ok (address, after) ∧
      after.start = region.start ∧ after.Shields allowed ∧
      (address ≠ 0 → ∃ block : Block,
        (⟨address, order⟩ : Grant) = grantOf region.start block ∧
          block.Within allowed) := by
  have hgrant : ∀ block : Block, block.order = order →
      block.Within allowed → (⟨region.address block, order⟩ : Grant) =
        grantOf region.start block := by
    intro block horder hwithin
    rw [hshields.address_eq hwithin, ← horder]
    rfl
  by_cases horder : order < maxOrder
  · cases hshields.state with
    | inl hwell =>
        cases pagesAlloc_cases hwell.1 hshields.unlocked horder with
        | inl hnone =>
            exact ⟨0, _, hnone.1, rfl, ⟨hshields.unlocked, hshields.space,
              hshields.inside, .inl hwell⟩, fun h => (h rfl).elim⟩
        | inr htakes =>
            obtain ⟨block, map, htakes⟩ := htakes
            have hwithin : block.Within allowed := fun point hpoint =>
              hwell.2 point (htakes.was_free point hpoint)
            refine ⟨_, _, htakes.call, rfl, ⟨rfl, ?_, ?_, .inl
              ⟨htakes.wellFormed, ?_⟩⟩, fun _ => ⟨block,
                hgrant block htakes.order_eq hwithin, hwithin⟩⟩
            · have hspace := hshields.space
              unfold Region.Addressable at *
              simp only [Region.afterAlloc]
              rwa [htakes.pages_eq]
            · intro point hpoint
              simp only [Region.afterAlloc]
              rw [htakes.pages_eq]
              exact hshields.inside point hpoint
            · intro point hcovers
              exact hwell.2 point ((htakes.covers point).mp hcovers).1
    | inr hconfined =>
        obtain ⟨address, after, hconfines⟩ :=
          pagesAlloc_confined hconfined hshields.unlocked horder
        refine ⟨address, after, hconfines.call, hconfines.start_eq,
          ⟨hconfines.unlocked, ?_, ?_, .inr hconfines.confined⟩, ?_⟩
        · unfold Region.Addressable
          rw [hconfines.start_eq, hconfines.pages_eq]
          exact hshields.space
        · intro point hpoint
          rw [hconfines.pages_eq]
          exact hshields.inside point hpoint
        · intro hne
          obtain ⟨block, hblock, haddress, hwithin⟩ := hconfines.granted hne
          rw [haddress]
          exact ⟨block, hgrant block hblock hwithin, hwithin⟩
  · refine ⟨0, region, ?_, rfl, hshields, fun h => (h rfl).elim⟩
    rw [pagesAlloc, if_pos (by omega)]

theorem Region.Shields.run (hshields : region.Shields allowed)
    (orders : List Nat) {live : List Grant}
    (hlive : ∀ grant ∈ live, ∃ block : Block,
      grant = grantOf region.start block ∧ block.Within allowed) :
    ∃ last, callMachine.run ⟨region, live⟩ (orders.map .alloc) = .ok last ∧
      ∀ grant ∈ last.live, ∃ block : Block,
        grant = grantOf region.start block ∧ block.Within allowed := by
  induction orders generalizing region live with
  | nil => exact ⟨_, rfl, hlive⟩
  | cons order orders ih =>
      obtain ⟨address, after, hcall, hstart, hafter, hgranted⟩ :=
        hshields.alloc order
      have hstep : callMachine.step ⟨region, live⟩ (.alloc order) =
          .ok ⟨after, if address = 0 then live
            else ⟨address, order⟩ :: live⟩ := by
        simp [callMachine, hcall]
      rw [← hstart] at hlive hgranted
      obtain ⟨last, hrun, hlast⟩ := @ih after hafter
        (if address = 0 then live else ⟨address, order⟩ :: live) (by
          intro grant hgrant
          split at hgrant
          · exact hlive grant hgrant
          · rename_i hne
            cases hgrant with
            | head => exact hgranted hne
            | tail _ hold => exact hlive grant hold)
      rw [hstart] at hlast
      exact ⟨last, Machine.run_cons_ok.mpr ⟨_, hstep, hrun⟩, hlast⟩

end

end Synos.Page

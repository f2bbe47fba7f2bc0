import Synos.Page.Protect

namespace Synos.Page

open Synos.Data

/-! The blocks of a fresh region as seen by a reservation. -/

section

variable {pages page : Nat} {block : Block}

theorem partitionMap_after {other : Block}
    (hfree : block ∈ (partitionMap pages maxOrder).free)
    (hother : other ∈ (partitionMap pages maxOrder).free)
    (hlt : other.order < block.order) :
    block.first + 2 ^ block.order ≤ other.first := by
  rw [mem_partitionMap_free] at hfree hother
  have hpos := Nat.two_pow_pos block.order
  have hlast : block.first + 2 ^ block.order - 1 ∈ block :=
    Block.mem_iff.mpr ⟨by omega, by omega⟩
  have hbelow := (inPartition_bounds hfree.2 hlast).1
  have habove := (inPartition_bounds hother.2 other.first_mem).2 (by
    have := hfree.1
    omega)
  have := rounding_antitone pages (show other.order + 1 ≤ block.order from hlt)
  omega

theorem partitionMap_leftmost_lt {other : Block}
    (hfree : block ∈ (partitionMap pages maxOrder).free)
    (hother : other ∈ (partitionMap pages maxOrder).free)
    (hlt : other.order < block.order) :
    (block.leftmost other.order).index < other.index := by
  have hafter := partitionMap_after hfree hother hlt
  have hpos := Nat.two_pow_pos block.order
  have hfirst := Block.leftmost_first block (Nat.le_of_lt hlt)
  by_contra hge
  have hle := Nat.mul_le_mul_right (2 ^ other.order) (Nat.le_of_not_lt hge)
  simp only [Block.first, Block.leftmost] at *
  omega

theorem partitionMap_hint (hfree : block ∈ (partitionMap pages maxOrder).free)
    (hlow : block.order < maxOrder - 1) :
    (partitionMap pages maxOrder).nextFreePage block.order = block.index := by
  rw [mem_partitionMap_free, inPartition_low hlow, decide_eq_true_eq] at hfree
  obtain ⟨hlt, hodd, hindex⟩ := hfree
  rw [partitionMap]
  simp only
  rw [if_pos ⟨hlt, hlow, hodd⟩, ← hindex, Nat.add_sub_cancel]

theorem partitionMap_hint_cases {order : Nat} (horder : order < maxOrder) :
    (partitionMap pages maxOrder).nextFreePage order = 0 ∨
      (⟨order, (partitionMap pages maxOrder).nextFreePage order⟩ : Block) ∈
        (partitionMap pages maxOrder).free := by
  have hhint : (partitionMap pages maxOrder).nextFreePage order =
      if order < maxOrder ∧ order < maxOrder - 1 ∧
        pages / 2 ^ order % 2 = 1 then pages / 2 ^ order - 1 else 0 := rfl
  by_cases hstocked : order < maxOrder ∧ order < maxOrder - 1 ∧
      pages / 2 ^ order % 2 = 1
  · right
    rw [hhint, if_pos hstocked, mem_partitionMap_free,
      inPartition_low hstocked.2.1, decide_eq_true_eq]
    have hodd := hstocked.2.2
    refine ⟨horder, hodd, Nat.sub_add_cancel ?_⟩
    by_contra hnone
    rw [Nat.lt_one_iff.mp (Nat.lt_of_not_le hnone)] at hodd
    cases hodd
  · left
    rw [hhint, if_neg hstocked]

theorem partitionMap_stocked {order : Nat} (horder : order < maxOrder - 1)
    (hodd : pages / 2 ^ order % 2 = 1) :
    (partitionMap pages maxOrder).pagesFree order ≠ 0 := by
  have hlt : order < maxOrder := by omega
  simp [partitionMap, hlt, Nat.ne_of_lt horder, hodd]

/-- A block of the partition that is not the first of the region lies behind the
first block of every stocked order. -/
theorem partitionMap_first_before
    (hpages : pages < wordSize)
    (hfree : block ∈ (partitionMap pages maxOrder).free)
    (hindex : block.index ≠ 0) {order : Nat} (horder : order < maxOrder)
    (hstocked : 0 < (partitionMap pages maxOrder).pagesFree order) :
    2 ^ order ≤ block.first := by
  have hone : 1 ≤ block.index := Nat.pos_of_ne_zero hindex
  by_cases hle : order ≤ block.order
  · have hpow := Nat.pow_le_pow_right (show 0 < 2 by decide) hle
    have := Nat.mul_le_mul_right (2 ^ block.order) hone
    simp only [Block.first]
    omega
  · have hcount := (partitionMap_wellFormed hpages).count_le horder
    have hlow : block.order < maxOrder - 1 := by omega
    rw [mem_partitionMap_free, inPartition_low hlow, decide_eq_true_eq] at hfree
    obtain ⟨-, hodd, hlast⟩ := hfree
    -- the first block ends at an even multiple, the block starts at one
    obtain ⟨shift, rfl⟩ : ∃ shift, order = block.order + (shift + 1) :=
      ⟨order - block.order - 1, by omega⟩
    rw [show (partitionMap pages maxOrder).pages = pages from rfl, pow_add,
      ← Nat.div_div_eq_div_mul, ← hlast] at hcount
    rw [← hlast] at hodd
    have hfits : 2 ^ (shift + 1) ≤ block.index + 1 := by
      by_contra hgt
      rw [Nat.div_eq_of_lt (by omega)] at hcount
      omega
    have heven : 2 ^ (shift + 1) ≤ block.index := by
      rw [pow_succ] at *
      omega
    have := Nat.mul_le_mul_left (2 ^ block.order) heven
    rw [pow_add, Block.first, Nat.mul_comm block.index]
    exact this

theorem partitionMap_guides
    (hfree : block ∈ (partitionMap pages maxOrder).free)
    (hindex : block.index = 0) :
    (partitionMap pages maxOrder).Guides block := by
  refine ⟨?_, ?_, fun _ _ _ => hindex⟩
  · by_cases hlow : block.order < maxOrder - 1
    · exact partitionMap_hint hfree hlow
    · have htop : ¬ (block.order < maxOrder ∧ block.order < maxOrder - 1 ∧
          pages / 2 ^ block.order % 2 = 1) := fun h => hlow h.2.1
      rw [hindex]
      exact if_neg htop
  · intro other hother hlt
    exact partitionMap_leftmost_lt hfree hother hlt

theorem partitionMap_withholds (hpages : pages < wordSize)
    (hfree : block ∈ (partitionMap pages maxOrder).free)
    (hindex : block.index ≠ 0) (hpage : page ∈ block)
    {allowed : Nat → Prop}
    (hallowed : ∀ point < pages, point ≠ page → allowed point) :
    (partitionMap pages maxOrder).Withholds allowed block := by
  have hwell := partitionMap_wellFormed hpages
  have hothers : ∀ other ∈ (partitionMap pages maxOrder).free,
      other ≠ block → other.Within allowed := by
    intro other hother hne point hpoint
    refine hallowed point (hwell.lt_pages ⟨other, hother, hpoint⟩) ?_
    rintro rfl
    exact hne (hwell.apart.unique hother hfree hpoint hpage)
  refine ⟨hfree, hothers, ?_, ?_⟩
  · intro order horder hfirst hne
    cases partitionMap_hint_cases horder with
    | inl hzero =>
        rw [hzero]
        exact hfirst
    | inr hmem => exact hothers _ hmem hne
  · intro order horder hstocked point hpoint
    have hbefore := partitionMap_first_before hpages hfree hindex horder
      hstocked
    have hcount := hwell.count_le horder
    have hfits : 2 ^ order ≤ pages := by
      by_contra hgt
      have hzero : (partitionMap pages maxOrder).pages / 2 ^ order = 0 :=
        Nat.div_eq_of_lt (Nat.lt_of_not_le hgt)
      omega
    rw [Block.mem_iff, Block.first] at hpoint
    simp only [Nat.zero_mul, Nat.zero_add] at hpoint
    rw [Block.mem_iff] at hpage
    exact hallowed point (by omega) (by omega)

end

/-! The fresh region after each part of the protection. -/

/-- The pages that stay available. -/
def Spare (start pages mbp page : Nat) : Prop :=
  page < pages ∧ PageClear start mbp page

section

variable {region : Region} {mbp : Nat}

theorem Region.addressable_of_size
    (hspace : region.start + region.size < wordSize)
    (hpages : region.map.pages = region.size / pageSize) :
    region.Addressable := by
  unfold Region.Addressable
  rw [hpages]
  have := Nat.div_mul_le_self region.size pageSize
  omega

theorem fresh_pages
    (hfresh : region.map = partitionMap (region.size / pageSize) maxOrder) :
    region.map.pages = region.size / pageSize := by
  rw [hfresh]
  rfl

theorem fresh_wellFormed
    (hfresh : region.map = partitionMap (region.size / pageSize) maxOrder)
    (hpages : region.size / pageSize < wordSize) : region.map.WellFormed := by
  rw [hfresh]
  exact partitionMap_wellFormed hpages

theorem pages_lt_of_space (hspace : region.start + region.size < wordSize) :
    region.size / pageSize < wordSize := by
  have := Nat.div_le_self region.size pageSize
  omega

theorem Region.InfoLeads.mem_free {block : Block}
    (hleads : region.InfoLeads mbp block)
    (hfresh : region.map = partitionMap (region.size / pageSize) maxOrder) :
    block ∈ region.map.free := by
  rw [hfresh, mem_partitionMap_free]
  exact ⟨hleads.order_lt, hleads.fresh⟩

/-- Reserving the page of the information, in a region whose other free pages
are clear of low memory. -/
theorem protectInfo_guided (hlock : region.lock = false)
    (hsize : 0 < region.size)
    (hspace : region.start + region.size < wordSize) (hmbp : mbp < 2 ^ 32)
    (hpages : region.map.pages = region.size / pageSize)
    (hwell : region.map.WellFormed)
    (hlow : ∀ point, region.map.free.Covers point →
      lowMemory ≤ region.start + pageSize * point) {block : Block}
    (hleads : region.InfoLeads mbp block) (hfree : block ∈ region.map.free)
    (hguides : region.map.Guides block) (hmeets : region.Meets mbp) :
    ∃ after, protectInfo region mbp = .ok after ∧
      after.start = region.start ∧
      after.Shields (Spare region.start region.map.pages mbp) := by
  obtain ⟨address, map, hcall, hsame, hafter, hcovers⟩ :=
    pagesReserve_guided hwell hlock hfree hguides hleads.leads
  refine ⟨_, protectInfo_of_meets hsize hspace hmbp hmeets hcall, rfl, rfl, ?_,
    ?_, .inl ⟨hafter, ?_⟩⟩
  · exact Region.addressable_of_size hspace (hsame.trans hpages)
  · intro point hspare
    exact lt_of_lt_of_eq hspare.1 hsame.symm
  · intro point hpoint
    obtain ⟨hold, hne⟩ := (hcovers point).mp hpoint
    have hlt := hwell.lt_pages hold
    exact ⟨hlt, hleads.clear (hlow point hold) (hpages ▸ hlt) hne⟩

theorem protectInfo_outside (hlock : region.lock = false)
    (hspace : region.start + region.size < wordSize) (hmbp : mbp < 2 ^ 32)
    (hpages : region.map.pages = region.size / pageSize)
    (hwell : region.map.WellFormed)
    (hlow : ∀ point, region.map.free.Covers point →
      lowMemory ≤ region.start + pageSize * point)
    (hmeets : ¬ region.Meets mbp) :
    ∃ after, protectInfo region mbp = .ok after ∧
      after.start = region.start ∧
      after.Shields (Spare region.start region.map.pages mbp) := by
  refine ⟨region, protectInfo_of_not_meets hspace hmbp hmeets, rfl, hlock,
    Region.addressable_of_size hspace hpages, fun _ h => h.1,
    .inl ⟨hwell, ?_⟩⟩
  intro point hpoint
  have hlt := hwell.lt_pages hpoint
  exact ⟨hlt, pageClear_of_not_meets hmeets (hlow point hpoint) (hpages ▸ hlt)⟩

/-- The page of the information lies in a block that is not the first of a fresh
region: the reservation may miss it, but only by taking other pages. -/
theorem protectInfo_withheld
    (hfresh : region.map = partitionMap (region.size / pageSize) maxOrder)
    (hlock : region.lock = false) (hsize : 0 < region.size)
    (hspace : region.start + region.size < wordSize) (hmbp : mbp < 2 ^ 32)
    (hstart : lowMemory ≤ region.start) {block : Block}
    (hleads : region.InfoLeads mbp block) (hindex : block.index ≠ 0)
    (hmeets : region.Meets mbp) :
    ∃ after, protectInfo region mbp = .ok after ∧
      after.start = region.start ∧
      after.Shields (Spare region.start region.map.pages mbp) := by
  have hpages := fresh_pages hfresh
  have hwell := fresh_wellFormed hfresh (pages_lt_of_space hspace)
  have hfree := hleads.mem_free hfresh
  have hallowed : ∀ point < region.size / pageSize,
      point ≠ region.infoPage mbp →
        Spare region.start region.map.pages mbp point := by
    intro point hlt hne
    exact ⟨hpages.symm ▸ hlt, hleads.clear
      (Nat.le_trans hstart (Nat.le_add_right _ _)) hlt hne⟩
  have hwithholds := partitionMap_withholds (pages_lt_of_space hspace)
    (hfresh ▸ hfree) hindex hleads.leads.mem hallowed
  rw [← hfresh] at hwithholds
  have hbefore := hwithholds.first block.order hfree.1 (hwell.count_pos hfree)
  obtain ⟨address, map, hcall, hsame, hconfined⟩ :=
    @pagesReserve_withheld block (region.infoPage mbp) region hwell hlock
      _ hwithholds hbefore (by
        intro point hpoint hne
        exact hallowed point
          (hpages ▸ hwell.lt_pages ⟨block, hfree, hpoint⟩) hne) hleads.leads
  refine ⟨_, protectInfo_of_meets hsize hspace hmbp hmeets hcall, rfl, rfl,
    ?_, ?_, .inr hconfined⟩
  · exact Region.addressable_of_size hspace (hsame.trans hpages)
  · intro point hspare
    exact lt_of_lt_of_eq hspare.1 hsame.symm

theorem protect_high
    (hfresh : region.map = partitionMap (region.size / pageSize) maxOrder)
    (hlock : region.lock = false) (hsize : 0 < region.size)
    (hspace : region.start + region.size < wordSize) (hmbp : mbp < 2 ^ 32)
    (hstart : lowMemory ≤ region.start)
    (hinfo : ¬ region.Meets mbp ∨ ∃ block, region.InfoLeads mbp block) :
    ∃ after, memPProtect region mbp = .ok after ∧
      after.start = region.start ∧
      after.Shields (Spare region.start region.map.pages mbp) := by
  have hpages := fresh_pages hfresh
  have hwell := fresh_wellFormed hfresh (pages_lt_of_space hspace)
  have hlow : ∀ point, region.map.free.Covers point →
      lowMemory ≤ region.start + pageSize * point :=
    fun point _ => Nat.le_trans hstart (Nat.le_add_right _ _)
  rw [memPProtect, protectLow_of_high hstart]
  simp only
  by_cases hmeets : region.Meets mbp
  · obtain ⟨block, hleads⟩ := hinfo.resolve_left (not_not.mpr hmeets)
    have hfree := hleads.mem_free hfresh
    by_cases hindex : block.index = 0
    · apply protectInfo_guided hlock hsize hspace hmbp hpages hwell hlow hleads
        hfree
      · rw [hfresh] at hfree ⊢
        exact partitionMap_guides hfree hindex
      · exact hmeets
    · exact protectInfo_withheld hfresh hlock hsize hspace hmbp hstart hleads
        hindex hmeets
  · exact protectInfo_outside hlock hspace hmbp hpages hwell hlow hmeets

/-- What reserving the low end leaves: every free page lies above low memory,
and nothing below the order of the reserved block has changed. -/
structure LowReserved (before after : Region) : Prop where
  unlocked : after.lock = false
  start_eq : after.start = before.start
  size_eq : after.size = before.size
  pages_eq : after.map.pages = before.map.pages
  wellFormed : after.map.WellFormed
  covers : ∀ point, after.map.free.Covers point → 512 ≤ point
  free : ∀ block ∈ before.map.free, 512 ≤ block.first → block ∈ after.map.free
  subset : ∀ block ∈ after.map.free, block ∈ before.map.free
  below : 512 < before.map.pages → ∀ order < maxOrder - 1,
    after.map.pagesFree order = before.map.pagesFree order ∧
      after.map.nextFreePage order = before.map.nextFreePage order

theorem protectLow_reserved
    (hfresh : region.map = partitionMap (region.size / pageSize) maxOrder)
    (hlock : region.lock = false)
    (hpagesLt : region.size / pageSize < wordSize)
    (hwhole : region.LowWhole) :
    ∃ after, protectLow region = .ok after ∧ LowReserved region after := by
  have hwell := fresh_wellFormed hfresh hpagesLt
  have hpages := fresh_pages hfresh
  obtain ⟨order, horder, hin, hcase, hcall⟩ := protectLow_of_whole hwhole
  have hfree : (⟨order, 0⟩ : Block) ∈ region.map.free := by
    rw [hfresh, mem_partitionMap_free]
    exact ⟨horder, hin⟩
  have hpow : 2 ^ order ≤ 512 :=
    Nat.pow_le_pow_right (show 0 < 2 by decide)
      (show order ≤ 9 from Nat.le_of_lt_succ horder)
  obtain ⟨address, hreserve⟩ := pagesReserve_of_free hlock hfree.2
  refine ⟨_, hcall address _ hreserve, rfl, rfl, rfl, reserveBlock_pages _ _ _,
    reserveBlock_wellFormed hwell hfree, ?_, ?_, ?_, ?_⟩
  · intro point hpoint
    have hcovers : (reserveBlock region.map order 0).free.Covers point := hpoint
    rw [reserveBlock_free, Family.covers_remove hwell.apart hfree,
      Block.mem_iff, Block.first] at hcovers
    have hlt := hwell.lt_pages hcovers.1
    cases hcase with
    | inl htop =>
        subst htop
        simp only [maxOrder] at hcovers
        omega
    | inr hall =>
        rw [hpages, hall] at hlt
        simp only at hcovers
        omega
  · intro block hblock hfirst
    have hne : block ≠ ⟨order, 0⟩ := by
      rintro rfl
      simp only [Block.first] at hfirst
      omega
    have hmem : block ∈ (reserveBlock region.map order 0).free := by
      rw [reserveBlock_free]
      exact ⟨hblock, hne⟩
    exact hmem
  · intro block hblock
    have hmem : block ∈ (reserveBlock region.map order 0).free := hblock
    rw [reserveBlock_free] at hmem
    exact hmem.1
  · intro hmany other hother
    have hne : other ≠ order := by
      cases hcase with
      | inl htop => omega
      | inr hall => omega
    exact reserveBlock_of_ne region.map 0 hne

theorem LowReserved.guides {after : Region} {block : Block}
    (hfresh : region.map = partitionMap (region.size / pageSize) maxOrder)
    (hreserved : LowReserved region after) (hfree : block ∈ region.map.free)
    (hmany : 512 < region.map.pages) (hfirst : 512 ≤ block.first)
    (hindex : block.order = maxOrder - 1 → block.index = 1)
    (hstocked : ∀ order < block.order,
      region.size / pageSize / 2 ^ order % 2 = 1) :
    after.map.Guides block := by
  have hafter := hreserved.free block hfree hfirst
  have hbelow := hreserved.below hmany
  refine ⟨?_, ?_, ?_⟩
  · by_cases hlow : block.order < maxOrder - 1
    · rw [(hbelow _ hlow).2]
      rw [hfresh] at hfree ⊢
      exact partitionMap_hint hfree hlow
    · apply (hreserved.wellFormed.slots_sound _ hfree.1).hint_unique hafter.2
      intro other hother
      have htop : block.order = maxOrder - 1 := by
        have := hfree.1
        omega
      rw [hindex htop] at hother
      by_contra hclear
      have hcovers := hreserved.covers 0 ⟨⟨block.order, other⟩,
        ⟨hfree.1, by simpa [BpaMap.slots] using hclear⟩, by
          rw [Block.mem_def, Nat.zero_div]
          simp only
          omega⟩
      omega
  · intro other hother hlt
    have hold := hreserved.subset other hother
    rw [hfresh] at hfree hold
    exact partitionMap_leftmost_lt hfree hold hlt
  · intro order hlt hempty
    have horder : order < maxOrder - 1 := by
      have := hfree.1
      omega
    rw [(hbelow _ horder).1, hfresh] at hempty
    exact (partitionMap_stocked horder (hstocked order hlt) hempty).elim

theorem Region.InfoLeads.congr {other : Region} {block : Block}
    (hleads : region.InfoLeads mbp block) (hstart : other.start = region.start)
    (hsize : other.size = region.size) : other.InfoLeads mbp block := by
  obtain ⟨horder, hfresh, hleads, hwhole, hguided⟩ := hleads
  have hpage : other.infoPage mbp = region.infoPage mbp := by
    rw [Region.infoPage, Region.infoPage, hstart]
  refine ⟨horder, ?_, ?_, ?_, ?_⟩
  · rwa [hsize]
  · rwa [hpage]
  · rwa [hpage, hstart, hsize]
  · rwa [hstart, hsize]

/-- Information in low memory is reserved already, and asking for its page again
takes nothing. -/
theorem LowReserved.protectInfo_low {after : Region}
    (hreserved : LowReserved region after) (hsize : 0 < after.size)
    (hspace : after.start + after.size < wordSize) (hmbp : mbp < 2 ^ 32)
    (hpages : after.map.pages = after.size / pageSize)
    (hinfo : region.InfoLow mbp) (hmeets : after.Meets mbp) :
    ∃ last, protectInfo after mbp = .ok last ∧ last.start = after.start ∧
      last.Shields (Spare after.start after.map.pages mbp) := by
  have hinfo : after.InfoLow mbp := by
    unfold Region.InfoLow at *
    rwa [hreserved.start_eq, hreserved.size_eq]
  have hpage : after.infoPage mbp < 512 := by
    obtain ⟨hstart, hlow, -⟩ := hinfo
    rw [Region.infoPage, hstart]
    simp only [lowMemory, pageSize] at *
    omega
  obtain ⟨address, hcall⟩ := @pagesReserve_of_none after 0 (after.infoPage mbp)
    hreserved.unlocked (by
      intro order _ horder
      by_contra hclear
      have hcovers := hreserved.covers (after.infoPage mbp)
        ⟨⟨order, after.infoPage mbp / 2 ^ order⟩,
          ⟨horder, by simpa using hclear⟩, Block.mem_def.mpr rfl⟩
      omega) (by decide)
  refine ⟨_, protectInfo_of_meets hsize hspace hmbp hmeets hcall, rfl, rfl,
    Region.addressable_of_size hspace hpages, fun _ h => h.1,
    .inl ⟨hreserved.wellFormed, ?_⟩⟩
  intro point hpoint
  have hlt := hreserved.wellFormed.lt_pages hpoint
  exact ⟨hlt, hinfo.clear (hreserved.covers point hpoint) (hpages ▸ hlt)⟩

theorem protect_low
    (hfresh : region.map = partitionMap (region.size / pageSize) maxOrder)
    (hlock : region.lock = false) (hsize : 0 < region.size)
    (hspace : region.start + region.size < wordSize) (hmbp : mbp < 2 ^ 32)
    (hwhole : region.LowWhole)
    (hinfo : ¬ region.Meets mbp ∨ region.InfoLow mbp ∨
      ∃ block, region.InfoLeads mbp block) :
    ∃ after, memPProtect region mbp = .ok after ∧
      after.start = region.start ∧
      after.Shields (Spare region.start region.map.pages mbp) := by
  have hpages := fresh_pages hfresh
  have hwell := fresh_wellFormed hfresh (pages_lt_of_space hspace)
  obtain ⟨low, hlowCall, hreserved⟩ :=
    protectLow_reserved hfresh hlock (pages_lt_of_space hspace) hwhole
  have hlow : ∀ point, low.map.free.Covers point →
      lowMemory ≤ low.start + pageSize * point := by
    intro point hpoint
    have := hreserved.covers point hpoint
    simp only [lowMemory, pageSize]
    omega
  have hlowPages : low.map.pages = low.size / pageSize := by
    rw [hreserved.pages_eq, hreserved.size_eq]
    exact hpages
  rw [← hreserved.start_eq, ← hreserved.size_eq] at hspace
  rw [← hreserved.size_eq] at hsize
  have hmeetsEq : low.Meets mbp ↔ region.Meets mbp := by
    unfold Region.Meets
    rw [hreserved.start_eq, hreserved.size_eq]
  rw [memPProtect, hlowCall, ← hreserved.start_eq, ← hreserved.pages_eq]
  simp only
  by_cases hmeets : low.Meets mbp
  · rcases hinfo with hnot | hinfoLow | ⟨block, hleads⟩
    · exact (hnot (hmeetsEq.mp hmeets)).elim
    · exact hreserved.protectInfo_low hsize hspace hmbp hlowPages hinfoLow
        hmeets
    · have hstart := hwhole.1
      obtain ⟨hfirst, hindex, hstocked⟩ := hleads.guided hstart
      have hfree := hleads.mem_free hfresh
      have hmany : 512 < region.map.pages := Nat.lt_of_le_of_lt hfirst
        (hwell.lt_pages ⟨block, hfree, block.first_mem⟩)
      apply protectInfo_guided hreserved.unlocked hsize hspace hmbp hlowPages
        hreserved.wellFormed hlow (hleads.congr hreserved.start_eq
          hreserved.size_eq) (hreserved.free block hfree hfirst)
      · exact hreserved.guides hfresh hfree hmany hfirst hindex hstocked
      · exact hmeets
  · exact protectInfo_outside hreserved.unlocked hspace hmbp hlowPages
      hreserved.wellFormed hlow hmeets

theorem protect_fresh
    (hfresh : region.map = partitionMap (region.size / pageSize) maxOrder)
    (hlock : region.lock = false) (hsize : 0 < region.size)
    (hmbp : mbp < 2 ^ 32) (hprotectable : Protectable region mbp) :
    ∃ after, memPProtect region mbp = .ok after ∧
      after.start = region.start ∧
      after.Shields (Spare region.start region.map.pages mbp) := by
  obtain ⟨hspace, hlow, hinfo⟩ := hprotectable
  cases hlow with
  | inl hhigh =>
      apply protect_high hfresh hlock hsize hspace hmbp hhigh
      rcases hinfo with hnot | hinfoLow | hleads
      · exact .inl hnot
      · rw [hinfoLow.1] at hhigh
        exact absurd hhigh (by decide)
      · exact .inr hleads
  | inr hwhole =>
      exact protect_low hfresh hlock hsize hspace hmbp hwhole hinfo

theorem Protectable.congr {other : Region} (hprotectable : Protectable region mbp)
    (hstart : other.start = region.start) (hsize : other.size = region.size) :
    Protectable other mbp := by
  obtain ⟨hspace, hlow, hinfo⟩ := hprotectable
  refine ⟨?_, ?_, ?_⟩
  · rwa [hstart, hsize]
  · unfold Region.LowWhole at *
    rwa [hstart, hsize]
  · rcases hinfo with hnot | hinfoLow | ⟨block, hleads⟩
    · left
      unfold Region.Meets at *
      rwa [hstart, hsize]
    · right
      left
      unfold Region.InfoLow at *
      rwa [hstart, hsize]
    · exact .inr (.inr ⟨block, hleads.congr hstart hsize⟩)

end

theorem regionMap_fields {region fresh : Region} {pages : Nat}
    (hfresh : regionMap region pages = .ok fresh) :
    fresh.start = region.start ∧ fresh.size = region.size ∧
      fresh.lock = false ∧ fresh.map = partitionMap pages maxOrder := by
  cases hlock : region.lock with
  | true => simp [regionMap, spinlockLock, hlock] at hfresh
  | false =>
      rw [regionMap_eq region _ hlock] at hfresh
      cases hfresh
      exact ⟨rfl, rfl, hlock, rfl⟩

end Synos.Page

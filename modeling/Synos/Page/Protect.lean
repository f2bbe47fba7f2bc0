import Synos.Page.Shield
import Synos.Page.LogOrder
import Synos.Page.Partition

namespace Synos.Page

open Synos.Data

/-! Protecting low memory and the multiboot information: `mem_p_protect` turns
the two byte ranges into blocks and reserves them in a fresh region. -/

/-- The kernel image and the early stack lie below this address. -/
def lowMemory : Nat := 0x200000

def mbootInfoSize : Nat := 116

def protectLow (region : Region) : Except Fault Region :=
  if region.start < lowMemory then
    let resSize := lowMemory - region.start
    let resSize := if region.size < resSize then region.size else resSize
    let pages := (resSize + (pageSize - 1)) / pageSize
    -- the offset counts pages from address zero, not blocks from the region
    match pagesReserve region (logOrder pages) (region.start / pageSize) with
    | .error fault => .error fault
    | .ok (_, region) => .ok region
  else
    .ok region

def protectInfo (region : Region) (mbp : Nat) : Except Fault Region :=
  if region.start < wordAdd mbp mbootInfoSize ∧
      mbp < wordAdd region.start region.size then
    let start := if mbp < region.start then region.start else mbp
    let resSize := wordSub mbootInfoSize (wordSub start mbp)
    let rest := wordSub region.size (wordSub start region.start)
    let resSize := if rest < resSize then rest else resSize
    let pages := (resSize + (pageSize - 1)) / pageSize
    match pagesReserve region (logOrder pages)
        (wordSub start region.start / pageSize) with
    | .error fault => .error fault
    | .ok (_, region) => .ok region
  else
    .ok region

def memPProtect (region : Region) (mbp : Nat) : Except Fault Region :=
  match protectLow region with
  | .error fault => .error fault
  | .ok region => protectInfo region mbp

/-! When the protection holds. -/

section

variable {Map : Type} (region : Region Map) (mbp : Nat)

/-- The order that is asked for the part of low memory that the region has. -/
def Region.lowOrder : Nat :=
  let resSize := lowMemory - region.start
  let resSize := if region.size < resSize then region.size else resSize
  logOrder ((resSize + (pageSize - 1)) / pageSize)

def Region.infoStart : Nat := if mbp < region.start then region.start else mbp

def Region.infoOrder : Nat :=
  let resSize := wordSub mbootInfoSize (wordSub (region.infoStart mbp) mbp)
  let rest :=
    wordSub region.size (wordSub (region.infoStart mbp) region.start)
  let resSize := if rest < resSize then rest else resSize
  logOrder ((resSize + (pageSize - 1)) / pageSize)

def Region.infoOffset : Nat :=
  wordSub (region.infoStart mbp) region.start / pageSize

/-- Some byte of the multiboot information lies in the region. -/
def Region.Meets : Prop :=
  region.start < mbp + mbootInfoSize ∧ mbp < region.start + region.size

/-- The page of the region at which the information begins. -/
def Region.infoPage : Nat := (max region.start mbp - region.start) / pageSize

/-- The low end of the region is a whole block of the fresh partition. -/
def Region.LowWhole : Prop :=
  region.start = 0 ∧ (lowMemory ≤ region.size ∨
    ∃ order < maxOrder - 1, region.size = pageSize * 2 ^ order)

/-- The information lies in low memory, up to what the region does not have. -/
def Region.InfoLow : Prop :=
  region.start = 0 ∧ mbp < lowMemory ∧
    (mbp + mbootInfoSize ≤ lowMemory ∨ region.size < lowMemory + pageSize)

/-- The information lies in one page, which is one of the first two of `block`,
a block of the fresh partition.  A region that starts at zero moreover needs
true hints on the way down, as a stale one names low memory. -/
structure Region.InfoLeads (block : Block) : Prop where
  order_lt : block.order < maxOrder
  fresh : inPartition (region.size / pageSize) block.order block.index = true
  leads : Leads block (region.infoPage mbp)
  whole : mbp + mbootInfoSize ≤
      region.start + (region.infoPage mbp + 1) * pageSize ∨
    region.size / pageSize ≤ region.infoPage mbp + 1
  guided : region.start = 0 → 512 ≤ block.first ∧
    (block.order = maxOrder - 1 → block.index = 1) ∧
    ∀ order < block.order, region.size / pageSize / 2 ^ order % 2 = 1

/-- `mem_p_protect` reserves both ranges. -/
structure Protectable : Prop where
  space : region.start + region.size < wordSize
  low : lowMemory ≤ region.start ∨ region.LowWhole
  info : ¬ region.Meets mbp ∨ region.InfoLow mbp ∨
    ∃ block, region.InfoLeads mbp block

end

/-- The grant has no byte in common with low memory or the information. -/
def Grant.Unprotected (grant : Grant) (mbp : Nat) : Prop :=
  lowMemory ≤ grant.address ∧
    (grant.stop ≤ mbp ∨ mbp + mbootInfoSize ≤ grant.address)

instance (grant : Grant) (mbp : Nat) : Decidable (grant.Unprotected mbp) :=
  inferInstanceAs (Decidable (_ ∧ _))

/-! The same for one page of a region. -/

def PageClear (start mbp page : Nat) : Prop :=
  lowMemory ≤ start + pageSize * page ∧
    (start + pageSize * (page + 1) ≤ mbp ∨
      mbp + mbootInfoSize ≤ start + pageSize * page)

theorem unprotected_of_pageClear {start mbp : Nat} {block : Block}
    (hclear : block.Within (PageClear start mbp)) :
    (grantOf start block).Unprotected mbp := by
  have hfirst := hclear _ block.first_mem
  refine ⟨hfirst.1, ?_⟩
  rw [grantOf_stop]
  simp only [grantOf]
  by_contra hmeets
  -- the page of the block with the first byte that both have
  have hpage : (max (start + pageSize * block.first) mbp - start) / pageSize ∈
      block := by
    have hpos := Nat.two_pow_pos block.order
    rw [Block.mem_iff]
    simp only [pageSize, mbootInfoSize] at *
    omega
  have hpageClear := (hclear _ hpage).2
  simp only [pageSize, mbootInfoSize] at *
  omega

section

variable {region : Region} {mbp : Nat}

theorem Region.InfoLeads.clear {block : Block}
    (hleads : region.InfoLeads mbp block) {page : Nat}
    (hlow : lowMemory ≤ region.start + pageSize * page)
    (hlt : page < region.size / pageSize)
    (hne : page ≠ region.infoPage mbp) : PageClear region.start mbp page := by
  have hwhole := hleads.whole
  refine ⟨hlow, ?_⟩
  unfold Region.infoPage at *
  simp only [pageSize, mbootInfoSize] at *
  omega

theorem pageClear_of_not_meets (hmeets : ¬ region.Meets mbp) {page : Nat}
    (hlow : lowMemory ≤ region.start + pageSize * page)
    (hlt : page < region.size / pageSize) :
    PageClear region.start mbp page := by
  refine ⟨hlow, ?_⟩
  unfold Region.Meets at hmeets
  simp only [pageSize, mbootInfoSize] at *
  omega

theorem Region.InfoLow.clear (hinfo : region.InfoLow mbp) {page : Nat}
    (hpage : 512 ≤ page) (hlt : page < region.size / pageSize) :
    PageClear region.start mbp page := by
  obtain ⟨hstart, -, hfits⟩ := hinfo
  unfold PageClear
  simp only [hstart, pageSize, mbootInfoSize, lowMemory] at *
  omega

/-! The calls that `mem_p_protect` makes. -/

theorem protectLow_eq : protectLow region =
    if region.start < lowMemory then
      (pagesReserve region region.lowOrder (region.start / pageSize)).map
        Prod.snd
    else .ok region := by
  rw [protectLow]
  refine if_congr Iff.rfl ?_ rfl
  change (match pagesReserve region region.lowOrder (region.start / pageSize) with
    | .error fault => .error fault
    | .ok (_, region) => .ok region : Except Fault Region) = _
  cases pagesReserve region region.lowOrder (region.start / pageSize) <;> rfl

theorem protectInfo_eq : protectInfo region mbp =
    if region.start < wordAdd mbp mbootInfoSize ∧
        mbp < wordAdd region.start region.size then
      (pagesReserve region (region.infoOrder mbp) (region.infoOffset mbp)).map
        Prod.snd
    else .ok region := by
  rw [protectInfo]
  refine if_congr Iff.rfl ?_ rfl
  change (match pagesReserve region (region.infoOrder mbp)
      (region.infoOffset mbp) with
    | .error fault => .error fault
    | .ok (_, region) => .ok region : Except Fault Region) = _
  cases pagesReserve region (region.infoOrder mbp) (region.infoOffset mbp) <;>
    rfl

theorem meets_iff {Map : Type} {region : Region Map}
    (hspace : region.start + region.size < wordSize) (hmbp : mbp < 2 ^ 32) :
    (region.start < wordAdd mbp mbootInfoSize ∧
        mbp < wordAdd region.start region.size) ↔ region.Meets mbp := by
  have hinfo : wordAdd mbp mbootInfoSize = mbp + mbootInfoSize :=
    wordAdd_of_lt (by simp only [mbootInfoSize, wordSize]; omega)
  rw [hinfo, wordAdd_of_lt hspace, Region.Meets]

theorem protectInfo_of_not_meets
    (hspace : region.start + region.size < wordSize)
    (hmbp : mbp < 2 ^ 32) (hmeets : ¬ region.Meets mbp) :
    protectInfo region mbp = .ok region := by
  rw [protectInfo_eq]
  exact if_neg (mt (meets_iff hspace hmbp).mp hmeets)

theorem info_of_meets {Map : Type} {region : Region Map}
    (hsize : 0 < region.size)
    (hspace : region.start + region.size < wordSize)
    (hmeets : region.Meets mbp) :
    region.infoOrder mbp = 0 ∧ region.infoOffset mbp = region.infoPage mbp := by
  have hstart : region.infoStart mbp = max region.start mbp := by
    unfold Region.infoStart
    split <;> omega
  obtain ⟨hlow, hhigh⟩ := hmeets
  have hmax : max region.start mbp < wordSize := by
    simp only [wordSize] at *
    omega
  have hlowMax : region.start ≤ max region.start mbp := Nat.le_max_left _ _
  have hinfoMax : mbp ≤ max region.start mbp := Nat.le_max_right _ _
  have hinfoLt : max region.start mbp < mbp + mbootInfoSize := by
    rw [Nat.max_lt]
    exact ⟨hlow, Nat.lt_add_of_pos_right (by decide)⟩
  have hregionLt : max region.start mbp < region.start + region.size := by
    rw [Nat.max_lt]
    exact ⟨by omega, hhigh⟩
  rw [Region.infoPage]
  simp only [Region.infoOrder, Region.infoOffset, hstart]
  generalize max region.start mbp = base at *
  have hdown : wordSub base region.start = base - region.start :=
    wordSub_of_le hlowMax hmax
  have hskip : wordSub base mbp = base - mbp := wordSub_of_le hinfoMax hmax
  have hres : wordSub mbootInfoSize (base - mbp) =
      mbootInfoSize - (base - mbp) :=
    wordSub_of_le (by omega) (by decide)
  have hrest : wordSub region.size (base - region.start) =
      region.size - (base - region.start) :=
    wordSub_of_le (by omega) (by omega)
  have hone : ∀ rest size, 0 < rest → 0 < size → size ≤ mbootInfoSize →
      ((if rest < size then rest else size) + (pageSize - 1)) / pageSize =
        1 := by
    intro rest size hrest hsize hle
    simp only [pageSize, mbootInfoSize] at *
    split <;> omega
  have hpages := hone (region.size - (base - region.start))
    (mbootInfoSize - (base - mbp)) (by omega) (by omega) (by omega)
  have horder : logOrder 1 = 0 := logOrder_two_pow 0 (by decide)
  simp only [hdown, hskip, hres, hrest, hpages, horder, and_self]

theorem protectInfo_of_meets (hsize : 0 < region.size)
    (hspace : region.start + region.size < wordSize)
    (hmbp : mbp < 2 ^ 32) (hmeets : region.Meets mbp) {address : Nat}
    {after : Region}
    (hcall : pagesReserve region 0 (region.infoPage mbp) =
      .ok (address, after)) :
    protectInfo region mbp = .ok after := by
  obtain ⟨horder, hoffset⟩ := info_of_meets hsize hspace hmeets
  rw [protectInfo_eq, if_pos ((meets_iff hspace hmbp).mpr hmeets), horder,
    hoffset, hcall]
  rfl

theorem protectLow_of_high (hstart : lowMemory ≤ region.start) :
    protectLow region = .ok region :=
  if_neg (by omega)

theorem lowOrder_of_whole {Map : Type} {region : Region Map}
    (hwhole : region.LowWhole) :
    region.lowOrder < maxOrder ∧ region.start / pageSize = 0 ∧
      inPartition (region.size / pageSize) region.lowOrder 0 = true ∧
      (region.lowOrder = maxOrder - 1 ∧ lowMemory ≤ region.size ∨
        region.size / pageSize = 2 ^ region.lowOrder) := by
  obtain ⟨hstart, hsize⟩ := hwhole
  have hlow : ∀ order < maxOrder,
      ((if region.size < lowMemory then region.size else lowMemory) +
        (pageSize - 1)) / pageSize = 2 ^ order →
      region.lowOrder = order := by
    intro order horder hpages
    simp only [Region.lowOrder, hstart, Nat.sub_zero, hpages,
      logOrder_two_pow order horder]
  rw [hstart, Nat.zero_div]
  cases hsize with
  | inl hlarge =>
      have hpages : ((if region.size < lowMemory then region.size
          else lowMemory) + (pageSize - 1)) / pageSize =
            2 ^ (maxOrder - 1) := by
        rw [if_neg (by omega)]
        decide
      rw [hlow _ (by decide) hpages]
      refine ⟨by decide, rfl, ?_, .inl ⟨rfl, hlarge⟩⟩
      rw [inPartition_top, decide_eq_true_eq]
      simp only [lowMemory, pageSize, maxOrder] at *
      omega
  | inr hsmall =>
      obtain ⟨order, horder, hsize⟩ := hsmall
      have hpages : region.size / pageSize = 2 ^ order := by
        rw [hsize, Nat.mul_div_cancel_left _ (by decide)]
      have hself : region.size / pageSize / 2 ^ order = 1 := by
        rw [hpages, Nat.div_self (Nat.two_pow_pos order)]
      have hlt : region.size < lowMemory := by
        have hpow := Nat.pow_lt_pow_right (show 1 < 2 by decide) horder
        simp only [lowMemory, pageSize, maxOrder] at *
        omega
      have hask : ((if region.size < lowMemory then region.size
          else lowMemory) + (pageSize - 1)) / pageSize = 2 ^ order := by
        rw [if_pos hlt, hsize]
        simp only [pageSize]
        omega
      rw [hlow order (by omega) hask]
      refine ⟨by omega, rfl, ?_, .inr hpages⟩
      rw [inPartition_low horder, hself]
      decide

theorem protectLow_of_whole (hwhole : region.LowWhole) :
    ∃ order < maxOrder,
      inPartition (region.size / pageSize) order 0 = true ∧
      (order = maxOrder - 1 ∨ region.size / pageSize = 2 ^ order) ∧
      ∀ address after,
        pagesReserve region order 0 = .ok (address, after) →
        protectLow region = .ok after := by
  obtain ⟨horder, hzero, hin, hcase⟩ := lowOrder_of_whole hwhole
  refine ⟨_, horder, hin, hcase.imp_left And.left, ?_⟩
  intro address after hcall
  rw [protectLow_eq, if_pos (by rw [hwhole.1]; decide), hzero, hcall]
  rfl

end

end Synos.Page

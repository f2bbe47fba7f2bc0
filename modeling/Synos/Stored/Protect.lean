import Synos.Stored.CallRun
import Synos.Stored.Reserve
import Synos.Page.ProtectRun

namespace Synos.Stored

open Synos.Data
open Synos.Page

/-! `mem_p_protect` on the bytes of memory. -/

section

variable {region : Region StoredMap} {mbp : Nat}

theorem protectLow_eq : Stored.protectLow region =
    if region.start < lowMemory then
      (Stored.pagesReserve region region.lowOrder
        (region.start / pageSize)).map Prod.snd
    else .ok region := by
  rw [Stored.protectLow]
  refine if_congr Iff.rfl ?_ rfl
  extract_lets resSize capped pages
  split
  · next fault hreply => exact (congrArg (Except.map Prod.snd) hreply).symm
  · next address after hreply =>
      exact (congrArg (Except.map Prod.snd) hreply).symm

theorem protectInfo_eq : Stored.protectInfo region mbp =
    if region.start < wordAdd mbp mbootInfoSize ∧
        mbp < wordAdd region.start region.size then
      (Stored.pagesReserve region (region.infoOrder mbp)
        (region.infoOffset mbp)).map Prod.snd
    else .ok region := by
  rw [Stored.protectInfo]
  refine if_congr Iff.rfl ?_ rfl
  extract_lets start resSize rest capped pages
  split
  · next fault hreply => exact (congrArg (Except.map Prod.snd) hreply).symm
  · next address after hreply =>
      exact (congrArg (Except.map Prod.snd) hreply).symm

end

section

variable {place : Place} {origin : Memory} {stored : Region StoredMap}
  {region : Region} {mbp : Nat}

theorem Place.replies_after {reply : Except Fault (Nat × Region StoredMap)}
    {other : Except Fault (Nat × Region)}
    (hreply : Simulates (place.Replies origin) reply other) :
    Simulates (place.Mirrors origin) (reply.map Prod.snd)
      (other.map Prod.snd) := by
  rcases hreply.cases with
    ⟨fault, rfl, rfl⟩ | ⟨first, second, rfl, rfl, hreply⟩
  · rfl
  · exact hreply.2

theorem Place.Mirrors.protectLow
    (hmirrors : place.Mirrors origin stored region)
    (hreads : region.start < lowMemory →
      place.InBitmap region.lowOrder (region.start / pageSize) ∧
        (region.map.freeArea region.lowOrder (region.start / pageSize) = true →
          place.Climbs region.map region.lowOrder
            (region.start / pageSize))) :
    Simulates (place.Mirrors origin) (Stored.protectLow stored)
      (Page.protectLow region) := by
  have horder : stored.lowOrder = region.lowOrder := by
    rw [hmirrors.1]
    rfl
  rw [Stored.protectLow_eq, Page.protectLow_eq, hmirrors.start_eq, horder]
  by_cases hlow : region.start < lowMemory
  · rw [if_pos hlow, if_pos hlow]
    obtain ⟨hbit, hclimbs⟩ := hreads hlow
    exact Place.replies_after (hmirrors.pagesReserve hbit hclimbs)
  · rw [if_neg hlow, if_neg hlow]
    exact hmirrors

theorem Place.Mirrors.protectInfo
    (hmirrors : place.Mirrors origin stored region) (hsize : 0 < region.size)
    (hspace : region.start + region.size < wordSize) (hmbp : mbp < 2 ^ 32)
    (hreads : region.Meets mbp →
      place.InBitmap 0 (region.infoPage mbp) ∧
        (region.map.freeArea 0 (region.infoPage mbp) = true →
          place.Climbs region.map 0 (region.infoPage mbp))) :
    Simulates (place.Mirrors origin) (Stored.protectInfo stored mbp)
      (Page.protectInfo region mbp) := by
  have hfields : (stored.start = region.start ∧ stored.size = region.size) ∧
      stored.infoOrder mbp = region.infoOrder mbp ∧
        stored.infoOffset mbp = region.infoOffset mbp := by
    rw [hmirrors.1]
    exact ⟨⟨rfl, rfl⟩, rfl, rfl⟩
  obtain ⟨⟨hstart, hsizeEq⟩, horderEq, hoffsetEq⟩ := hfields
  rw [Stored.protectInfo_eq, Page.protectInfo_eq, hstart, hsizeEq, horderEq,
    hoffsetEq]
  by_cases hmeets : region.Meets mbp
  · have hcase := (meets_iff hspace hmbp).mpr hmeets
    obtain ⟨horder, hoffset⟩ := info_of_meets hsize hspace hmeets
    obtain ⟨hbit, hclimbs⟩ := hreads hmeets
    rw [if_pos hcase, if_pos hcase, horder, hoffset]
    exact Place.replies_after (hmirrors.pagesReserve hbit hclimbs)
  · have hcase := mt (meets_iff hspace hmbp).mp hmeets
    rw [if_neg hcase, if_neg hcase]
    exact hmirrors

theorem Place.Keeps.reads_of_free {stored : StoredMap} {map : BpaMap}
    (hkeeps : place.Keeps origin stored map) {block outer : Block}
    (hfree : outer ∈ map.free) (hinside : block.Inside outer) :
    place.InBitmap block.order block.index ∧
      (map.freeArea block.order block.index = true →
        place.Climbs map block.order block.index) := by
  have hlt := hkeeps.padded.clear_lt outer.order hfree.1 outer.index hfree.2
  exact ⟨hkeeps.fits.inBitmap (inArea_of_inside hlt hfree.1 hinside),
    hkeeps.fits.climbs hlt hfree hinside⟩

/-- The bitmaps have the byte at which that of the top order begins. -/
def Place.Ends (place : Place) : Prop :=
  (areaLayout place.pages (maxOrder - 1)).1 < place.size

theorem Place.Fits.climbs_low (hfits : place.Fits) (map : BpaMap) {page : Nat}
    (hpage : page < 512) (hlt : page < place.pages)
    (hcase : 512 ≤ place.pages ∨
      place.Ends ∧ ∃ order, place.pages = 2 ^ order) :
    place.Climbs map 0 page := by
  intro top hpos htop _
  have hpow := Nat.two_pow_pos top
  rw [Nat.sub_zero]
  by_cases hinside : page / 2 ^ top < place.pages / 2 ^ top
  · exact hfits.inBitmap (inArea_of_lt htop hinside)
  · have hdvd : ∀ {order}, top ≤ order → 2 ^ order ≤ place.pages →
        ¬ page < 2 ^ order := by
      intro order hle hpages hbelow
      apply hinside
      have hmul : 2 ^ order / 2 ^ top * 2 ^ top = 2 ^ order :=
        Nat.div_mul_cancel (pow_dvd_pow 2 hle)
      have hdiv : page / 2 ^ top < 2 ^ order / 2 ^ top := by
        rw [Nat.div_lt_iff_lt_mul hpow, hmul]
        exact hbelow
      exact Nat.lt_of_lt_of_le hdiv (Nat.div_le_div_right hpages)
    rcases hcase with hmany | ⟨hends, order, horder⟩
    · exact absurd hpage
        (hdvd (show top ≤ 9 from Nat.le_of_lt_succ htop) hmany)
    · have hbelow : order < top := by
        by_contra hle
        exact hdvd (Nat.le_of_not_lt hle) (Nat.le_of_eq horder.symm)
          (horder ▸ hlt)
      have hzero : page / 2 ^ top = 0 := by
        refine Nat.div_eq_of_lt (Nat.lt_trans (horder ▸ hlt) ?_)
        exact Nat.pow_lt_pow_right (by decide) hbelow
      rw [hzero]
      refine ⟨htop, ?_, ?_⟩
      · rw [areaLayout_size (Nat.zero_lt_of_lt hlt)]
        exact Nat.mul_pos (by decide) (Nat.succ_pos _)
      · rw [blockByte, Nat.zero_div, Nat.add_zero]
        refine Nat.lt_of_le_of_lt ?_ hends
        rcases Nat.eq_or_lt_of_le (Nat.le_sub_one_of_lt htop) with rfl | hlow
        · exact Nat.le_refl _
        · have := areaLayout_disjoint place.pages hlow
          omega

theorem Place.Mirrors.protectLow_fresh
    (hmirrors : place.Mirrors origin stored region)
    (hfresh : region.map = partitionMap (region.size / pageSize) maxOrder)
    (hlock : region.lock = false) (hprotectable : Protectable region mbp) :
    ∃ after before, Stored.protectLow stored = .ok after ∧
      Page.protectLow region = .ok before ∧ place.Mirrors origin after before ∧
      before.start = region.start ∧ before.size = region.size ∧
      ∀ block, region.InfoLeads mbp block → block ∈ before.map.free := by
  obtain ⟨hspace, hlow | hwhole, -⟩ := hprotectable
  · have hstored : ¬ stored.start < lowMemory := by
      rw [hmirrors.start_eq]
      omega
    refine ⟨stored, region, ?_, protectLow_of_high hlow, hmirrors, rfl, rfl,
      fun block hleads => hleads.mem_free hfresh⟩
    rw [Stored.protectLow_eq, if_neg hstored]
  · obtain ⟨low, hcall, hreserved⟩ :=
      protectLow_reserved hfresh hlock (pages_lt_of_space hspace) hwhole
    obtain ⟨horder, hzero, hin, -⟩ := lowOrder_of_whole hwhole
    have hfree : (⟨region.lowOrder, 0⟩ : Block) ∈ region.map.free := by
      rw [hfresh, mem_partitionMap_free]
      exact ⟨horder, hin⟩
    have hreads := hmirrors.2.reads_of_free hfree fun _ hpoint => hpoint
    obtain ⟨after, hstored, hafter⟩ :=
      (hmirrors.protectLow fun _ => hzero ▸ hreads).exists_left hcall
    refine ⟨after, low, hstored, hcall, hafter, hreserved.start_eq,
      hreserved.size_eq, fun block hleads => ?_⟩
    exact hreserved.free block (hleads.mem_free hfresh)
      (hleads.guided hwhole.1).1

theorem infoPage_lt (hlow : region.InfoLow mbp) (hwhole : region.LowWhole)
    (hmeets : region.Meets mbp) :
    region.infoPage mbp < 512 ∧
      region.infoPage mbp < region.size / pageSize ∧
      (512 ≤ region.size / pageSize ∨
        ∃ order, region.size / pageSize = 2 ^ order) := by
  obtain ⟨hstart, hlt, -⟩ := hlow
  obtain ⟨-, hmeets⟩ := hmeets
  have hpage : region.infoPage mbp = mbp / pageSize := by
    rw [Region.infoPage, hstart, Nat.zero_max, Nat.sub_zero]
  rw [hpage]
  rw [hstart, Nat.zero_add] at hmeets
  simp only [lowMemory, pageSize] at *
  refine ⟨by omega, ?_⟩
  rcases hwhole.2 with hlarge | ⟨order, -, hsize⟩
  · simp only [lowMemory] at hlarge
    omega
  · simp only [pageSize] at hsize
    have hpages : region.size / 4096 = 2 ^ order := by omega
    rw [hpages]
    refine ⟨?_, .inr ⟨order, rfl⟩⟩
    omega

theorem Place.Mirrors.memPProtect
    (hmirrors : place.Mirrors origin stored region)
    (hfresh : region.map = partitionMap (region.size / pageSize) maxOrder)
    (hlock : region.lock = false) (hsize : 0 < region.size)
    (hmbp : mbp < 2 ^ 32) (hprotectable : Protectable region mbp)
    (hends : region.InfoLow mbp → place.Ends) :
    Simulates (place.Mirrors origin) (Stored.memPProtect stored mbp)
      (Page.memPProtect region mbp) := by
  have hpages : place.pages = region.size / pageSize :=
    hmirrors.2.map_pages.symm.trans (fresh_pages hfresh)
  obtain ⟨after, low, hstored, hcall, hlow, hstart, hsizeEq, hfree⟩ :=
    hmirrors.protectLow_fresh hfresh hlock hprotectable
  obtain ⟨hspace, hstartCase, hinfo⟩ := hprotectable
  rw [Stored.memPProtect, Page.memPProtect, hstored, hcall]
  refine hlow.protectInfo (hsizeEq ▸ hsize)
    (by rw [hstart, hsizeEq]; exact hspace) hmbp ?_
  have hpage : low.infoPage mbp = region.infoPage mbp := by
    rw [Region.infoPage, Region.infoPage, hstart]
  rw [Region.Meets, hstart, hsizeEq, hpage]
  intro hmeets
  rcases hinfo with hnot | hinfoLow | ⟨block, hleads⟩
  · exact absurd hmeets hnot
  · have hwhole := hstartCase.resolve_left (by
      rw [hinfoLow.1]
      decide)
    obtain ⟨hpageLow, hlt, hcase⟩ := infoPage_lt hinfoLow hwhole hmeets
    rw [← hpages] at hlt hcase
    refine ⟨hlow.2.fits.inBitmap (inArea_of_lt (by decide) ?_), fun _ =>
      hlow.2.fits.climbs_low _ hpageLow hlt
        (hcase.imp_right fun hpower => ⟨hends hinfoLow, hpower⟩)⟩
    rw [pow_zero, Nat.div_one]
    exact hlt
  · refine @Place.Keeps.reads_of_free _ _ _ _ hlow.2 ⟨0, region.infoPage mbp⟩
      block (hfree block hleads) fun point hpoint => ?_
    rw [Block.mem_def, pow_zero, Nat.div_one] at hpoint
    rw [show point = region.infoPage mbp from hpoint]
    exact hleads.leads.mem

theorem Place.Reflects.run_allocs {stored : Session StoredMap} {session : Session}
    (hreflects : place.Reflects origin stored session) (orders : List Nat) :
    Simulates (place.Reflects origin)
      (callMachine.run stored (orders.map .alloc))
      (Page.callMachine.run session (orders.map .alloc)) := by
  refine @Place.Reflects.run _ _ _ _ hreflects (fun _ _ => True) _ ?_
  have hguard : ∀ state, Page.callMachine.Guarded (fun session call =>
      True ∧ FreesBlock place.pages session call) state
      (orders.map .alloc) := by
    induction orders with
    | nil => exact fun _ => trivial
    | cons order orders ih =>
        exact fun state => ⟨⟨trivial, trivial⟩, fun next _ => ih next⟩
  exact hguard session

end

theorem protectable_withMap {Map Other : Type} {region : Region Map} {mbp : Nat}
    (hprotectable : Protectable region mbp) (map : Other) :
    Protectable (withMap region map) mbp :=
  ⟨hprotectable.space, hprotectable.low, hprotectable.info.imp_right
    (Or.imp_right fun ⟨block, hleads⟩ => ⟨block, hleads.order_lt, hleads.fresh,
      hleads.leads, hleads.whole, hleads.guided⟩)⟩

/-- Whatever is allocated from a protectable region after `mem_p_protect` lies
outside low memory and outside the multiboot information. -/
theorem run_allocs_unprotected {place : Place} {memory : Memory}
    {region : Region Nat} {fresh : Region StoredMap} {mbp : Nat}
    (hpages : place.pages = region.size / pageSize)
    (hsize : pageSize ≤ region.size) (hmbp : mbp < 2 ^ 32)
    (hprotectable : Protectable region mbp)
    (hfits : place.Fits) (hones : place.OnesBehind memory)
    (hends : region.InfoLow mbp → place.Ends)
    (hfresh : regionMap memory region place.pages place.map place.table =
      .ok fresh) :
    ∃ after, memPProtect fresh mbp = .ok after ∧
      ∀ orders : List Nat, ∃ session,
        callMachine.run ⟨after, []⟩ (orders.map .alloc) = .ok session ∧
        ∀ grant ∈ session.live, grant.Unprotected mbp := by
  have hpos : 0 < region.size := Nat.lt_of_lt_of_le (by decide) hsize
  have hspace := hprotectable.space
  have hlt : place.pages < wordSize :=
    hpages ▸ Nat.lt_of_le_of_lt (Nat.div_le_self _ _) (by omega)
  obtain ⟨other, hother, hmirrors⟩ :=
    (regionMap_mirrors region (blankMap 0) hfits hlt hones).exists_right hfresh
  obtain ⟨hstart, hsizeEq, hlock, hmap⟩ := regionMap_fields hother
  have hotherMap : other.map = partitionMap (other.size / pageSize) maxOrder := by
    rw [hmap, hpages, hsizeEq]
    rfl
  have hotherPos : 0 < other.size := hsizeEq ▸ hpos
  have hotherProtectable : Protectable other mbp :=
    (protectable_withMap hprotectable (blankMap 0)).congr hstart hsizeEq
  obtain ⟨last, hcall, hlastStart, hshields⟩ :=
    protect_fresh hotherMap hlock hotherPos hmbp hotherProtectable
  obtain ⟨after, hstored, hafter⟩ :=
    (hmirrors.memPProtect hotherMap hlock hotherPos hmbp hotherProtectable
      (by rw [Region.InfoLow, hstart, hsizeEq]; exact hends)).exists_left hcall
  refine ⟨after, hstored, fun orders => ?_⟩
  obtain ⟨state, hrun, hlive⟩ := @Region.Shields.run last _ hshields orders []
    (fun _ h => absurd h List.not_mem_nil)
  have hreflects : place.Reflects memory ⟨after, []⟩ ⟨last, []⟩ := ⟨hafter, rfl⟩
  obtain ⟨session, hstoredRun, hsession⟩ :=
    (hreflects.run_allocs orders).exists_left hrun
  refine ⟨session, hstoredRun, fun grant hgrant => ?_⟩
  rw [hsession.live_eq] at hgrant
  obtain ⟨block, rfl, hwithin⟩ := hlive grant hgrant
  rw [hlastStart]
  exact unprotected_of_pageClear fun point hpoint =>
    (hwithin point hpoint).2

/-- A region above low memory with the multiboot information in its first
page. -/
def infoRegion : Region Nat where
  start := 0x200000
  size := 0x4000
  attrib := 0
  pagesTotal := 4
  pagesFree := 0
  memFull := false
  lock := false
  map := 0

/-- The byte of the table and two more. -/
def infoPlace : Place := ⟨4, 0x8000, 0x9000, 3⟩

theorem infoPlace_fits : infoPlace.Fits := by
  refine ⟨by decide, by decide, by decide, by decide, by decide, ?_⟩
  decide

theorem run_allocs_unprotected_first_page :
    Returns (regionMap (fun _ => 0xFF) infoRegion 4 0x8000 0x9000) fun fresh =>
      ∃ after, memPProtect fresh 0x200010 = .ok after ∧
        ∃ session, callMachine.run ⟨after, []⟩
            ([0, 1, 0, 2].map .alloc) = .ok session ∧
          ∀ grant ∈ session.live, grant.Unprotected 0x200010 := by
  have hones : infoPlace.OnesBehind fun _ => 0xFF := fun _ _ _ => rfl
  have hmapped : Returns (Page.regionMap (withMap infoRegion (blankMap 0)) 4)
      fun _ => True := by
    decide +kernel
  obtain ⟨other, hother, -⟩ := returns_iff.mp hmapped
  obtain ⟨fresh, hfresh, -⟩ := (regionMap_mirrors infoRegion (blankMap 0)
    infoPlace_fits (by decide) hones).exists_left hother
  have hprotectable : Protectable infoRegion 0x200010 := by
    refine ⟨by decide, .inl (by decide), .inr (.inr ⟨⟨2, 0⟩, ?_⟩)⟩
    exact ⟨by decide, by decide, .inl (by decide), .inl (by decide),
      fun h => absurd h (by decide)⟩
  obtain ⟨after, hcall, hrun⟩ :=
    run_allocs_unprotected (by decide) (by decide) (by decide) hprotectable
      infoPlace_fits hones (fun hlow => absurd hlow.1 (by decide)) hfresh
  exact returns_iff.mpr ⟨fresh, hfresh, after, hcall, hrun _⟩

/-- The conventional memory of a personal computer: the region below the first
megabyte that is available. -/
def conventionalRegion : Region Nat where
  start := 0
  size := 0x9F000
  attrib := 0
  pagesTotal := 159
  pagesFree := 0
  memFull := false
  lock := false
  map := 0

def conventionalPlace : Place := ⟨159, 0x8000, 0x9000, 45⟩

theorem conventionalPlace_fits : conventionalPlace.Fits := by
  refine ⟨by decide, by decide, by decide, by decide, by decide, ?_⟩
  decide +kernel

/-- The 159 pages are rounded up to a block of 256, which is not free, so nothing
is reserved and the first allocation returns a page of low memory. -/
theorem run_allocs_low_memory :
    Returns (regionMap (fun _ => 0xFF) conventionalRegion 159 0x8000 0x9000)
      fun fresh =>
        Returns (memPProtect fresh 0x100000) fun after =>
          Returns (callMachine.run ⟨after, []⟩ [.alloc 0]) fun session =>
            session.live = [⟨0x9E000, 0⟩] ∧
              ¬ (⟨0x9E000, 0⟩ : Grant).Unprotected 0x100000 := by
  have hruns : Returns
      (Page.regionMap (withMap conventionalRegion (blankMap 0)) 159) fun fresh =>
        Returns (Page.protectLow fresh) (fun low =>
          low.start = 0 ∧ low.size = 0x9F000) ∧
        Returns (Page.memPProtect fresh 0x100000) fun after =>
          Returns (Page.callMachine.run ⟨after, []⟩ [.alloc 0]) fun session =>
            session.live = [⟨0x9E000, 0⟩] ∧
              ¬ (⟨0x9E000, 0⟩ : Grant).Unprotected 0x100000 := by
    decide +kernel
  simp only [returns_iff] at hruns ⊢
  obtain ⟨other, hother, ⟨low, hlow, hlowStart, hlowSize⟩, last, hlast, state,
    hrun, hlive, hnot⟩ := hruns
  have hones : conventionalPlace.OnesBehind fun _ => 0xFF := fun _ _ _ => rfl
  obtain ⟨fresh, hfresh, hmirrors⟩ := (regionMap_mirrors conventionalRegion
    (blankMap 0) conventionalPlace_fits (by decide) hones).exists_left hother
  obtain ⟨hstart, hsize, -⟩ := regionMap_fields hother
  have horder : other.lowOrder = 8 := by
    rw [Region.lowOrder, hstart, hsize]
    decide
  have hreserve : Simulates (conventionalPlace.Mirrors fun _ => 0xFF)
      (Stored.protectLow fresh) (Page.protectLow other) := by
    refine hmirrors.protectLow fun _ => ?_
    rw [horder, hstart]
    refine ⟨by decide, fun _ top hgt hlt _ => ?_⟩
    obtain rfl : top = 9 := by
      simp only [maxOrder] at hlt
      omega
    decide
  obtain ⟨storedLow, hstoredLow, hlowMirrors⟩ := hreserve.exists_left hlow
  have hinfo : Simulates (conventionalPlace.Mirrors fun _ => 0xFF)
      (Stored.protectInfo storedLow 0x100000)
      (Page.protectInfo low 0x100000) := by
    refine hlowMirrors.protectInfo (by rw [hlowSize]; decide)
      (by rw [hlowStart, hlowSize]; decide) (by decide) fun hmeets => ?_
    rw [Region.Meets, hlowStart, hlowSize] at hmeets
    exact absurd hmeets (by decide)
  rw [Page.memPProtect, hlow] at hlast
  obtain ⟨after, hafter, hafterMirrors⟩ := hinfo.exists_left hlast
  have hstored : Stored.memPProtect fresh 0x100000 = .ok after := by
    rw [Stored.memPProtect, hstoredLow]
    exact hafter
  obtain ⟨session, hsession, hsame⟩ := (@Place.Reflects.run_allocs
    conventionalPlace _ ⟨after, []⟩ ⟨last, []⟩ ⟨hafterMirrors, rfl⟩
      [0]).exists_left hrun
  exact ⟨fresh, hfresh, after, hstored, session, hsession,
    hsame.live_eq.trans hlive, hnot⟩

end Synos.Stored

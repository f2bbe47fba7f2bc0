import Synos.Kernel.Pages

namespace Synos.Kernel

open Synos.Paging
open Synos.Data (Fault Machine)

/-! Requests for pages, one after the other. -/

section

variable {tables : Tables} {grants : List PageGrant}

theorem pgaMap_page (tables : Tables) (vaddress paddress : BitVec 64)
    (flags : BitVec 32) :
    pgaMap tables vaddress paddress 0 flags =
      mapPage tables vaddress (leafEntry paddress (flagEntry flags) 0) := by
  have hpage : vaddress + pageOffset 0 = vaddress := by simp [pageOffset]
  rw [pgaMap, Nat.pow_zero, pgaMapFrom, hpage, leafEntry]
  cases mapPage tables vaddress
    (((paddress + pageOffset 0) &&& ~~~flagMask) +
      (flagEntry flags &&& flagMask)) <;> rfl

theorem pgaUnmap_page (tables : Tables) (vaddress : BitVec 64) :
    pgaUnmap tables vaddress 0 = unmapPage tables vaddress := by
  have hpage : vaddress + pageOffset 0 = vaddress := by simp [pageOffset]
  rw [pgaUnmap, Nat.pow_zero, pgaUnmapFrom, hpage]
  cases unmapPage tables vaddress <;> rfl

def afterAlloc (tables : Tables) (reply : Reply) (supply : List Reply) :
    Tables :=
  { tables with
    supply := supply
    memory := Function.update tables.memory (frameOf reply.address)
      reply.contents }

theorem Granted.take (hgranted : Granted tables grants) {reply : Reply}
    {supply : List Reply} (hsupply : tables.supply = reply :: supply) :
    Granted (afterAlloc tables reply supply) grants := by
  have hfirst := hgranted.stock.apart (frameOf reply.address) (by
    rw [hsupply]
    exact .head _)
  have hsame : ∀ table ∈ tables.inUse,
      Function.update tables.memory (frameOf reply.address) reply.contents
        table = tables.memory table := by
    intro table htable
    apply Function.update_of_ne
    rintro rfl
    exact hfirst.2 (List.mem_append_right _ htable)
  have hmiddle := hgranted.rewrite hsame
  exact {
    tree := ⟨hmiddle.tree.selfMapped, hmiddle.tree.table, hmiddle.tree.page,
      hmiddle.tree.distinct, hmiddle.tree.proper⟩
    mapped := hmiddle.mapped
    first := hmiddle.first
    leaf := hmiddle.leaf
    handable := hmiddle.handable
    pages := hmiddle.pages
    frames := hmiddle.frames
    apart := hmiddle.apart
    unused := hmiddle.unused
    stock := by
      have hstock := hgranted.stock
      rw [hsupply] at hstock
      exact @Stock.drop _ [reply] supply hstock _ fun _ => .inl }

theorem afterAlloc_frames {reply : Reply} {supply : List Reply}
    (hsupply : tables.supply = reply :: supply) :
    (afterAlloc tables reply supply).frames ⊆ tables.frames := by
  intro frame hframe
  rw [Tables.frames, hsupply]
  rcases List.mem_append.mp hframe with htable | hleft
  · exact List.mem_append_left _ htable
  · exact List.mem_append_right _ (.tail _ hleft)

theorem Granted.missing_take (hgranted : Granted tables grants)
    {memory : Memory}
    (hsame : ∀ table ∈ tables.inUse, memory table = tables.memory table)
    {address : BitVec 64} (houtside : Outside address) :
    missing memory tables.root address =
      missing tables.memory tables.root address := by
  have hlevel : ∀ level, 1 ≤ level → level ≤ 4 →
      presentAt memory tables.root address level =
        presentAt tables.memory tables.root address level := by
    intro level hpos hle
    rw [presentAt, presentAt,
      hgranted.tree.entryAt_of_apart hsame houtside hpos hle]
  rw [missing, missing, hlevel 4 (by omega) (by omega),
    hlevel 3 (by omega) (by omega), hlevel 2 (by omega) (by omega)]

end

/-- `next_free_vpage` lies beyond the pages that were handed out, and there are
addresses left for all memory that is left. -/
structure PageSpace.Ready (space : PageSpace) (grants : List PageGrant) :
    Prop where
  granted : Granted space.tables grants
  aligned : 4096 ∣ space.nextFreeVpage.toNat
  above : 0x200000 ≤ space.nextFreeVpage.toNat
  room : space.nextFreeVpage.toNat +
    (space.tables.supply.length + 1) * 4096 ≤ lowHalf
  beyond : ∀ grant ∈ grants,
    grant.page.toNat < space.nextFreeVpage.toNat

/-- A page was handed out, of a frame that `alloc_page` had; the ones handed out
before hold what they held. -/
structure Hands (space after : PageSpace) (grants : List PageGrant)
    (page : BitVec 64) : Prop where
  ne_zero : page ≠ 0
  ready : after.Ready
    (⟨page, frameOf (allocPage space.tables).1⟩ :: grants)
  drawn : frameOf (allocPage space.tables).1 ∈ space.tables.frames
  frames : after.tables.frames ⊆ space.tables.frames
  kept : ∀ grant ∈ grants,
    after.tables.memory grant.frame = space.tables.memory grant.frame
  outside : ∀ frame ∉ space.tables.frames,
    after.tables.memory frame = space.tables.memory frame

section

variable {space : PageSpace} {grants : List PageGrant}

theorem PageSpace.Ready.handable (hready : space.Ready grants) :
    Handable space.nextFreeVpage := by
  have hroom := hready.room
  exact ⟨hready.aligned, hready.above, by omega⟩

theorem PageSpace.Ready.advance (hready : space.Ready grants)
    {tables : Tables} {frame : Frame}
    (hgranted : Granted tables (⟨space.nextFreeVpage, frame⟩ :: grants))
    (hroom : tables.supply.length + 1 ≤ space.tables.supply.length) :
    ∃ next, fnfp tables space.nextFreeVpage = .ok next ∧
      PageSpace.Ready ⟨tables, next⟩
        (⟨space.nextFreeVpage, frame⟩ :: grants) := by
  have hspace := hready.room
  have habove := hready.above
  have haligned := hready.aligned
  have hplace : (space.nextFreeVpage + 4096#64 * BitVec.ofNat 64 1).toNat =
      space.nextFreeVpage.toNat + 4096 := by
    simp only [BitVec.toNat_add, BitVec.toNat_mul, BitVec.toNat_ofNat,
      lowHalf] at *
    omega
  have hbeyond : ∀ grant ∈ (⟨space.nextFreeVpage, frame⟩ :: grants),
      grant.page.toNat <
        (space.nextFreeVpage + 4096#64 * BitVec.ofNat 64 1).toNat := by
    rw [hplace, List.forall_mem_cons]
    refine ⟨by simp only; omega, ?_⟩
    intro grant hgrant
    have := hready.beyond grant hgrant
    omega
  have hfurther : Handable
      (space.nextFreeVpage + 4096#64 * BitVec.ofNat 64 1) := by
    refine ⟨?_, ?_, ?_⟩ <;> rw [hplace] <;> omega
  have hfnfp := @fnfp_skip tables hgranted.tree space.nextFreeVpage 1 (by
    intro i hi
    have hzero : i = 0 := by omega
    subst hzero
    have hhere : space.nextFreeVpage + 4096#64 * BitVec.ofNat 64 0 =
        space.nextFreeVpage := by simp
    rw [hhere]
    exact (hgranted.leaf _ (.head _)).entryPresent)
    (hgranted.absent hfurther hbeyond) (by decide)
  refine ⟨_, hfnfp, hgranted, hfurther.aligned, hfurther.above, ?_, hbeyond⟩
  simp only [hplace, lowHalf] at *
  omega

theorem getFreePageRaw_ready (hready : space.Ready grants)
    (hstocked : space.tables.supply = [] ∨
      missing space.tables.memory space.tables.root space.nextFreeVpage <
        space.tables.supply.length) :
    getFreePageRaw space = .ok (0, space) ∨
      ∃ page after, getFreePageRaw space = .ok (page, after) ∧
        Hands space after grants page := by
  have hgranted := hready.granted
  have hnext := hready.handable
  cases hsupply : space.tables.supply with
  | nil =>
      left
      simp only [getFreePageRaw, allocPage, hsupply, if_true]
  | cons reply supply =>
      right
      have hstock := hgranted.stock
      rw [hsupply] at hstock
      have hfirst := hstock.apart (frameOf reply.address) (.head _)
      rw [List.mem_append, not_or] at hfirst
      have hne := ne_zero_of_frame hfirst.1
      have hmiddle := hgranted.take hsupply
      have halloc : allocPage space.tables =
          (reply.address, afterAlloc space.tables reply supply) := by
        simp only [allocPage, hsupply, if_neg hne, afterAlloc]
      have hrest : Stock (frameOf reply.address ::
          grants.map PageGrant.frame ++ space.tables.inUse) supply := by
        refine @Stock.drop _ [reply] supply hstock _ ?_
        intro frame hframe
        rcases List.mem_cons.mp hframe with rfl | hold
        · exact .inr (.head _)
        · exact .inl hold
      have htaken : Stock space.tables.inUse supply :=
        @Stock.drop _ [] supply hrest _ fun frame hframe =>
          .inl (List.mem_append_right _ hframe)
      have hsame : ∀ table ∈ space.tables.inUse,
          Function.update space.tables.memory (frameOf reply.address)
            reply.contents table = space.tables.memory table := by
        intro table htable
        apply Function.update_of_ne
        rintro rfl
        exact hfirst.2.2 htable
      have hcount := hgranted.missing_take hsame hnext.outside
      rw [hsupply, List.length_cons] at hstocked
      have henough : missing space.tables.memory space.tables.root
          space.nextFreeVpage ≤ supply.length := by
        rcases hstocked with hnone | hlt
        · cases hnone
        · omega
      obtain ⟨after, hmap, hmaps⟩ := @mapPage_maps
        (afterAlloc space.tables reply supply) space.nextFreeVpage
        (leafEntry reply.address (flagEntry 0) 0)
        (hmiddle.tree.weaken space.nextFreeVpage 0) hnext.outside htaken.legal
        (htaken.clean (hcount.le.trans henough))
      have hafter := hmiddle.map (present_leafEntry _ (by decide))
        (frameOf_leafEntry _ _) ⟨hfirst.1, hfirst.2.2, hfirst.2.1⟩ hrest hnext
        hready.beyond hmaps
      obtain ⟨used, hconsumed, hlength⟩ := hmaps.consumed
      have hleft : supply.length = used.length + after.supply.length := by
        have hlengths := congrArg List.length hconsumed.supply_eq
        rwa [List.length_append] at hlengths
      obtain ⟨next, hfnfp, hahead⟩ := hready.advance hafter (by
        rw [hsupply, List.length_cons]
        omega)
      have htaken := afterAlloc_frames hsupply
      refine ⟨space.nextFreeVpage, ⟨after, next⟩, ?_, ?_, ?_, ?_, ?_, ?_, ?_⟩
      · simp only [getFreePageRaw, halloc, if_neg hne, vpageMap]
        rw [pgaMap_page, hmap]
        simp only [hfnfp]
      · intro hzero
        have habove := hready.above
        rw [hzero] at habove
        exact absurd habove (by decide)
      · rw [halloc]
        exact hahead
      · rw [halloc, Tables.frames, hsupply]
        exact List.mem_append_right _ (.head _)
      · exact fun frame hframe => htaken (hconsumed.frames hframe)
      · intro grant hgrant
        have hframe : grant.frame ∈ grants.map PageGrant.frame :=
          List.mem_map_of_mem hgrant
        have hfresh : grant.frame ≠ frameOf reply.address := by
          intro heq
          exact hfirst.2.1 (heq ▸ hframe)
        have hkept := hconsumed.memory_eq grant.frame
          (hgranted.apart grant hgrant).2 (by
            intro hused
            have hmem : grant.frame ∈
                framesOf (afterAlloc space.tables reply supply).supply := by
              rw [hconsumed.supply_eq, framesOf, List.map_append]
              exact List.mem_append_left _ hused
            exact (hrest.apart grant.frame hmem).2
              (List.mem_append_left _ (.tail _ hframe)))
        rw [hkept]
        exact Function.update_of_ne hfresh _ _
      · intro frame hframe
        rw [hconsumed.outside fun hmem => hframe (htaken hmem)]
        apply Function.update_of_ne
        rintro rfl
        apply hframe
        rw [Tables.frames, hsupply]
        exact List.mem_append_right _ (.head _)

theorem PageSpace.Ready.rewrite (hready : space.Ready grants)
    {memory : Memory}
    (hsame : ∀ table ∈ space.tables.inUse,
      memory table = space.tables.memory table) :
    PageSpace.Ready { space with
      tables := { space.tables with memory := memory } } grants :=
  ⟨hready.granted.rewrite hsame, hready.aligned, hready.above, hready.room,
    hready.beyond⟩

theorem PageSpace.Ready.clear (hready : space.Ready grants)
    {page : BitVec 64} {frame : Frame} (hleaf : LeafAt space.tables page frame)
    (haligned : 4096 ∣ page.toNat) (hfits : page.toNat + 4096 ≤ lowHalf)
    (hframe : frame ∉ space.tables.inUse) :
    ∃ memory, clearWords space.tables page 512 =
        .ok { space.tables with memory := memory } ∧
      PageSpace.Ready { space with
        tables := { space.tables with memory := memory } } grants ∧
      (∀ other, other ≠ frame → memory other = space.tables.memory other) ∧
      ∀ word, memory frame word = 0 := by
  obtain ⟨memory, hclear, hother, hzero⟩ := clearWords_eq hready.granted.tree
    hleaf haligned hfits hframe (Nat.le_refl 512)
  refine ⟨memory, hclear, hready.rewrite ?_, hother,
    fun word => hzero word word.isLt⟩
  intro table htable
  exact hother table fun heq => hframe (heq ▸ htable)

/-- Without memory `get_free_page` clears the page at the null pointer. -/
theorem getFreePage_ready (hready : space.Ready grants)
    (hstocked : space.tables.supply = [] ∨
      missing space.tables.memory space.tables.root space.nextFreeVpage <
        space.tables.supply.length) :
    (∃ after, getFreePage space = .ok (0, after) ∧ after.Ready grants ∧
      after.tables.frames = space.tables.frames ∧
      ∀ frame, frame ≠ 0 →
        after.tables.memory frame = space.tables.memory frame) ∨
    ∃ page after, getFreePage space = .ok (page, after) ∧
      Hands space after grants page ∧
      ∀ word, after.tables.memory (frameOf (allocPage space.tables).1) word =
        0 := by
  rcases getFreePageRaw_ready hready hstocked with hnone | hsome
  · left
    obtain ⟨memory, hclear, hafter, hother, -⟩ := hready.clear
      hready.granted.first (by decide) (by decide) hready.granted.unused
    refine ⟨_, ?_, hafter, rfl, hother⟩
    simp only [getFreePage, hnone, hclear]
  · right
    obtain ⟨page, middle, hraw, hhands⟩ := hsome
    have hgranted := hhands.ready.granted
    have hpage := hgranted.handable _ (.head _)
    obtain ⟨memory, hclear, hafter, hother, hzero⟩ := hhands.ready.clear
      (hgranted.leaf _ (.head _)) hpage.aligned hpage.fits
      (hgranted.apart _ (.head _)).2
    refine ⟨page, _, ?_, ⟨hhands.ne_zero, hafter, hhands.drawn, hhands.frames,
      ?_, ?_⟩, hzero⟩
    · simp only [getFreePage, hraw, hclear]
    · intro grant hgrant
      rw [← hhands.kept grant hgrant]
      apply hother
      intro heq
      exact (List.nodup_cons.mp hgranted.frames).1
        (heq ▸ List.mem_map_of_mem hgrant)
    · intro frame hframe
      rw [← hhands.outside frame hframe]
      exact hother frame fun heq => hframe (heq ▸ hhands.drawn)

end

/-! Unmapping a page that was handed out. -/

section

variable {tables after : Tables} {grants : List PageGrant} {grant : PageGrant}

theorem mem_others {other : PageGrant} :
    other ∈ grants.filter (fun other => other.page ≠ grant.page) ↔
      other ∈ grants ∧ other.page ≠ grant.page := by
  simp

theorem Granted.path_ne (hgranted : Granted tables grants)
    (hgrant : grant ∈ grants) {other : PageGrant} (hother : other ∈ grants)
    (hne : other.page ≠ grant.page) :
    path other.page 1 ≠ path grant.page 1 := by
  intro hpath
  have hpage := hgranted.handable grant hgrant
  have hwhole := hgranted.handable other hother
  rw [path_eq_iff_page hwhole.lt hpage.lt] at hpath
  have haligned := hpage.aligned
  have halso := hwhole.aligned
  apply hne
  apply BitVec.eq_of_toNat_eq
  omega

theorem LeafAt.kept {page target : BitVec 64} {frame : Frame}
    (hleaf : LeafAt tables page frame) (hkeeps : Keeps tables after target)
    (houtside : Outside page) (hpath : path page 1 ≠ path target 1) :
    LeafAt after page frame := by
  obtain ⟨entry, hentry, hrest⟩ := hleaf
  refine ⟨entry, ?_, hrest⟩
  rw [hkeeps page houtside hpath ⟨entry, hentry, hrest.1⟩]
  exact hentry

theorem Granted.mapped_unmap (hgranted : Granted tables grants)
    (hmapped : after.mapped =
      Function.update tables.mapped (path grant.page 1) false)
    {address : BitVec 64} (houtside : Outside address)
    (hset : after.mapped (path address 1) = true) :
    path address 2 = path 0 2 ∨
      ∃ other ∈ grants.filter (fun other => other.page ≠ grant.page),
        path address 1 = path other.page 1 := by
  rw [hmapped] at hset
  by_cases hsame : path address 1 = path grant.page 1
  · rw [hsame, Function.update_self] at hset
    cases hset
  · rw [Function.update_of_ne hsame] at hset
    rcases hgranted.mapped address houtside hset with
      hfirst | ⟨other, hother, hpath⟩
    · exact .inl hfirst
    · refine .inr ⟨other, mem_others.mpr ⟨hother, ?_⟩, hpath⟩
      intro heq
      exact hsame (heq ▸ hpath)

theorem Granted.stock_unmap (hgranted : Granted tables grants)
    (hconsumed : Consumed tables after []) :
    Stock ((grants.filter fun other => other.page ≠ grant.page).map
      PageGrant.frame ++ after.inUse) after.supply := by
  have hstock := hgranted.stock
  rw [hconsumed.supply_eq] at hstock
  refine @Stock.drop _ [] _ hstock _ ?_
  intro frame hframe
  left
  rcases List.mem_append.mp hframe with hfiltered | htable
  · obtain ⟨other, hother, rfl⟩ := List.mem_map.mp hfiltered
    exact List.mem_append_left _
      (List.mem_map_of_mem (mem_others.mp hother).1)
  · exact List.mem_append_right _ (hconsumed.inUse_of_nil htable)

theorem Granted.unmap (hgranted : Granted tables grants)
    (hgrant : grant ∈ grants) (htree : Tree after 0 0)
    (hconsumed : Consumed tables after [])
    (hmapped : after.mapped =
      Function.update tables.mapped (path grant.page 1) false)
    (hkeeps : Keeps tables after grant.page) :
    Granted after (grants.filter fun other => other.page ≠ grant.page) where
  tree := htree
  mapped := fun _ houtside hset => hgranted.mapped_unmap hmapped houtside hset
  first := by
    refine hgranted.first.kept hkeeps (by decide) fun hzero => ?_
    have hpage := hgranted.handable grant hgrant
    exact hpage.path_ne rfl (path_mono hzero (by omega)).symm
  leaf := by
    intro other hother
    obtain ⟨hold, hne⟩ := mem_others.mp hother
    exact (hgranted.leaf other hold).kept hkeeps
      (hgranted.handable other hold).outside (hgranted.path_ne hgrant hold hne)
  handable := fun other hother =>
    hgranted.handable other (mem_others.mp hother).1
  pages := hgranted.pages.sublist (List.filter_sublist.map PageGrant.page)
  frames := hgranted.frames.sublist (List.filter_sublist.map PageGrant.frame)
  apart := by
    intro other hother
    have hold := hgranted.apart other (mem_others.mp hother).1
    exact ⟨hold.1, fun hmem => hold.2 (hconsumed.inUse_of_nil hmem)⟩
  unused := fun hzero => hgranted.unused (hconsumed.inUse_of_nil hzero)
  stock := hgranted.stock_unmap hconsumed

theorem PageSpace.Ready.unmap {space : PageSpace}
    (hready : space.Ready grants) (hgrant : grant ∈ grants) :
    ∃ after, vpageUnmap space grant.page = .ok after ∧
      after.Ready (grants.filter fun other => other.page ≠ grant.page) ∧
      after.tables.frames ⊆ space.tables.frames ∧
      (∀ other ∈ grants,
        after.tables.memory other.frame = space.tables.memory other.frame) ∧
      ∀ frame ∉ space.tables.frames,
        after.tables.memory frame = space.tables.memory frame := by
  have hgranted := hready.granted
  obtain ⟨tables, hunmap, htree, hconsumed, hmapped, hkeeps⟩ := unmapPage_keeps
    (hgranted.tree.weaken grant.page 0) (hgranted.handable grant hgrant).outside
    (hgranted.leaf grant hgrant).entryPresent
  have hroom := hready.room
  rw [hconsumed.supply_eq] at hroom
  refine ⟨⟨tables, space.nextFreeVpage⟩, ?_,
    ⟨hgranted.unmap hgrant htree hconsumed hmapped hkeeps, hready.aligned,
      hready.above, hroom, ?_⟩, hconsumed.frames, ?_,
    fun _ => hconsumed.outside⟩
  · rw [vpageUnmap, pgaUnmap_page, hunmap]
    rfl
  · intro other hother
    exact hready.beyond other (mem_others.mp hother).1
  · intro other hother
    exact hconsumed.memory_eq other.frame (hgranted.apart other hother).2
      List.not_mem_nil

end

end Synos.Kernel

import Synos.Kernel.PageBoot
import Synos.Stored.Answers

namespace Synos.Kernel

open Synos.Paging
open Synos.Data (Fault Machine)

/-! Sessions: every word of a page reads back as it was last written. -/

/-- `frames` are those there were at the start, when memory held `origin`. -/
structure PageSession.Holds (frames : List Frame) (origin : Memory)
    (session : PageSession) : Prop where
  ready : session.space.Ready session.grants
  within : session.space.tables.frames ⊆ frames
  drawn : ∀ grant ∈ session.grants, grant.frame ∈ frames
  outside : ∀ frame, frame ≠ 0 → frame ∉ frames →
    session.space.tables.memory frame = origin frame
  words : ∀ grant ∈ session.grants, ∀ word value,
    session.written grant.page word = some value →
      session.space.tables.memory grant.frame word = value

section

variable {session : PageSession} {frames : List Frame} {origin : Memory}

theorem PageSession.Holds.hand (hholds : session.Holds frames origin) {after : PageSpace}
    {page : BitVec 64} (hhands : Hands session.space after session.grants page)
    {contents : Option (BitVec 64)}
    (hcontents : ∀ value, contents = some value → ∀ word,
      after.tables.memory (frameOf (allocPage session.space.tables).1) word =
        value) :
    (session.hand after page contents).Holds frames origin := by
  have hbeyond := (List.nodup_cons.mp hhands.ready.granted.pages).1
  rw [PageSession.hand, if_neg hhands.ne_zero]
  refine ⟨hhands.ready, fun _ hframe => hholds.within (hhands.frames hframe),
    List.forall_mem_cons.mpr ⟨hholds.within hhands.drawn, hholds.drawn⟩, ?_, ?_⟩
  · intro frame hne hframe
    rw [← hholds.outside frame hne hframe]
    exact hhands.outside frame fun hmem => hframe (hholds.within hmem)
  rw [List.forall_mem_cons]
  constructor
  · intro word value hwritten
    simp only [Function.update_self] at hwritten
    exact hcontents value hwritten word
  · intro grant hgrant word value hwritten
    have hne : grant.page ≠ page := by
      intro heq
      exact hbeyond (List.mem_map.mpr ⟨grant, hgrant, heq⟩)
    simp only [Function.update_of_ne hne] at hwritten ⊢
    rw [hhands.kept grant hgrant]
    exact hholds.words grant hgrant word value hwritten

theorem PageSession.Holds.write (hholds : session.Holds frames origin)
    {grant : PageGrant} (hgrant : grant ∈ session.grants) (word : BitVec 9)
    (value : BitVec 64) :
    ∃ next, pageRequests.step session (.write grant.page word value) =
        .ok next ∧ next.Holds frames origin := by
  have hgranted := hholds.ready.granted
  have hpage := hgranted.handable grant hgrant
  have hapart := (hgranted.apart grant hgrant).2
  have hstored := (hgranted.leaf grant hgrant).store hpage.aligned hpage.fits
    word value
  refine ⟨{ session with
      space := { session.space with
        tables := { session.space.tables with
          memory := writeEntry session.space.tables.memory grant.frame word
            value } }
      written := Function.update session.written grant.page
        (Function.update (session.written grant.page) word (some value)) },
    by simp only [pageRequests, hstored, Except.map], ?_, hholds.within,
    hholds.drawn, ?_, ?_⟩
  · apply hholds.ready.rewrite
    intro table htable
    have hne : table ≠ grant.frame := fun heq => hapart (heq ▸ htable)
    exact Function.update_of_ne hne _ _
  · intro frame hzero hframe
    rw [← hholds.outside frame hzero hframe]
    apply Function.update_of_ne
    rintro rfl
    exact hframe (hholds.drawn grant hgrant)
  · intro other hother slot last hwritten
    simp only at hwritten ⊢
    by_cases hsame : other = grant
    · subst hsame
      rw [Function.update_self] at hwritten
      by_cases hslot : slot = word
      · subst hslot
        rw [Function.update_self, Option.some.injEq] at hwritten
        rw [writeEntry_self]
        exact hwritten
      · rw [Function.update_of_ne hslot] at hwritten
        rw [writeEntry_of_ne _ _ (.inr hslot)]
        exact hholds.words other hother slot last hwritten
    · have hpageNe : other.page ≠ grant.page := by
        intro heq
        exact hsame (List.inj_on_of_nodup_map hgranted.pages hother hgrant heq)
      have hframeNe : other.frame ≠ grant.frame := by
        intro heq
        exact hsame (List.inj_on_of_nodup_map hgranted.frames hother hgrant heq)
      rw [Function.update_of_ne hpageNe] at hwritten
      rw [writeEntry_of_ne _ _ (.inl hframeNe)]
      exact hholds.words other hother slot last hwritten

theorem PageSession.Holds.step (hholds : session.Holds frames origin)
    {request : PageRequest} (hlegal : request.Legal session) :
    ∃ next, pageRequests.step session request = .ok next ∧
      next.Holds frames origin := by
  cases request with
  | raw =>
      rcases getFreePageRaw_ready hholds.ready hlegal with hnone | hsome
      · refine ⟨session, ?_, hholds⟩
        simp only [pageRequests, hnone, Except.map, PageSession.hand, if_true]
      · obtain ⟨page, after, hcall, hhands⟩ := hsome
        refine ⟨session.hand after page none, ?_,
          hholds.hand hhands fun _ h => nomatch h⟩
        simp only [pageRequests, hcall, Except.map]
  | cleared =>
      rcases getFreePage_ready hholds.ready hlegal with hnone | hsome
      · obtain ⟨after, hcall, hafter, hsame, hother⟩ := hnone
        refine ⟨{ session with space := after }, ?_, hafter, ?_, hholds.drawn,
          ?_, ?_⟩
        · simp only [pageRequests, hcall, Except.map, PageSession.hand, if_true]
        · simp only [hsame]
          exact hholds.within
        · intro frame hne hframe
          rw [← hholds.outside frame hne hframe]
          exact hother frame hne
        · intro grant hgrant word value hwritten
          simp only
          rw [hother _ (hholds.ready.granted.apart grant hgrant).1]
          exact hholds.words grant hgrant word value hwritten
      · obtain ⟨page, after, hcall, hhands, hzero⟩ := hsome
        refine ⟨session.hand after page (some 0), ?_, hholds.hand hhands ?_⟩
        · simp only [pageRequests, hcall, Except.map]
        · intro value hvalue word
          rw [← Option.some.inj hvalue]
          exact hzero word
  | write page word value =>
      obtain ⟨grant, hgrant, rfl⟩ := List.mem_map.mp hlegal
      exact hholds.write hgrant word value
  | unmap page =>
      obtain ⟨grant, hgrant, rfl⟩ := List.mem_map.mp hlegal
      obtain ⟨after, hcall, hafter, hframes, hkept, houtside⟩ :=
        hholds.ready.unmap hgrant
      refine ⟨_, by simp only [pageRequests, hcall, Except.map]; rfl, hafter,
        fun _ hframe => hholds.within (hframes hframe),
        fun other hother => hholds.drawn other (List.mem_of_mem_filter hother),
        ?_, ?_⟩
      · intro frame hne hframe
        rw [← hholds.outside frame hne hframe]
        exact houtside frame fun hmem => hframe (hholds.within hmem)
      intro other hother word value hwritten
      have hold := List.mem_of_mem_filter hother
      simp only at hwritten ⊢
      rw [hkept other hold]
      exact hholds.words other hold word value hwritten

end

/-! What callers see. -/

/-- Every page that was handed out has a frame of its own, which holds no table;
its words read as they were last written; it cannot be given back; and beyond
the first 2 MiB nothing else can be reached. -/
structure PageSession.Isolated (session : PageSession) : Prop where
  pages : (session.grants.map PageGrant.page).Nodup
  frames : (session.grants.map PageGrant.frame).Nodup
  apart : ∀ grant ∈ session.grants,
    grant.frame ≠ 0 ∧ grant.frame ∉ session.space.tables.inUse
  translates : ∀ grant ∈ session.grants, ∀ word,
    walk session.space.tables.memory session.space.tables.root
        (wordAddress grant.page word) =
      some (grant.frame, (wordAddress grant.page word).extractLsb' 0 12)
  reads : ∀ grant ∈ session.grants, ∀ word value,
    session.written grant.page word = some value →
      load session.space.tables (wordAddress grant.page word) = .ok value
  kept : ∀ grant ∈ session.grants, ∀ {Regions : Type} (freePage regions),
    @returnFreePage Regions freePage regions session.space grant.page =
      .error .pageFault
  only : ∀ address, Outside address →
    (walk session.space.tables.memory session.space.tables.root
      address).isSome →
    path address 2 = path 0 2 ∨
      ∃ grant ∈ session.grants, path address 1 = path grant.page 1

theorem PageSession.Holds.isolated {session : PageSession}
    {frames : List Frame} {origin : Memory}
    (hholds : session.Holds frames origin) : session.Isolated where
  pages := hholds.ready.granted.pages
  frames := hholds.ready.granted.frames
  apart := hholds.ready.granted.apart
  translates := by
    intro grant hgrant word
    have hpage := hholds.ready.granted.handable grant hgrant
    exact (hholds.ready.granted.leaf grant hgrant).walk hpage.aligned
      hpage.fits word
  reads := by
    intro grant hgrant word value hwritten
    have hpage := hholds.ready.granted.handable grant hgrant
    rw [(hholds.ready.granted.leaf grant hgrant).load hpage.aligned hpage.fits,
      hholds.words grant hgrant word value hwritten]
  kept := by
    intro grant hgrant Regions freePage regions
    have hleaf := (hholds.ready.granted.leaf grant hgrant).entryPresent
    have hpresent : pageIspresent session.space.tables grant.page 1 =
        .ok true := by
      rw [@pageIspresent_eq _ grant.page 1
        hholds.ready.granted.tree.selfMapped 3 rfl (by omega),
        presentAt_iff.mpr hleaf]
    rw [returnFreePage, pgaGetPhysAddr, pageInfo_of_present hpresent]
    rfl
  only := by
    intro address houtside hwalk
    exact hholds.ready.granted.mapped address houtside
      (hholds.ready.granted.tree.sound.page address houtside hwalk)

/-! From physical memory to the words of a page. -/

/-- The answers of `alloc_page`, with what the frames hold at boot. -/
def replies (rest : Memory) (pages : List Nat) : List Reply :=
  pages.map fun address =>
    ⟨BitVec.ofNat 64 address, rest (frameOf (BitVec.ofNat 64 address))⟩

/-- Every free page lies between the first 2 MiB and 64 TiB, at a page boundary,
and holds no word that looks like a present entry. -/
def CleanPages (system : Page.PageSystem) (rest : Memory) : Prop :=
  ∀ address, system.Offers address →
    4096 ∣ address ∧ 0x200000 ≤ address ∧ address + 4096 ≤ 2 ^ 46 ∧
      ∀ word, present (rest (frameOf (BitVec.ofNat 64 address)) word) = false

/-- The frame has a byte of the tables that `ppage_init` set up. -/
def HoldsTable (places : Nat → Stored.Place) (system : Stored.StoredSystem)
    (frame : Frame) : Prop :=
  ∃ index address, system.Accepts index ∧ (places index).Owns address ∧
    address / 4096 = frame.toNat

/-- These frames are not the first one, no page tables and no free pages. -/
def TablesApart (places : Nat → Stored.Place) (system : Stored.StoredSystem)
    (pml4 : Frame) : Prop :=
  ∀ frame, HoldsTable places system frame →
    frame ≠ 0 ∧ (∀ table < 4, frame.toNat ≠ pml4.toNat + table) ∧
      ∀ address, system.read.Offers address →
        frame ≠ frameOf (BitVec.ofNat 64 address)

theorem toNat_frameOf (address : Nat) :
    (frameOf (BitVec.ofNat 64 address)).toNat =
      address % 2 ^ 64 / 4096 % 2 ^ 40 := by
  rw [frameOf, BitVec.extractLsb'_toNat, BitVec.toNat_ofNat,
    Nat.shiftRight_eq_div_pow]

theorem CleanPages.stock {system : Page.PageSystem} {rest : Memory}
    (hclean : CleanPages system rest) {pml4 : Frame} {pages : List Nat}
    (hboot : pml4.toNat + 3 < 0x200)
    (hapart : pages.Pairwise fun address other =>
      address + Page.pageSize ≤ other ∨ other + Page.pageSize ≤ address)
    (hpages : ∀ address, address ∈ pages ↔ system.Offers address)
    (hpos : 0 < pml4.toNat) :
    Stock (bootTables rest pml4 (replies rest pages)).inUse
      (replies rest pages) := by
  have hframe : ∀ address ∈ pages,
      (frameOf (BitVec.ofNat 64 address)).toNat = address / 4096 := by
    intro address hmem
    obtain ⟨-, -, hfits, -⟩ := hclean address ((hpages address).mp hmem)
    rw [toNat_frameOf]
    omega
  have hframes : framesOf (replies rest pages) =
      pages.map fun address => frameOf (BitVec.ofNat 64 address) := by
    rw [framesOf, replies, List.map_map]
    rfl
  refine ⟨?_, ?_, ?_⟩
  · rw [hframes, List.nodup_iff_pairwise_ne, List.pairwise_map]
    apply hapart.imp_of_mem
    intro address other haddress hother hdisjoint hsame
    have hone := (hclean address ((hpages address).mp haddress)).1
    have htwo := (hclean other ((hpages other).mp hother)).1
    have hequal := congrArg BitVec.toNat hsame
    rw [hframe address haddress, hframe other hother] at hequal
    simp only [Page.pageSize] at hdisjoint
    omega
  · rw [hframes]
    intro frame hmem
    obtain ⟨address, haddress, rfl⟩ := List.mem_map.mp hmem
    have habove := (hclean address ((hpages address).mp haddress)).2.1
    have hplace := hframe address haddress
    refine ⟨?_, ?_⟩
    · intro hzero
      have hnone : (0 : Frame).toNat = 0 := rfl
      rw [hzero, hnone] at hplace
      omega
    · intro htable
      simp only [Tables.inUse, bootTables, List.map_cons, List.map_nil,
        List.cons_append, List.nil_append, List.mem_cons, List.not_mem_nil,
        or_false] at htable
      rcases htable with hsame | hsame | hsame | hsame <;>
        rw [hsame] at hplace <;> bv_omega
  · intro reply hreply index
    obtain ⟨address, haddress, rfl⟩ := List.mem_map.mp hreply
    exact (hclean address ((hpages address).mp haddress)).2.2.2 index

theorem CleanPages.length_le {system : Page.PageSystem} {rest : Memory}
    (hclean : CleanPages system rest) {pages : List Nat}
    (hapart : pages.Pairwise fun address other =>
      address + Page.pageSize ≤ other ∨ other + Page.pageSize ≤ address)
    (hpages : ∀ address, address ∈ pages ↔ system.Offers address) :
    pages.length ≤ 2 ^ 34 := by
  have hnodup : (pages.map fun address => address / 4096).Nodup := by
    rw [List.nodup_iff_pairwise_ne, List.pairwise_map]
    apply hapart.imp
    intro address other hdisjoint
    simp only [Page.pageSize] at hdisjoint
    omega
  have hrange : (pages.map fun address => address / 4096) ⊆
      List.range (2 ^ 34) := by
    intro page hpage
    obtain ⟨address, haddress, rfl⟩ := List.mem_map.mp hpage
    have hfits := (hclean address ((hpages address).mp haddress)).2.2.1
    rw [List.mem_range]
    omega
  have hle := (List.subperm_of_subset hnodup hrange).length_le
  rwa [List.length_map, List.length_range] at hle

theorem mem_bootTables {rest : Memory} {pml4 frame : Frame}
    {supply : List Reply} (hboot : pml4.toNat + 3 < 0x200) :
    frame ∈ (bootTables rest pml4 supply).inUse ↔
      ∃ table < 4, frame.toNat = pml4.toNat + table := by
  simp only [Tables.inUse, bootTables, List.map_cons, List.map_nil,
    List.cons_append, List.nil_append, List.mem_cons, List.not_mem_nil,
    or_false]
  constructor
  · rintro (rfl | rfl | rfl | rfl)
    · exact ⟨1, by omega, by bv_omega⟩
    · exact ⟨2, by omega, by bv_omega⟩
    · exact ⟨3, by omega, by bv_omega⟩
    · exact ⟨0, by omega, by bv_omega⟩
  · rintro ⟨table, hlt, hframe⟩
    have hcases : table = 1 ∨ table = 2 ∨ table = 3 ∨ table = 0 := by omega
    rcases hcases with rfl | rfl | rfl | rfl
    · exact .inl (by bv_omega)
    · exact .inr (.inl (by bv_omega))
    · exact .inr (.inr (.inl (by bv_omega)))
    · exact .inr (.inr (.inr (by bv_omega)))

/-- `vpages_map` where `ppage_init` has no call for it, since no region besides
the one with the tables has a whole page. -/
def noMapping (_ : Stored.StoredSystem) (_ _ : Nat) :
    Except Fault Stored.StoredSystem :=
  .error .panic

/-- From `mm_init` on, callers are isolated from each other and from the tables
of the allocator in every run that does not run out of memory halfway through a
page. -/
theorem run_pages_isolated {mbp regsb regst : Nat} {memory : Data.Memory}
    {regions : List (Page.Region Nat)} {system : Stored.StoredSystem}
    {places : Nat → Stored.Place} {rest : Memory} {pml4 : Frame}
    (hinit : Stored.ppageInit noMapping mbp regsb regst memory regions =
      .ok system)
    (hhoused : system.Housed places) (hready : system.read.Ready)
    (hclean : CleanPages system.read rest)
    (happart : TablesApart places system pml4)
    (hpos : 0 < pml4.toNat) (hboot : pml4.toNat + 3 < 0x200) :
    ∃ pages space, system.HandsOut pages ∧
      vpageInit (bootTables rest pml4 (replies rest pages)) = .ok space ∧
      space.tables.supply = replies rest pages ∧
      ∀ requests, pageRequests.Guarded
          (fun session request => request.Legal session)
          ⟨space, [], fun _ _ => none⟩ requests →
        ∃ session,
          pageRequests.run ⟨space, [], fun _ _ => none⟩ requests =
            .ok session ∧ session.Isolated ∧
          ∀ frame, HoldsTable places system frame →
            session.space.tables.memory frame =
              space.tables.memory frame := by
  obtain ⟨pages, hpages, hapart, hmem⟩ :=
    Stored.ppageInit_answers hinit hhoused hready
  have hlength := hclean.length_le hapart hmem
  have hcount : (replies rest pages).length = pages.length :=
    List.length_map _
  obtain ⟨space, hspace, hstart, hsupply, hframes⟩ := vpageInit_ready hpos
    (show pml4.toNat + 3 < 2 ^ 40 by omega)
    (hclean.stock hboot hapart hmem hpos) (by
      rw [hcount]
      simp only [lowHalf]
      omega)
  refine ⟨pages, space, hpages, hspace, hsupply, ?_⟩
  intro requests hguard
  obtain ⟨session, hrun, hholds⟩ := @Machine.run_completes _ _ _ pageRequests _
    (PageSession.Holds space.tables.frames space.tables.memory)
    (fun _ _ hholds hlegal => hholds.step hlegal) _ _
    (⟨hstart, List.Subset.refl _, fun _ h => absurd h List.not_mem_nil,
      fun _ _ _ => rfl, fun _ h => absurd h List.not_mem_nil⟩ :
      PageSession.Holds _ _ ⟨space, [], fun _ _ => none⟩) hguard
  refine ⟨session, hrun, hholds.isolated, ?_⟩
  intro frame htable
  obtain ⟨hne, htables, hfree⟩ := happart frame htable
  refine hholds.outside frame hne fun hframe => ?_
  rcases List.mem_append.mp (hframes hframe) with hused | hleft
  · obtain ⟨table, hlt, hsame⟩ := (mem_bootTables hboot).mp hused
    exact htables table hlt hsame
  · obtain ⟨reply, hreply, rfl⟩ := List.mem_map.mp hleft
    obtain ⟨address, haddress, rfl⟩ := List.mem_map.mp hreply
    exact hfree address ((hmem address).mp haddress) rfl

/-! Four usable pages at 2 MiB, with two bytes of ones behind their table. -/

def usableQuad : Page.Region Nat := { Stored.usablePair with size := 0x4000 }

def freshQuad : Page.Region :=
  { Page.usablePair with
    size := 0x4000
    map := Page.partitionMap 4 Page.maxOrder
    pagesTotal := 4
    pagesFree := 4
    memFull := false }

def quadPlace : Stored.Place := ⟨4, 0x8000, 0x9000, 3⟩

def quadMemory : Data.Memory := fun address =>
  if address = 0x9001 ∨ address = 0x9002 then 0xFF else 0

theorem quadPlace_fits : quadPlace.Fits := by
  refine ⟨by decide, by decide, by decide, by decide, by decide, ?_⟩
  decide

theorem quadPlace_ones : quadPlace.OnesBehind quadMemory := by
  intro index hge hlt
  have hsize : Page.pageTblSize quadPlace.pages = 1 := by decide
  have hplace : quadPlace.size = 3 := rfl
  obtain rfl | rfl : index = 1 ∨ index = 2 := by omega
  · decide
  · decide

theorem ppageInit_quad :
    ∃ system, Stored.ppageInit noMapping 0x10000 0x8000 0x9000 quadMemory
        [usableQuad] = .ok system ∧
      system.Housed (fun _ => quadPlace) ∧
      system.read = ⟨[freshQuad], some 0, false⟩ :=
  @Stored.ppageInit_alone _ _ quadPlace quadMemory usableQuad freshQuad _
    quadPlace_fits (by decide) quadPlace_ones (by decide) rfl
    (Page.regionMap_eq { Page.usablePair with size := 0x4000 } 4 rfl)
    (Stored.partitionMap_trimmed 4) (by decide +kernel) (by decide +kernel)
    (by decide) (by decide)

theorem freshQuad_ready :
    Page.PageSystem.Ready ⟨[freshQuad], some 0, false⟩ := by
  refine ⟨List.pairwise_singleton _ _, ?_, by simp⟩
  intro region hmem _
  obtain rfl := List.mem_singleton.mp hmem
  exact Page.Region.fresh_exact (by decide : 0 < 4) rfl rfl rfl rfl (by decide)
    (by decide) (by decide)

theorem freshQuad_clean :
    CleanPages ⟨[freshQuad], some 0, false⟩ fun _ _ => 0 := by
  have hblank : present 0 = false := by decide
  rintro address ⟨region, hregion, -, page, hcovers, rfl⟩
  obtain rfl := List.mem_singleton.mp hregion
  have hpage : page < 4 := Page.partitionMap_covers.mp hcovers
  have hstart : freshQuad.start = 0x200000 := rfl
  rw [hstart]
  simp only [Page.pageSize]
  exact ⟨by omega, by omega, by omega, fun _ => hblank⟩

theorem missing_le (memory : Memory) (root : Frame) (address : BitVec 64) :
    missing memory root address ≤ 3 := by
  unfold missing
  split
  · exact Nat.le_refl 3
  · split
    · omega
    · split <;> omega

theorem quad_apart {system : Stored.StoredSystem}
    (hread : system.read = ⟨[freshQuad], some 0, false⟩) :
    TablesApart (fun _ => quadPlace) system 0x101 := by
  rintro frame ⟨index, address, -, howns, hframe⟩
  have howns : quadPlace.Owns address := howns
  have hmap : quadPlace.map = 0x8000 := rfl
  have htable : quadPlace.table = 0x9000 := rfl
  have hsize : quadPlace.size = 3 := rfl
  have hstruct : Page.mmSbSize = 256 := rfl
  have hpml4 : (0x101 : Frame).toNat = 0x101 := rfl
  have hlow : frame.toNat = 8 ∨ frame.toNat = 9 := by
    rcases howns with hmapped | htabled <;> omega
  refine ⟨?_, fun table htable => by omega, ?_⟩
  · rintro rfl
    simp at hlow
  · intro other hoffers
    rw [hread] at hoffers
    obtain ⟨-, habove, hfits, -⟩ := freshQuad_clean other hoffers
    rintro rfl
    rw [toNat_frameOf] at hlow
    omega

/-- The page of the heap, with all of memory zero. -/
theorem run_pages_isolated_quad :
    ∃ space session,
      pageRequests.run ⟨space, [], fun _ _ => none⟩ [.raw] = .ok session ∧
        session.Isolated := by
  obtain ⟨system, hinit, hhoused, hread⟩ := ppageInit_quad
  obtain ⟨pages, space, hpages, -, hsupply, hrun⟩ :=
    @run_pages_isolated _ _ _ _ _ _ _ (fun _ _ => 0) 0x101 hinit hhoused
      (hread ▸ freshQuad_ready) (hread ▸ freshQuad_clean) (quad_apart hread)
      (by decide) (by decide)
  have hanswers : Page.answers ⟨[freshQuad], some 0, false⟩ 4 =
      .ok [0x200000, 0x201000, 0x202000, 0x203000] := by
    decide +kernel
  rw [← hread, ← (Stored.ppageInit_houses hinit hhoused).answers_eq] at hanswers
  have hfour := Except.ok.inj ((hpages 4).symm.trans hanswers)
  have hlength : 3 < pages.length := by
    by_contra hshort
    have hzero : 0 ∈ [0x200000, 0x201000, 0x202000, 0x203000] := by
      rw [← hfour, List.take_append, List.take_replicate]
      apply List.mem_append_right
      rw [List.mem_replicate]
      omega
    exact absurd hzero (by decide)
  obtain ⟨session, hsession, hisolated, -⟩ := hrun [.raw] ⟨.inr (by
    rw [hsupply, replies, List.length_map]
    exact Nat.lt_of_le_of_lt (missing_le _ _ _) hlength), fun _ _ => trivial⟩
  exact ⟨space, session, hsession, hisolated⟩

end Synos.Kernel

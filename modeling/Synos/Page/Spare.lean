import Synos.Page.Account
import Synos.Page.Cursor

namespace Synos.Page

open Synos.Data

/-! When memory is exhausted: over which runs `alloc_page` returns zero only if
every page that was free at first is in a live block. -/

def Region.Apart (region other : Region) : Prop :=
  region.start + region.size ≤ other.start ∨
    other.start + other.size ≤ region.start

instance : DecidableRel Region.Apart :=
  fun _ _ => inferInstanceAs (Decidable (_ ∨ _))

/-- `ppage_init` has left regions that do not overlap, with exact accounts, and
has marked memory exhausted only if it found no free region. -/
structure PageSystem.Ready (system : PageSystem) : Prop where
  apart : system.regions.Pairwise Region.Apart
  exact : ∀ region ∈ system.regions, region.Accepted → region.Exact
  exhausted : system.outOfMem = true → system.nextRegion = none

def Grant.Holds (grant : Grant) (address : Nat) : Prop :=
  grant.address ≤ address ∧ address < grant.stop

/-- Some page was free at first and is in no live block. -/
def SystemSession.Spare (initial : PageSystem) (session : SystemSession) :
    Prop :=
  ∃ region ∈ initial.regions, region.Accepted ∧
    ∃ page, region.map.free.Covers page ∧
      ∀ grant ∈ session.live, ¬ grant.Holds (region.start + pageSize * page)

/-- The first region from the cursor on that is not full has a free block for
the order. -/
def PageSystem.Serves (system : PageSystem) (order : Nat) : Prop :=
  maxOrder ≤ order ∨
    ∀ next ∈ system.nextRegion,
      ∀ index ∈ findFreeRegion system.regions next,
        ∀ region ∈ system.regions[index]?,
          ∃ top < maxOrder, order ≤ top ∧ 0 < region.map.pagesFree top

/-- The block's region is not full, the free finds the block where it is, and the
cursor does not move past a region that is not full. -/
def PageSystem.TakesBack (system : PageSystem) (grant : Grant) : Prop :=
  ∃ index ∈ findRegion system.regions grant.address,
    ∃ region ∈ system.regions[index]?,
      ∃ next ∈ system.nextRegion, ∃ cursor ∈ system.regions[next]?,
        region.memFull = false ∧
        (grant.address = region.start ∨
          grant.order = 0 ∧
            (0 < region.map.pagesFree 0 ∨
              region.offsetOf grant.address ≤ region.map.nextFreePage 0)) ∧
        (cursor.start ≤ region.start ∨
          ∀ other ∈ system.regions.take index,
            other.Accepted → other.memFull = true)

instance (system : PageSystem) (order : Nat) :
    Decidable (system.Serves order) :=
  inferInstanceAs (Decidable (_ ∨ _))

instance (system : PageSystem) (grant : Grant) :
    Decidable (system.TakesBack grant) :=
  inferInstanceAs (Decidable (∃ _, _))

/-- The condition under which no memory is hidden. -/
def SystemCall.Careful (session : SystemSession) : SystemCall → Prop
  | .allocPage => True
  | .allocPages order => session.system.Serves order
  | .freePage page => session.system.TakesBack ⟨page, 0⟩
  | .freePages grant => session.system.TakesBack grant

instance (session : SystemSession) :
    DecidablePred (SystemCall.Careful session)
  | .allocPage => inferInstanceAs (Decidable True)
  | .allocPages order =>
      inferInstanceAs (Decidable (session.system.Serves order))
  | .freePage page =>
      inferInstanceAs (Decidable (session.system.TakesBack ⟨page, 0⟩))
  | .freePages grant =>
      inferInstanceAs (Decidable (session.system.TakesBack grant))

/-! What every careful run keeps. -/

structure Region.Follows (region first : Region) : Prop where
  start_eq : region.start = first.start
  size_eq : region.size = first.size
  attrib_eq : region.attrib = first.attrib
  pages_eq : region.map.pages = first.map.pages
  exact : first.Accepted → region.Exact
  shrinks : ∀ page, region.map.free.Covers page → first.map.free.Covers page

/-- Every accepted region before the cursor is full, and all are when memory is
marked exhausted. -/
structure PageSystem.Pointed (system : PageSystem) : Prop where
  accepted : ∀ next, system.nextRegion = some next →
    ∃ region, system.regions[next]? = some region ∧ region.Accepted
  before : ∀ next, system.nextRegion = some next →
    ∀ (index : Nat) (region : Region), index < next →
      system.regions[index]? = some region → region.Accepted →
      region.memFull = true
  null : system.nextRegion = none → system.outOfMem = true
  exhausted : system.outOfMem = true →
    ∀ (index : Nat) (region : Region),
      system.regions[index]? = some region → region.Accepted →
      region.memFull = true

/-- The grant is a block of the region at the place, all of whose pages were free
at first. -/
structure Grant.On (grant : Grant) (initial system : PageSystem)
    (index : Nat) (first region : Region) (block : Block) : Prop where
  first_eq : initial.regions[index]? = some first
  region_eq : system.regions[index]? = some region
  accepted : first.Accepted
  held : region.map.Held block
  grant_eq : grant = grantOf first.start block
  was_free : ∀ page ∈ block, first.map.free.Covers page

structure SystemSession.Keeps (initial : PageSystem) (session : SystemSession) :
    Prop where
  length_eq : session.system.regions.length = initial.regions.length
  follows : ∀ (index : Nat) (first region : Region),
    initial.regions[index]? = some first →
    session.system.regions[index]? = some region → region.Follows first
  lends : ∀ grant ∈ session.live, ∃ index first region block,
    grant.On initial session.system index first region block
  disjoint : session.live.Pairwise Grant.Disjoint
  accounts : ∀ (index : Nat) (first region : Region),
    initial.regions[index]? = some first →
    session.system.regions[index]? = some region → first.Accepted →
    ∀ page, first.map.free.Covers page →
      region.map.free.Covers page ∨
        ∃ grant ∈ session.live, grant.Holds (first.start + pageSize * page)
  pointed : session.system.Pointed

theorem getElem?_set_cases {Item : Type} {items : List Item} {index place : Nat}
    {new value : Item} (h : (items.set index new)[place]? = some value) :
    (place = index ∧ value = new) ∨
      (place ≠ index ∧ items[place]? = some value) := by
  by_cases hplace : place = index
  · subst hplace
    have hlt : place < (items.set place new).length :=
      (List.getElem?_eq_some_iff.mp h).1
    rw [List.length_set] at hlt
    rw [List.getElem?_set_self hlt, Option.some.injEq] at h
    exact .inl ⟨rfl, h.symm⟩
  · rw [List.getElem?_set_ne (Ne.symm hplace)] at h
    exact .inr ⟨hplace, h⟩

theorem Grant.Disjoint.not_holds {grant other : Grant}
    (hdisjoint : grant.Disjoint other) {address : Nat}
    (hholds : grant.Holds address) : ¬ other.Holds address := by
  simp only [Grant.Disjoint, Grant.Holds] at *
  omega

theorem grantOf_holds_iff {start page : Nat} {block : Block} :
    (grantOf start block).Holds (start + pageSize * page) ↔ page ∈ block := by
  rw [Grant.Holds, grantOf_stop, Block.mem_iff]
  simp only [grantOf, pageSize]
  omega

theorem grantOf_apart {start : Nat} {block other : Block}
    (hdisjoint : (grantOf start block).Disjoint (grantOf start other)) :
    block.Apart other :=
  fun _ hpage hmem => hdisjoint.not_holds (grantOf_holds_iff.mpr hpage)
    (grantOf_holds_iff.mpr hmem)

section

variable {initial : PageSystem} {session : SystemSession}
  {region first : Region} {block : Block} {index : Nat} {grant : Grant}

theorem Region.Follows.accepted_iff (hfollows : region.Follows first) :
    region.Accepted ↔ first.Accepted := by
  rw [Region.Accepted, Region.Accepted, hfollows.size_eq, hfollows.attrib_eq]

theorem PageSystem.Ready.first_exact (hready : initial.Ready)
    (hfirst : initial.regions[index]? = some first)
    (haccepted : first.Accepted) : first.Exact :=
  hready.exact first (List.mem_of_getElem? hfirst) haccepted

theorem PageSystem.Ready.apart_of_ne (hready : initial.Ready) {place : Nat}
    {other : Region} (hfirst : initial.regions[index]? = some first)
    (hother : initial.regions[place]? = some other) (hne : place ≠ index) :
    first.Apart other := by
  have hpairwise := List.pairwise_iff_getElem.mp hready.apart
  obtain ⟨hindex, hfirst⟩ := List.getElem?_eq_some_iff.mp hfirst
  obtain ⟨hplace, hother⟩ := List.getElem?_eq_some_iff.mp hother
  rcases Nat.lt_or_gt_of_ne hne with hlt | hgt
  · have hapart := hpairwise place index hplace hindex hlt
    rw [hfirst, hother] at hapart
    exact hapart.symm
  · have hapart := hpairwise index place hindex hplace hgt
    rw [hfirst, hother] at hapart
    exact hapart

theorem SystemSession.Keeps.bounds (hkeeps : session.Keeps initial)
    (hon : grant.On initial session.system index first region block) :
    first.start ≤ grant.address ∧ grant.stop ≤ first.start + first.size := by
  have hfollows := hkeeps.follows index first region hon.first_eq hon.region_eq
  have hfits := (hfollows.exact hon.accepted).fits
  have hlast := region.last_le hon.held.inside
  rw [hfollows.start_eq] at hlast
  rw [hfollows.size_eq] at hfits
  rw [hon.grant_eq, grantOf_stop]
  refine ⟨Nat.le_add_right _ _, ?_⟩
  omega

theorem PageSystem.Ready.page_bounds (hready : initial.Ready)
    (hfirst : initial.regions[index]? = some first)
    (haccepted : first.Accepted) {page : Nat}
    (hpage : first.map.free.Covers page) :
    first.start + pageSize * page < first.start + first.size := by
  have hexact := hready.first_exact hfirst haccepted
  have hlt := hexact.wellFormed.lt_pages hpage
  have hfits := hexact.fits
  simp only [pageSize] at *
  omega

theorem SystemSession.Keeps.region_of_first (hkeeps : session.Keeps initial)
    (hfirst : initial.regions[index]? = some first) :
    ∃ region, session.system.regions[index]? = some region ∧
      region.Follows first := by
  have hlt := (List.getElem?_eq_some_iff.mp hfirst).1
  rw [← hkeeps.length_eq] at hlt
  exact ⟨_, List.getElem?_eq_getElem hlt, hkeeps.follows index first _ hfirst
    (List.getElem?_eq_getElem hlt)⟩

theorem SystemSession.Keeps.first_of_region (hkeeps : session.Keeps initial)
    (hregion : session.system.regions[index]? = some region) :
    ∃ first, initial.regions[index]? = some first ∧ region.Follows first := by
  have hlt := (List.getElem?_eq_some_iff.mp hregion).1
  rw [hkeeps.length_eq] at hlt
  exact ⟨_, List.getElem?_eq_getElem hlt, hkeeps.follows index _ region
    (List.getElem?_eq_getElem hlt) hregion⟩

theorem SystemSession.Keeps.exact (hkeeps : session.Keeps initial)
    (hregion : session.system.regions[index]? = some region)
    (haccepted : region.Accepted) : region.Exact := by
  obtain ⟨first, -, hfollows⟩ := hkeeps.first_of_region hregion
  exact hfollows.exact (hfollows.accepted_iff.mp haccepted)

theorem SystemSession.Keeps.not_spare (hkeeps : session.Keeps initial)
    (hfull : ∀ (index : Nat) (region : Region),
      session.system.regions[index]? = some region → region.Accepted →
      region.memFull = true) : ¬ session.Spare initial := by
  rintro ⟨first, hmem, haccepted, page, hpage, hnone⟩
  obtain ⟨index, hfirst⟩ := List.mem_iff_getElem?.mp hmem
  obtain ⟨region, hregion, hfollows⟩ := hkeeps.region_of_first hfirst
  have hmark := hfull index region hregion (hfollows.accepted_iff.mpr haccepted)
  rcases hkeeps.accounts index first region hfirst hregion haccepted page hpage
    with hfree | ⟨grant, hlive, hholds⟩
  · exact (hfollows.exact haccepted).full.mp hmark page hfree
  · exact hnone grant hlive hholds

theorem Region.Exact.takes (hexact : region.Exact) {order : Nat}
    (horder : order < maxOrder)
    (hserves : ∃ top < maxOrder, order ≤ top ∧ 0 < region.map.pagesFree top) :
    ∃ block map, Takes region order block map := by
  rcases pagesAlloc_cases hexact.wellFormed hexact.unlocked horder with
    ⟨-, hempty⟩ | htakes
  · obtain ⟨top, htop, hle, hcount⟩ := hserves
    have hzero := hempty top hle htop
    omega
  · exact htakes

theorem Region.Exact.has_block (hexact : region.Exact)
    (hnotFull : region.memFull = false) :
    ∃ top < maxOrder, 0 ≤ top ∧ 0 < region.map.pagesFree top := by
  have hsome : ¬ ∀ page, ¬ region.map.free.Covers page := by
    rw [← hexact.full, hnotFull]
    simp
  rw [not_forall_not] at hsome
  obtain ⟨page, block, hfree, -⟩ := hsome
  exact ⟨block.order, hfree.1, Nat.zero_le _, hexact.wellFormed.count_pos hfree⟩

theorem SystemSession.Keeps.follows_set (hkeeps : session.Keeps initial)
    {after : Region} (hfirst : initial.regions[index]? = some first)
    (hafter : after.Follows first) :
    ∀ (place : Nat) (other now : Region),
      initial.regions[place]? = some other →
      (session.system.regions.set index after)[place]? = some now →
      now.Follows other := by
  intro place other now hother hnow
  rcases getElem?_set_cases hnow with ⟨rfl, rfl⟩ | ⟨-, hnow⟩
  · obtain rfl := Option.some.inj (hfirst.symm.trans hother)
    exact hafter
  · exact hkeeps.follows place other now hother hnow

theorem SystemSession.Keeps.accounts_set (hkeeps : session.Keeps initial)
    {after : Region} {live : List Grant}
    (hfirst : initial.regions[index]? = some first)
    (hself : ∀ page, first.Accepted → first.map.free.Covers page →
      after.map.free.Covers page ∨
        ∃ grant ∈ live, grant.Holds (first.start + pageSize * page))
    (helsewhere : ∀ (place : Nat) (other : Region) (page : Nat),
      place ≠ index → initial.regions[place]? = some other → other.Accepted →
      other.map.free.Covers page → ∀ grant ∈ session.live,
      grant.Holds (other.start + pageSize * page) → grant ∈ live) :
    ∀ (place : Nat) (other now : Region),
      initial.regions[place]? = some other →
      (session.system.regions.set index after)[place]? = some now →
      other.Accepted → ∀ page, other.map.free.Covers page →
      now.map.free.Covers page ∨
        ∃ grant ∈ live, grant.Holds (other.start + pageSize * page) := by
  intro place other now hother hnow haccepted page hpage
  rcases getElem?_set_cases hnow with ⟨rfl, rfl⟩ | ⟨hplace, hnow⟩
  · obtain rfl := Option.some.inj (hfirst.symm.trans hother)
    exact hself page haccepted hpage
  · rcases hkeeps.accounts place other now hother hnow haccepted page hpage
      with hfree | ⟨grant, hlive, hholds⟩
    · exact .inl hfree
    · exact .inr ⟨grant, helsewhere place other page hplace hother haccepted
        hpage grant hlive hholds, hholds⟩

theorem Grant.On.elsewhere {place : Nat} {other now after : Region}
    {loan : Block}
    (hon : grant.On initial session.system place other now loan)
    (hne : place ≠ index) (next : Option Nat) (mark : Bool) :
    grant.On initial ⟨session.system.regions.set index after, next, mark⟩
      place other now loan := by
  refine ⟨hon.first_eq, ?_, hon.accepted, hon.held, hon.grant_eq, hon.was_free⟩
  rw [List.getElem?_set_ne (Ne.symm hne)]
  exact hon.region_eq

theorem SystemSession.Keeps.grant_eq (hkeeps : session.Keeps initial)
    (hregion : session.system.regions[index]? = some region)
    (hfirst : initial.regions[index]? = some first)
    (haccepted : first.Accepted) {order : Nat} {map : BpaMap}
    (htakes : Takes region order block map) :
    (⟨region.address block, order⟩ : Grant) = grantOf first.start block := by
  have hfollows := hkeeps.follows index first region hfirst hregion
  have hexact := hfollows.exact haccepted
  rw [hexact.addressable.address_eq (hexact.wellFormed.inside htakes.was_free),
    hfollows.start_eq, ← htakes.order_eq]
  rfl

/-- A live block keeps its place and is apart from the new one: one of the same
region is still held, and the others lie outside the region. -/
theorem Grant.On.taken (hready : initial.Ready)
    (hkeeps : session.Keeps initial)
    (hregion : session.system.regions[index]? = some region)
    (hfirst : initial.regions[index]? = some first)
    (haccepted : first.Accepted) {order : Nat} {map : BpaMap}
    (htakes : Takes region order block map) {place : Nat} {other now : Region}
    {loan : Block}
    (hon : grant.On initial session.system place other now loan)
    (next : Option Nat) (mark : Bool) :
    (grantOf first.start block).Disjoint grant ∧
      ∃ now, grant.On initial
        ⟨session.system.regions.set index (region.afterAlloc order map),
          next, mark⟩ place other now loan := by
  by_cases hplace : place = index
  · subst hplace
    obtain rfl := Option.some.inj (hregion.symm.trans hon.region_eq)
    obtain rfl := Option.some.inj (hfirst.symm.trans hon.first_eq)
    have hlt := (List.getElem?_eq_some_iff.mp hregion).1
    refine ⟨?_, _, hfirst, List.getElem?_set_self hlt, hon.accepted,
      htakes.keeps_held hon.held, hon.grant_eq, hon.was_free⟩
    rw [hon.grant_eq]
    exact grantOf_disjoint (hon.held.apart_of_free htakes.was_free)
  · refine ⟨?_, now, hon.elsewhere hplace next mark⟩
    have hfollows := hkeeps.follows index first region hfirst hregion
    have hexact := hfollows.exact haccepted
    have hapart := hready.apart_of_ne hfirst hon.first_eq hplace
    have hbounds := hkeeps.bounds hon
    have hfits := hexact.fits
    have hlast := region.last_le (hexact.wellFormed.inside htakes.was_free)
    rw [hfollows.start_eq] at hlast
    rw [hfollows.size_eq] at hfits
    rw [Grant.Disjoint, grantOf_stop]
    simp only [Region.Apart, grantOf] at *
    omega

theorem SystemSession.Keeps.take (hready : initial.Ready)
    (hkeeps : session.Keeps initial)
    (hregion : session.system.regions[index]? = some region)
    (haccepted : region.Accepted) {order : Nat} (horder : order < maxOrder)
    {map : BpaMap} (htakes : Takes region order block map)
    {next : Option Nat} {mark : Bool}
    (hpointed : PageSystem.Pointed
      ⟨session.system.regions.set index (region.afterAlloc order map), next,
        mark⟩) :
    SystemSession.Keeps initial
      ⟨⟨session.system.regions.set index (region.afterAlloc order map), next,
          mark⟩,
        ⟨region.address block, order⟩ :: session.live⟩ := by
  obtain ⟨first, hfirst, hfollows⟩ := hkeeps.first_of_region hregion
  have hfirstAccepted := hfollows.accepted_iff.mp haccepted
  have hexact := hfollows.exact hfirstAccepted
  have hlt := (List.getElem?_eq_some_iff.mp hregion).1
  have hgrant := hkeeps.grant_eq hregion hfirst hfirstAccepted htakes
  rw [hgrant]
  constructor
  · rw [List.length_set]
    exact hkeeps.length_eq
  · refine hkeeps.follows_set hfirst ⟨hfollows.start_eq, hfollows.size_eq,
      hfollows.attrib_eq, htakes.pages_eq.trans hfollows.pages_eq,
      fun _ => htakes.exact hexact, ?_⟩
    intro page hpage
    exact hfollows.shrinks page ((htakes.covers page).mp hpage).1
  · intro grant hlive
    rw [List.mem_cons] at hlive
    rcases hlive with rfl | hlive
    · exact ⟨index, first, _, block, hfirst, List.getElem?_set_self hlt,
        hfirstAccepted, htakes.held horder hexact.wellFormed, rfl,
        fun page hpage => hfollows.shrinks page (htakes.was_free page hpage)⟩
    · obtain ⟨place, other, now, loan, hon⟩ := hkeeps.lends grant hlive
      obtain ⟨-, now, hon⟩ :=
        hon.taken hready hkeeps hregion hfirst hfirstAccepted htakes next mark
      exact ⟨place, other, now, loan, hon⟩
  · rw [List.pairwise_cons]
    refine ⟨?_, hkeeps.disjoint⟩
    intro grant hlive
    obtain ⟨place, other, now, loan, hon⟩ := hkeeps.lends grant hlive
    exact (hon.taken hready hkeeps hregion hfirst hfirstAccepted htakes next
      mark).1
  · refine hkeeps.accounts_set hfirst ?_ ?_
    · intro page haccepted hpage
      rcases hkeeps.accounts index first region hfirst hregion haccepted page
        hpage with hfree | ⟨grant, hlive, hholds⟩
      · by_cases hmem : page ∈ block
        · exact .inr ⟨_, .head _, grantOf_holds_iff.mpr hmem⟩
        · exact .inl ((htakes.covers page).mpr ⟨hfree, hmem⟩)
      · exact .inr ⟨grant, .tail _ hlive, hholds⟩
    · intro _ _ _ _ _ _ _ grant hlive _
      exact .tail _ hlive
  · exact hpointed

instance : Std.Symm Grant.Disjoint := ⟨fun _ _ h => h.symm⟩

theorem SystemSession.Keeps.live_nodup (hkeeps : session.Keeps initial) :
    session.live.Nodup := by
  refine hkeeps.disjoint.imp ?_
  rintro grant _ hdisjoint rfl
  have hsize : 0 < blockOrderSize grant.order :=
    Nat.mul_pos (by decide) (Nat.two_pow_pos grant.order)
  simp only [Grant.Disjoint, Grant.stop] at hdisjoint
  omega

theorem Grant.On.givenBack (hkeeps : session.Keeps initial)
    (hlive : grant ∈ session.live)
    (hon : grant.On initial session.system index first region block)
    {map : BpaMap} (hpages : map.pages = region.map.pages)
    (hcovers : ∀ page, map.free.Covers page ↔
      region.map.free.Covers page ∨ page ∈ block)
    {loan : Grant} (hloan : loan ∈ session.live) (hne : loan ≠ grant)
    {place : Nat} {other now : Region} {held : Block}
    (hheld : loan.On initial session.system place other now held)
    (next : Option Nat) (mark : Bool) :
    ∃ now, loan.On initial
      ⟨session.system.regions.set index (region.afterFree block.order map),
        next, mark⟩ place other now held := by
  by_cases hplace : place = index
  · subst hplace
    obtain rfl := Option.some.inj (hon.region_eq.symm.trans hheld.region_eq)
    obtain rfl := Option.some.inj (hon.first_eq.symm.trans hheld.first_eq)
    have hlt := (List.getElem?_eq_some_iff.mp hon.region_eq).1
    have hdisjoint := hkeeps.disjoint.forall hloan hlive hne
    rw [hheld.grant_eq, hon.grant_eq] at hdisjoint
    exact ⟨_, hon.first_eq, List.getElem?_set_self hlt, hon.accepted,
      hheld.held.returned hpages hcovers (grantOf_apart hdisjoint),
      hheld.grant_eq, hheld.was_free⟩
  · exact ⟨now, hheld.elsewhere hplace next mark⟩

theorem SystemSession.Keeps.giveBack (hready : initial.Ready)
    (hkeeps : session.Keeps initial) (hlive : grant ∈ session.live)
    (hon : grant.On initial session.system index first region block)
    {map : BpaMap} (hexact : (region.afterFree block.order map).Exact)
    (hpages : map.pages = region.map.pages)
    (hcovers : ∀ page, map.free.Covers page ↔
      region.map.free.Covers page ∨ page ∈ block)
    {next : Option Nat} {mark : Bool}
    (hpointed : PageSystem.Pointed
      ⟨session.system.regions.set index (region.afterFree block.order map),
        next, mark⟩) :
    SystemSession.Keeps initial
      ⟨⟨session.system.regions.set index (region.afterFree block.order map),
          next, mark⟩,
        session.live.erase grant⟩ := by
  have hfollows := hkeeps.follows index first region hon.first_eq hon.region_eq
  have hnodup := hkeeps.live_nodup
  constructor
  · rw [List.length_set]
    exact hkeeps.length_eq
  · refine hkeeps.follows_set hon.first_eq ⟨hfollows.start_eq,
      hfollows.size_eq, hfollows.attrib_eq, hpages.trans hfollows.pages_eq,
      fun _ => hexact, ?_⟩
    intro page hpage
    rcases (hcovers page).mp hpage with hfree | hmem
    · exact hfollows.shrinks page hfree
    · exact hon.was_free page hmem
  · intro loan hloan
    rw [hnodup.mem_erase_iff] at hloan
    obtain ⟨place, other, now, held, hheld⟩ := hkeeps.lends loan hloan.2
    obtain ⟨now, hheld⟩ := hon.givenBack hkeeps hlive hpages hcovers hloan.2
      hloan.1 hheld next mark
    exact ⟨place, other, now, held, hheld⟩
  · exact hkeeps.disjoint.sublist List.erase_sublist
  · refine hkeeps.accounts_set hon.first_eq ?_ ?_
    · intro page haccepted hpage
      rcases hkeeps.accounts index first region hon.first_eq hon.region_eq
        haccepted page hpage with hfree | ⟨loan, hloan, hholds⟩
      · exact .inl ((hcovers page).mpr (.inl hfree))
      · by_cases hsame : loan = grant
        · rw [hsame, hon.grant_eq, grantOf_holds_iff] at hholds
          exact .inl ((hcovers page).mpr (.inr hholds))
        · refine .inr ⟨loan, ?_, hholds⟩
          rw [hnodup.mem_erase_iff]
          exact ⟨hsame, hloan⟩
    · intro place other page hplace hother haccepted hpage loan hloan hholds
      rw [hnodup.mem_erase_iff]
      refine ⟨?_, hloan⟩
      rintro rfl
      have hbounds := hkeeps.bounds hon
      have hpage := hready.page_bounds hother haccepted hpage
      have hapart := hready.apart_of_ne hon.first_eq hother hplace
      simp only [Region.Apart, Grant.Holds] at *
      omega
  · exact hpointed

end

end Synos.Page

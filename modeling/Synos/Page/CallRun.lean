import Synos.Page.Calls

namespace Synos.Page

open Synos.Data

/-! What a run of calls keeps: the live grants are the blocks on loan. -/

/-- A free at the start of the region, or of one page with a good hint, finds the
block where it is. -/
theorem Region.Addressable.place_of_exact {region : Region} {block : Block}
    (hspace : region.Addressable)
    (hinside : (block.index + 1) * 2 ^ block.order ≤ region.map.pages)
    (hexact : region.address block = region.start ∨
      block.order = 0 ∧
        (0 < region.map.pagesFree 0 ∨
          region.offsetOf (region.address block) ≤
            region.map.nextFreePage 0)) :
    (block.order = 0 ∨ block.index = 0) ∧
      (0 < region.map.pagesFree block.order ∨
        block.index ≤ region.map.nextFreePage block.order) := by
  rcases hexact with hstart | ⟨hzero, hhint⟩
  · have hfirst : block.first = 0 := by
      rw [hspace.address_eq hinside] at hstart
      simp only [pageSize] at hstart
      omega
    have hindex : block.index = 0 := by
      have := Nat.two_pow_pos block.order
      simp only [Block.first, Nat.mul_eq_zero] at hfirst
      omega
    exact ⟨.inr hindex, .inr (by omega)⟩
  · rw [hspace.offsetOf_address hinside,
      first_eq_index_iff.mpr (.inl hzero)] at hhint
    rw [hzero]
    exact ⟨.inl rfl, hhint⟩

structure Session.Tracks (session : Session) (start pages : Nat)
    (blocks : List Block) : Prop where
  start_eq : session.region.start = start
  pages_eq : session.region.map.pages = pages
  lends : session.region.Lends blocks
  live_eq : session.live = blocks.map (grantOf start)

/-- The grant is a block of the region that shares no byte with a live one. -/
structure Session.MayGrant {Map : Type} (session : Session Map)
    (start pages : Nat) (grant : Grant) : Prop where
  aligned : ∃ index,
    grant.address = start + blockOrderSize grant.order * index
  inside : grant.stop ≤ start + pages * pageSize
  disjoint : ∀ other ∈ session.live, grant.Disjoint other

section

variable {region : Region} {blocks : List Block}

theorem Region.Lends.outOfMem (hlends : region.Lends blocks) :
    (Page.outOfMem region).Lends blocks :=
  ⟨hlends.wellFormed, hlends.unlocked, hlends.space, hlends.held,
    hlends.apart⟩

theorem Region.Lends.tail {block : Block}
    (hlends : region.Lends (block :: blocks)) : region.Lends blocks :=
  ⟨hlends.wellFormed, hlends.unlocked, hlends.space,
    fun other hother => hlends.held other (.tail _ hother),
    hlends.apart.of_cons⟩

end

section

variable {session : Session} {start pages : Nat} {blocks : List Block}

theorem Session.Tracks.inside (htracks : session.Tracks start pages blocks)
    {block : Block} (hinside : (block.index + 1) * 2 ^ block.order ≤ pages) :
    session.region.address block = (grantOf start block).address := by
  rw [htracks.lends.space.address_eq (by rwa [htracks.pages_eq]),
    htracks.start_eq]
  rfl

theorem Session.Tracks.mayGrant (htracks : session.Tracks start pages blocks)
    {block : Block}
    (hfree : ∀ point ∈ block, session.region.map.free.Covers point) :
    session.MayGrant start pages (grantOf start block) := by
  have hinside := htracks.lends.wellFormed.inside hfree
  refine ⟨⟨block.index, ?_⟩, ?_, ?_⟩
  · simp only [grantOf, blockOrderSize, Block.first]
    ring
  · rw [grantOf_stop]
    have hlast := session.region.last_le hinside
    rwa [htracks.start_eq, htracks.pages_eq] at hlast
  · intro other hother
    rw [htracks.live_eq, List.mem_map] at hother
    obtain ⟨loan, hloan, rfl⟩ := hother
    apply grantOf_disjoint
    exact (htracks.lends.held loan hloan).apart_of_free hfree

theorem Session.Tracks.alloc_cases (htracks : session.Tracks start pages blocks)
    {order : Nat} (horder : order < maxOrder) :
    (callMachine.step session (.alloc order) =
        .ok ⟨outOfMem session.region, session.live⟩ ∧
      pagesAlloc session.region order = .ok (0, outOfMem session.region) ∧
      ∀ other, order ≤ other → other < maxOrder →
        session.region.map.pagesFree other = 0) ∨
      ∃ block map, Takes session.region order block map ∧
        pagesAlloc session.region order =
          .ok ((grantOf start block).address,
            session.region.afterAlloc order map) ∧
        callMachine.step session (.alloc order) =
          .ok ⟨session.region.afterAlloc order map,
            if (grantOf start block).address = 0 then session.live
            else grantOf start block :: session.live⟩ := by
  cases pagesAlloc_cases htracks.lends.wellFormed htracks.lends.unlocked
      horder with
  | inl hempty =>
      refine .inl ⟨?_, hempty⟩
      simp [callMachine, hempty.1]
  | inr htakes =>
      obtain ⟨block, map, htakes⟩ := htakes
      have hinside := htracks.lends.wellFormed.inside htakes.was_free
      rw [htracks.pages_eq] at hinside
      have hcall := htakes.call
      rw [htracks.inside hinside] at hcall
      refine .inr ⟨block, map, htakes, hcall, ?_⟩
      have hgrant : grantOf start block =
          ⟨(grantOf start block).address, order⟩ := by
        rw [← htakes.order_eq]
        rfl
      simp only [callMachine, hcall]
      rw [← hgrant]

theorem Session.Tracks.alloc (htracks : session.Tracks start pages blocks)
    {order : Nat} (horder : order < maxOrder) :
    ∃ next, callMachine.step session (.alloc order) = .ok next ∧
      ∃ loans, next.Tracks start pages loans := by
  cases htracks.alloc_cases horder with
  | inl hempty =>
      exact ⟨_, hempty.1, blocks, htracks.start_eq, htracks.pages_eq,
        htracks.lends.outOfMem, htracks.live_eq⟩
  | inr htakes =>
      obtain ⟨block, map, htakes, -, hstep⟩ := htakes
      have hlends := htakes.lends htracks.lends horder
      have hpages : map.pages = pages :=
        htakes.pages_eq.trans htracks.pages_eq
      refine ⟨_, hstep, ?_⟩
      by_cases hzero : (grantOf start block).address = 0
      · refine ⟨blocks, htracks.start_eq, hpages, hlends.tail, ?_⟩
        rw [if_pos hzero]
        exact htracks.live_eq
      · refine ⟨block :: blocks, htracks.start_eq, hpages, hlends, ?_⟩
        rw [if_neg hzero, htracks.live_eq]
        rfl

theorem Session.Tracks.free (htracks : session.Tracks start pages blocks)
    {grant : Grant} (hlegal : Call.Legal session (.free grant))
    (hexact : Call.Exact session (.free grant)) {next : Session}
    (hstep : callMachine.step session (.free grant) = .ok next) :
    next.region.lock = true ∨ ∃ loans, next.Tracks start pages loans := by
  have hmem : grant ∈ session.live := hlegal
  rw [htracks.live_eq, List.mem_map] at hmem
  obtain ⟨block, hblock, rfl⟩ := hmem
  have hheld := htracks.lends.held block hblock
  have hinside := hheld.inside
  have haddress := htracks.inside (htracks.pages_eq ▸ hinside)
  have hcase := htracks.lends.space.place_of_exact hinside
    (by rw [haddress]; exact hexact)
  cases htracks.lends.takeBack hblock hcase.1 hcase.2 with
  | inl hlocked =>
      have hcall : pagesFree session.region (grantOf start block).address
          (grantOf start block).order =
            .ok { session.region with lock := true } := by
        rw [← haddress]
        exact hlocked
      simp only [callMachine, hcall] at hstep
      cases hstep
      exact .inl rfl
  | inr hback =>
      obtain ⟨map, hback, hpages, -, hlends⟩ := hback
      have hcall : pagesFree session.region (grantOf start block).address
          (grantOf start block).order =
            .ok (session.region.afterFree block.order map) := by
        rw [← haddress]
        exact hback
      simp only [callMachine, hcall] at hstep
      cases hstep
      refine .inr ⟨blocks.erase block, htracks.start_eq,
        hpages.trans htracks.pages_eq, hlends, ?_⟩
      simp only
      rw [htracks.live_eq, List.map_erase (grantOf_injective start)]

end

/-- A session that tracks its loans, or one whose region stays locked for good. -/
def Session.Safe (start pages : Nat) (session : Session) : Prop :=
  session.region.lock = true ∨
    ∃ blocks, session.Tracks start pages blocks

theorem callMachine_step_of_locked {session next : Session} {call : Call}
    (hlocked : session.region.lock = true) (hlegal : call.Legal session)
    (hstep : callMachine.step session call = .ok next) : False := by
  cases call with
  | alloc order =>
      have horder : order < maxOrder := hlegal
      simp [callMachine, pagesAlloc, spinlockLock, hlocked,
        Nat.not_le_of_lt horder] at hstep
  | free grant =>
      simp [callMachine, pagesFree, spinlockLock, hlocked] at hstep

theorem Session.Safe.step {start pages : Nat} {session next : Session}
    {call : Call} (hsafe : session.Safe start pages)
    (hlegal : call.Legal session) (hexact : call.Exact session)
    (hstep : callMachine.step session call = .ok next) :
    next.Safe start pages := by
  cases hsafe with
  | inl hlocked => exact (callMachine_step_of_locked hlocked hlegal hstep).elim
  | inr htracks =>
      obtain ⟨blocks, htracks⟩ := htracks
      cases call with
      | alloc order =>
          obtain ⟨after, hafter, hnext⟩ := htracks.alloc hlegal
          rw [hafter] at hstep
          cases hstep
          exact .inr hnext
      | free grant => exact htracks.free hlegal hexact hstep

theorem regionMap_tracks {region fresh : Region} {pages : Nat}
    (hspace : region.start + pages * pageSize ≤ wordSize)
    (hfresh : regionMap region pages = .ok fresh) :
    Session.Tracks ⟨fresh, []⟩ region.start pages [] := by
  have hpages : pages < wordSize := by
    simp only [pageSize, wordSize] at *
    omega
  cases hlock : region.lock with
  | true =>
      simp [regionMap, spinlockLock, hlock] at hfresh
  | false =>
      rw [regionMap_eq region pages hlock] at hfresh
      cases hfresh
      exact ⟨rfl, rfl, ⟨partitionMap_wellFormed hpages, hlock, hspace,
        fun _ hmem => absurd hmem List.not_mem_nil, .nil⟩, rfl⟩

/-- An allocation from a safe session returns a block of the region that meets no
live one. -/
theorem Session.Safe.mayGrant {start pages order address : Nat}
    {session : Session} {after : Region} (hsafe : session.Safe start pages)
    (horder : order < maxOrder)
    (hcall : pagesAlloc session.region order = .ok (address, after))
    (haddress : address ≠ 0) :
    session.MayGrant start pages ⟨address, order⟩ := by
  cases hsafe with
  | inl hlocked =>
      simp [pagesAlloc, spinlockLock, hlocked, Nat.not_le_of_lt horder] at hcall
  | inr htracks =>
      obtain ⟨blocks, htracks⟩ := htracks
      cases htracks.alloc_cases horder with
      | inl hempty =>
          rw [hempty.2.1] at hcall
          cases hcall
          exact (haddress rfl).elim
      | inr htakes =>
          obtain ⟨block, map, htakes, hgrant, -⟩ := htakes
          rw [hgrant] at hcall
          cases hcall
          have hmay := htracks.mayGrant htakes.was_free
          rw [← htakes.order_eq]
          exact hmay

/-- Two pages above the kernel image. -/
def pairRegion : Region where
  start := 0x200000
  size := 0x2000
  attrib := 0
  pagesTotal := 0
  pagesFree := 0
  memFull := false
  lock := false
  map := blankMap 0

end Synos.Page

import Synos.Stored.Fresh
import Synos.Page.CallRun

namespace Synos.Stored

open Synos.Data
open Synos.Page

/-! Runs of `pages_alloc` and `pages_free` on one region with its tables in
memory. -/

def callMachine : Machine Fault (Session StoredMap) Call where
  step session
    | .alloc order =>
        match pagesAlloc session.region order with
        | .error fault => .error fault
        | .ok (address, region) =>
            .ok ⟨region, if address = 0 then session.live
              else ⟨address, order⟩ :: session.live⟩
    | .free grant =>
        match pagesFree session.region grant.address grant.order with
        | .error fault => .error fault
        | .ok region => .ok ⟨region, session.live.erase grant⟩

/-- A free of the start of the region, or of one page along a good hint. -/
def Exact (session : Session StoredMap) : Call → Prop
  | .alloc _ => True
  | .free grant =>
      grant.address = session.region.start ∨
        grant.order = 0 ∧
          (0 < session.region.map.pagesFree 0 ∨
            session.region.offsetOf grant.address ≤
              session.region.map.nextFreePage 0)

instance (session : Session StoredMap) : DecidablePred (Exact session)
  | .alloc _ => inferInstanceAs (Decidable True)
  | .free _ => inferInstanceAs (Decidable (_ ∨ _))

/-- The session with the tables in memory and the one with a map of its own. -/
structure Place.Reflects (place : Place) (origin : Memory)
    (stored : Session StoredMap) (session : Session) : Prop where
  mirrors : place.Mirrors origin stored.region session.region
  live_eq : stored.live = session.live

/-- A free that gets as far as the bitmaps names a block of its order. -/
def FreesBlock (pages : Nat) (session : Session) : Call → Prop
  | .alloc _ => True
  | .free grant => session.region.lock = false →
      grant.order < maxOrder ∧
        session.region.offsetOf grant.address < pages / 2 ^ grant.order

instance (pages : Nat) (session : Session) :
    DecidablePred (FreesBlock pages session)
  | .alloc _ => inferInstanceAs (Decidable True)
  | .free _ => inferInstanceAs (Decidable (_ → _))

/-- The run moreover keeps that the loans are apart. -/
structure Place.Follows (place : Place) (origin : Memory) (start : Nat)
    (stored : Session StoredMap) (session : Session) : Prop
    extends place.Reflects origin stored session where
  safe : session.Safe start place.pages

section

variable {place : Place} {origin : Memory} {start : Nat}
  {stored : Session StoredMap} {session : Session} {call : Call}

theorem Place.Reflects.legal (hreflects : place.Reflects origin stored session) :
    call.Legal stored ↔ call.Legal session := by
  cases call with
  | alloc order => exact Iff.rfl
  | free grant => simp only [Call.Legal, hreflects.live_eq]

theorem Place.Reflects.exact (hreflects : place.Reflects origin stored session) :
    Exact stored call ↔ call.Exact session := by
  cases call with
  | alloc order => exact Iff.rfl
  | free grant =>
      have hmap := hreflects.mirrors.2
      simp only [Exact, Call.Exact, Region.offsetOf,
        hreflects.mirrors.start_eq, hmap.count_eq 0 (by decide),
        hmap.hint_eq 0 (by decide)]

theorem Place.Reflects.step (hreflects : place.Reflects origin stored session)
    (hblock : FreesBlock place.pages session call) :
    Simulates (place.Reflects origin) (callMachine.step stored call)
      (Page.callMachine.step session call) := by
  cases call with
  | alloc order =>
      simp only [callMachine, Page.callMachine]
      rcases (hreflects.mirrors.pagesAlloc order).cases with
        ⟨fault, hfirst, hsecond⟩ | ⟨reply, other, hfirst, hsecond, hreply⟩
      · rw [hfirst, hsecond]
        rfl
      · rw [hfirst, hsecond]
        refine ⟨hreply.2, ?_⟩
        simp only [hreply.1, hreflects.live_eq]
  | free grant =>
      have hfree : Simulates (place.Mirrors origin)
          (Stored.pagesFree stored.region grant.address grant.order)
          (Page.pagesFree session.region grant.address grant.order) := by
        cases hlock : session.region.lock with
        | true =>
            have hstored : stored.region.lock = true := by
              rw [hreflects.mirrors.1]
              exact hlock
            simp only [Stored.pagesFree, Page.pagesFree, spinlockLock, hlock,
              hstored, if_true]
            rfl
        | false =>
            obtain ⟨horder, hlt⟩ := hblock hlock
            exact hreflects.mirrors.pagesFree horder fun _ => hlt
      simp only [callMachine, Page.callMachine]
      rcases hfree.cases with
        ⟨fault, hfirst, hsecond⟩ | ⟨reply, other, hfirst, hsecond, hreply⟩
      · rw [hfirst, hsecond]
        rfl
      · rw [hfirst, hsecond]
        refine ⟨hreply, ?_⟩
        simp only [hreflects.live_eq]

/-- A run on separate bitmaps, each free of which names a block of its order, is
one on the bytes of memory. -/
theorem Place.Reflects.run (hreflects : place.Reflects origin stored session)
    {guard : Session → Call → Prop} {calls : List Call}
    (hguard : Page.callMachine.Guarded (fun session call =>
      guard session call ∧ FreesBlock place.pages session call)
      session calls) :
    Simulates (place.Reflects origin) (callMachine.run stored calls)
      (Page.callMachine.run session calls) := by
  refine (@Machine.run_simulates _ _ _ Page.callMachine _ _ callMachine
    (fun session stored => place.Reflects origin stored session) ?_ _ _ _
    hreflects hguard).symm
  exact fun state twin call hrel hcall => (hrel.step hcall.2).symm

theorem Place.Reflects.guarded (hreflects : place.Reflects origin stored session)
    {guard : Session → Call → Prop}
    {storedGuard : Session StoredMap → Call → Prop} {calls : List Call}
    (hguard : Page.callMachine.Guarded (fun session call =>
      guard session call ∧ FreesBlock place.pages session call)
      session calls)
    (hguards : ∀ state twin call, place.Reflects origin state twin →
      guard twin call → storedGuard state call) :
    callMachine.Guarded storedGuard stored calls := by
  refine @Machine.guarded_simulates _ _ _ Page.callMachine _ _ callMachine
    (fun session stored => place.Reflects origin stored session) _
    (fun state twin call hrel hcall => (hrel.step hcall.2).symm)
    (fun state twin call hrel hcall => hguards twin state call hrel hcall.1)
    _ _ _ hreflects hguard

theorem Place.Follows.freesBlock
    (hfollows : place.Follows origin start stored session)
    (hlegal : call.Legal session) (hexact : call.Exact session) :
    FreesBlock place.pages session call := by
  cases call with
  | alloc order => trivial
  | free grant =>
      intro hunlocked
      rcases hfollows.safe with hlocked | ⟨blocks, htracks⟩
      · rw [hunlocked] at hlocked
        cases hlocked
      · have hmem : grant ∈ session.live := hlegal
        rw [htracks.live_eq, List.mem_map] at hmem
        obtain ⟨block, hblock, rfl⟩ := hmem
        have hheld := htracks.lends.held block hblock
        have hinside := hheld.inside
        have haddress := htracks.inside (htracks.pages_eq ▸ hinside)
        have hcase := htracks.lends.space.place_of_exact hinside
          (by rw [haddress]; exact hexact)
        refine ⟨hheld.order_lt, ?_⟩
        rw [← haddress, htracks.lends.space.offsetOf_address hinside,
          first_eq_index_iff.mpr hcase.1]
        rw [htracks.pages_eq] at hinside
        exact (Nat.le_div_iff_mul_le (Nat.two_pow_pos _)).mpr hinside

theorem Place.Follows.step (hfollows : place.Follows origin start stored session)
    (hlegal : call.Legal stored) (hexact : Exact stored call) :
    Simulates (place.Follows origin start) (callMachine.step stored call)
      (Page.callMachine.step session call) := by
  have hlegal := hfollows.legal.mp hlegal
  have hexact := hfollows.exact.mp hexact
  rcases (hfollows.toReflects.step
      (hfollows.freesBlock hlegal hexact)).cases with
    ⟨fault, hfirst, hsecond⟩ | ⟨next, other, hfirst, hsecond, hnext⟩
  · rw [hfirst, hsecond]
    rfl
  · rw [hfirst, hsecond]
    exact ⟨hnext, hfollows.safe.step hlegal hexact hsecond⟩

end

theorem regionMap_reflects {place : Place} {memory : Memory}
    {region : Region Nat} {fresh : Region StoredMap}
    (hspace : region.start + place.pages * pageSize ≤ wordSize)
    (hfits : place.Fits) (hones : place.OnesBehind memory)
    (hfresh : regionMap memory region place.pages place.map place.table =
      .ok fresh) :
    ∃ other, place.Reflects memory ⟨fresh, []⟩ ⟨other, []⟩ ∧
      Session.Tracks ⟨other, []⟩ region.start place.pages [] := by
  have hpages : place.pages < wordSize := by
    simp only [pageSize, wordSize] at *
    omega
  obtain ⟨other, hother, hmirrors⟩ :=
    (regionMap_mirrors region (blankMap 0) hfits hpages hones).exists_right
      hfresh
  exact ⟨other, ⟨hmirrors, rfl⟩, regionMap_tracks hspace hother⟩

theorem regionMap_follows {place : Place} {memory : Memory}
    {region : Region Nat} {fresh : Region StoredMap}
    (hspace : region.start + place.pages * pageSize ≤ wordSize)
    (hfits : place.Fits) (hones : place.OnesBehind memory)
    (hfresh : regionMap memory region place.pages place.map place.table =
      .ok fresh) :
    ∃ other, place.Follows memory region.start ⟨fresh, []⟩ ⟨other, []⟩ := by
  obtain ⟨other, hreflects, htracks⟩ :=
    regionMap_reflects hspace hfits hones hfresh
  exact ⟨other, hreflects, .inr ⟨[], htracks⟩⟩

/-- In a run whose frees are legal and exact, on a region whose bitmaps have room
in memory, an allocation never returns a block that leaves the region or meets a
live block. -/
theorem run_pagesAlloc_mayGrant {place : Place} {memory : Memory}
    {region : Region Nat} {fresh after : Region StoredMap} {calls : List Call}
    {session : Session StoredMap} {order address : Nat}
    (hspace : region.start + place.pages * pageSize ≤ wordSize)
    (hfits : place.Fits) (hones : place.OnesBehind memory)
    (hfresh : regionMap memory region place.pages place.map place.table =
      .ok fresh)
    (hguard : callMachine.Guarded
      (fun session call => call.Legal session ∧ Exact session call)
      ⟨fresh, []⟩ calls)
    (hrun : callMachine.run ⟨fresh, []⟩ calls = .ok session)
    (horder : order < maxOrder)
    (hcall : pagesAlloc session.region order = .ok (address, after))
    (haddress : address ≠ 0) :
    session.MayGrant region.start place.pages ⟨address, order⟩ := by
  obtain ⟨other, hfollows⟩ := regionMap_follows hspace hfits hones hfresh
  obtain ⟨last, -, hlast⟩ := (Machine.run_simulates
    (fun state twin call hrel hguard => hrel.step hguard.1 hguard.2)
    hfollows hguard).exists_right hrun
  obtain ⟨reply, hreply, hsame⟩ :=
    (hlast.mirrors.pagesAlloc order).exists_right hcall
  obtain ⟨same, rest⟩ := reply
  obtain rfl : address = same := hsame.1
  have hmay := hlast.safe.mayGrant horder hreply haddress
  refine ⟨hmay.aligned, hmay.inside, ?_⟩
  rw [hlast.live_eq]
  exact hmay.disjoint

/-! Two pages above the kernel image.  Their bitmaps take two bytes, of which only
the first belongs to the table; the second one held ones. -/

def pairPlace : Place := ⟨2, 0x8000, 0x9000, 2⟩

def pairMemory : Memory := fun address => if address = 0x9001 then 0xFF else 0

def pairRegion : Region Nat := withMap Page.pairRegion 0

theorem pairPlace_fits : pairPlace.Fits := by
  refine ⟨by decide, by decide, by decide, by decide, by decide, ?_⟩
  decide

theorem pairPlace_ones : pairPlace.OnesBehind pairMemory := by
  intro index hge hlt
  have hsize : pageTblSize pairPlace.pages = 1 := by decide
  have hplace : pairPlace.size = 2 := rfl
  obtain rfl : index = 1 := by omega
  decide

theorem pairPlace_fresh {other : Region}
    (hother : Page.regionMap Page.pairRegion 2 = .ok other) :
    ∃ fresh, regionMap pairMemory pairRegion 2 0x8000 0x9000 = .ok fresh ∧
      pairPlace.Reflects pairMemory ⟨fresh, []⟩ ⟨other, []⟩ := by
  have hmirrors := @regionMap_mirrors pairPlace pairMemory pairRegion
    Page.pairRegion.map pairPlace_fits (by decide) pairPlace_ones
  obtain ⟨fresh, hfresh, hsame⟩ := hmirrors.exists_left hother
  exact ⟨fresh, hfresh, hsame, rfl⟩

/-- Handing out both pages and taking the first one back lets it be handed out
again. -/
theorem run_pagesAlloc_reuses_first :
    Returns (regionMap pairMemory pairRegion 2 0x8000 0x9000) fun fresh =>
      Returns (callMachine.run ⟨fresh, []⟩
          [.alloc 0, .alloc 0, .free ⟨0x200000, 0⟩]) fun session =>
        Returns (pagesAlloc session.region 0) fun reply =>
          reply.1 = 0x200000 ∧
            session.MayGrant 0x200000 2 ⟨0x200000, 0⟩ := by
  have hruns : Returns (Page.regionMap Page.pairRegion 2) fun fresh =>
      Page.callMachine.Guarded (fun session call =>
          (call.Legal session ∧ call.Exact session) ∧
            FreesBlock 2 session call)
          ⟨fresh, []⟩ [.alloc 0, .alloc 0, .free ⟨0x200000, 0⟩] ∧
        Returns (Page.callMachine.run ⟨fresh, []⟩
            [.alloc 0, .alloc 0, .free ⟨0x200000, 0⟩]) fun session =>
          Returns (Page.pagesAlloc session.region 0) fun reply =>
            reply.1 = 0x200000 := by
    decide +kernel
  simp only [returns_iff] at hruns ⊢
  obtain ⟨other, hother, hguard, last, hlast, ⟨_, rest⟩, hreply, rfl⟩ := hruns
  obtain ⟨fresh, hfresh, hreflects⟩ := pairPlace_fresh hother
  obtain ⟨session, hrun, hsame⟩ := (hreflects.run hguard).exists_left hlast
  obtain ⟨⟨address, after⟩, hcall, haddress, -⟩ :=
    (hsame.mirrors.pagesAlloc 0).exists_left hreply
  obtain rfl : address = 0x200000 := haddress
  refine ⟨fresh, hfresh, session, hrun, _, hcall, rfl, ?_⟩
  exact run_pagesAlloc_mayGrant (by decide) pairPlace_fits pairPlace_ones
    hfresh (hreflects.guarded hguard fun state twin call hstate hcall =>
      ⟨hstate.legal.mpr hcall.1, hstate.exact.mpr hcall.2⟩) hrun (by decide)
    hcall (by decide)

/-- The page freed after both were handed out leaves the hint on the page that
is still live. -/
theorem run_pagesAlloc_live_page :
    Returns (regionMap pairMemory pairRegion 2 0x8000 0x9000) fun fresh =>
      callMachine.Guarded (fun session call => call.Legal session)
          ⟨fresh, []⟩ [.alloc 0, .alloc 0, .free ⟨0x201000, 0⟩] ∧
        Returns (callMachine.run ⟨fresh, []⟩
            [.alloc 0, .alloc 0, .free ⟨0x201000, 0⟩]) fun session =>
          Returns (pagesAlloc session.region 0) fun reply =>
            reply.1 = 0x200000 ∧ ⟨0x200000, 0⟩ ∈ session.live := by
  have hruns : Returns (Page.regionMap Page.pairRegion 2) fun fresh =>
      Page.callMachine.Guarded (fun session call =>
          call.Legal session ∧ FreesBlock 2 session call)
          ⟨fresh, []⟩ [.alloc 0, .alloc 0, .free ⟨0x201000, 0⟩] ∧
        Returns (Page.callMachine.run ⟨fresh, []⟩
            [.alloc 0, .alloc 0, .free ⟨0x201000, 0⟩]) fun session =>
          Returns (Page.pagesAlloc session.region 0) fun reply =>
            reply.1 = 0x200000 ∧ ⟨0x200000, 0⟩ ∈ session.live := by
    decide +kernel
  simp only [returns_iff] at hruns ⊢
  obtain ⟨other, hother, hguard, last, hlast, reply, hreply, haddress, hmem⟩ :=
    hruns
  obtain ⟨fresh, hfresh, hreflects⟩ := pairPlace_fresh hother
  obtain ⟨session, hrun, hsame⟩ := (hreflects.run hguard).exists_left hlast
  obtain ⟨answer, hcall, hanswer⟩ :=
    (hsame.mirrors.pagesAlloc 0).exists_left hreply
  refine ⟨fresh, hfresh, hreflects.guarded hguard
    fun state twin call hstate hcall => hstate.legal.mpr hcall, session, hrun,
    answer, hcall, hanswer.1.trans haddress, ?_⟩
  rwa [hsame.live_eq]

end Synos.Stored

import Synos.Page.Parted
import Synos.Page.Processors
import Synos.Stored.CallRun
import Synos.Stored.Reserve

namespace Synos.Stored

open Synos.Data
open Synos.Page

/-! Processors that allocate and free at the same time, in a region with its
tables in memory: the blocks handed out to them never meet. -/

def serve (region : Region StoredMap) :
    RegionCall → Except Fault (Nat × Region StoredMap)
  | .alloc order _ => pagesAlloc region order
  | .free grant =>
      match pagesFree region grant.address grant.order with
      | .error fault => .error fault
      | .ok region => .ok (0, region)
  | .reserve order offset => pagesReserve region order offset

def regionMachine : Machine Fault (RegionRun StoredMap) RegionCall :=
  servingMachine serve

/-! The statements of the source as accesses. -/

/-- From the label `check_ord` on, when the order has a free block. -/
def takeSection (order : Nat) : Section (Region StoredMap) Nat :=
  .access (fun region =>
      { region with map :=
          region.map.blockSet order (region.map.nextFreePage order) })
    fun before =>
      .access (fun region =>
          { region with map := dropNextFreePage region.map order })
        fun _ =>
          .access (fun region =>
              if region.pagesFree ≤ 2 ^ order then outOfMem region else region)
            fun _ =>
              .access (fun region =>
                  { region with
                    pagesFree := wordSub region.pagesFree (2 ^ order) })
                fun _ =>
                  .leave (word (blockOrderSize order *
                    before.map.nextFreePage order + before.start)) true

def failSection : Section (Region StoredMap) Nat :=
  .access outOfMem fun _ => .leave 0 true

def allocSection (order : Nat) : Section (Region StoredMap) Nat :=
  .access id fun region =>
    if 0 < region.map.pagesFree order then takeSection order
    else if order = maxOrder - 1 then failSection
    else
      .access (fun region => blockSplit region (order + 1)) fun _ =>
        .access id fun region =>
          if region.map.pagesFree order = 0 then failSection
          else takeSection order

def freeSection (grant : Grant) : Section (Region StoredMap) Nat :=
  .access id fun region =>
    if grant.address < region.start ∨
        wordAdd region.start region.size ≤ grant.address then
      .leave 0 false
    else if region.map.blockCheck grant.order
        ((grant.address - region.start) / pageSize) then
      .access (fun region =>
          if region.pagesFree = 0 then outOfMem region else region)
        fun _ =>
          .access (fun region =>
              { region with
                pagesFree := wordAdd region.pagesFree (2 ^ grant.order) })
            fun _ =>
              .access (fun region =>
                  { region with
                    map := returnBlock region.map grant.order
                      ((grant.address - region.start) / pageSize) })
                fun _ => .leave 0 true
    else .leave 0 false

def reserveSection (order offset : Nat) : Section (Region StoredMap) Nat :=
  .access id fun region =>
    if region.map.blockCheck order offset = false then
      .access (fun region => region.afterReserve order
          (reserveBlock region.map order offset))
        fun region =>
          .leave (word (blockOrderSize order * offset + region.start)) true
    else
      .access (fun region =>
          let split := findSplitOrder region.map order (order + 1)
            (offset / 2 * 2)
          { region with map := splitDown region.map order split.1 split.2 })
        fun _ =>
          .access (fun region =>
              region.afterReserve order
                (if region.map.blockCheck order offset = false then
                  reserveBlock region.map order offset
                else region.map))
            fun region =>
              .leave (word (blockOrderSize order * offset + region.start)) true

def statements : RegionCall → Section (Region StoredMap) Nat
  | .alloc order _ => allocSection order
  | .free grant => freeSection grant
  | .reserve order offset => reserveSection order offset

theorem spinlockLock_unlock (region : Region StoredMap) :
    spinlockLock (spinlockUnlock region) = .ok { region with lock := true } :=
  rfl

theorem takeSection_answer (region : Region StoredMap) (order : Nat) :
    allocNextFree { region with lock := true } order =
      answer ((takeSection order).exec region) := by
  simp only [takeSection, Section.exec, allocNextFree, outOfMem, spinlockUnlock]
  split <;> rfl

theorem blockSplit_lock (region : Region StoredMap) (order : Nat) (lock : Bool) :
    blockSplit { region with lock := lock } order =
      { blockSplit region order with lock := lock } := by
  fun_induction blockSplit region order with
  | case1 order hrange => rw [blockSplit, if_pos hrange]
  | case2 order hrange hpos =>
      rw [blockSplit, if_neg hrange, if_pos hpos]
  | case3 hrange hpos =>
      rw [blockSplit, if_neg hrange, if_neg hpos, if_pos rfl]
      rfl
  | case4 order hrange hpos htop split hempty ih =>
      rw [blockSplit, if_neg hrange, if_neg hpos, if_neg htop]
      simp only [ih]
      rw [if_pos hempty]
      rfl
  | case5 order hrange hpos htop split hempty ih =>
      rw [blockSplit, if_neg hrange, if_neg hpos, if_neg htop]
      simp only [ih]
      rw [if_neg hempty]

theorem allocSection_answer (region : Region StoredMap) {order : Nat}
    (horder : order < maxOrder) :
    pagesAlloc (spinlockUnlock region) order =
      .ok (answer ((allocSection order).exec region)) := by
  rw [pagesAlloc, if_neg (Nat.not_le_of_lt horder), spinlockLock_unlock]
  simp only [allocSection, Section.exec, id]
  by_cases hfree : 0 < region.map.pagesFree order
  · rw [if_pos hfree, if_pos hfree, takeSection_answer]
  · rw [if_neg hfree, if_neg hfree]
    by_cases htop : order = maxOrder - 1
    · rw [if_pos htop, if_pos htop]
      rfl
    · rw [if_neg htop, if_neg htop]
      simp only [Section.exec, blockSplit_lock, id]
      by_cases hempty :
          (blockSplit region (order + 1)).map.pagesFree order = 0
      · rw [if_pos hempty, if_pos hempty]
        rfl
      · rw [if_neg hempty, if_neg hempty, takeSection_answer]

theorem freeSection_answer (region : Region StoredMap) (grant : Grant) :
    serve (spinlockUnlock region) (.free grant) =
      .ok (answer ((freeSection grant).exec region)) := by
  rw [serve, pagesFree, spinlockLock_unlock]
  simp only [freeSection, Section.exec, id]
  by_cases houtside : grant.address < region.start ∨
      wordAdd region.start region.size ≤ grant.address
  · rw [if_pos houtside, if_pos houtside]
    rfl
  · rw [if_neg houtside, if_neg houtside]
    by_cases hset : region.map.blockCheck grant.order
        ((grant.address - region.start) / pageSize)
    · rw [if_pos hset, if_pos hset]
      simp only [Section.exec, answer, spinlockUnlock, outOfMem]
      split <;> rfl
    · rw [if_neg hset, if_neg hset]
      rfl

theorem reserveSection_answer (region : Region StoredMap) (order offset : Nat) :
    pagesReserve (spinlockUnlock region) order offset =
      .ok (answer ((reserveSection order offset).exec region)) := by
  rw [pagesReserve, spinlockLock_unlock]
  simp only [reserveSection, Section.exec, id]
  by_cases hfree : region.map.blockCheck order offset = false
  · rw [if_pos hfree, if_pos hfree]
    simp only [Section.exec, answer, Region.afterReserve, Bool.not_true]
  · rw [if_neg hfree, if_neg hfree]
    simp only [Section.exec, answer, Region.afterReserve, Bool.not_true]

theorem statements_splits : SplitsAs serve statements
  | .alloc _ horder, region => allocSection_answer region horder
  | .free grant, region => freeSection_answer region grant
  | .reserve order offset, region => reserveSection_answer region order offset

/-! The calls on the bytes of memory and on separate bitmaps. -/

/-- The blocks that the call names lie in their bitmaps. -/
def NamesBlocks (place : Place) (region : Region) : RegionCall → Prop
  | .alloc _ _ => True
  | .free grant => grant.order < maxOrder ∧
      (region.Contains grant.address →
        region.offsetOf grant.address < place.pages / 2 ^ grant.order)
  | .reserve order offset => place.InBitmap order offset ∧
      (region.map.freeArea order offset = true →
        place.Climbs region.map order offset)

instance (place : Place) (region : Region) :
    DecidablePred (NamesBlocks place region)
  | .alloc _ _ => inferInstanceAs (Decidable True)
  | .free _ => inferInstanceAs (Decidable (_ ∧ (_ → _)))
  | .reserve _ _ => inferInstanceAs (Decidable (_ ∧ (_ → _)))

section

variable {place : Place} {origin : Memory} {stored : Region StoredMap}
  {region : Region}

theorem Place.Mirrors.serve (hmirrors : place.Mirrors origin stored region)
    (call : RegionCall) (hnames : NamesBlocks place region call) :
    Simulates (place.Replies origin) (Stored.serve stored call)
      (RegionCall.serve region call) := by
  cases call with
  | alloc order horder => exact hmirrors.pagesAlloc order
  | free grant =>
      simp only [Stored.serve, RegionCall.serve]
      rcases (hmirrors.pagesFree hnames.1 hnames.2).cases with
        ⟨fault, hfirst, hsecond⟩ | ⟨after, other, hfirst, hsecond, hafter⟩
      · rw [hfirst, hsecond]
        rfl
      · rw [hfirst, hsecond]
        exact ⟨rfl, hafter⟩
  | reserve order offset => exact hmirrors.pagesReserve hnames.1 hnames.2

/-- The two runs have returned the same. -/
structure Place.Accompanies (place : Place) (origin : Memory)
    (run : RegionRun) (stored : RegionRun StoredMap) : Prop where
  mirrors : place.Mirrors origin stored.region run.region
  returned_eq : stored.returned = run.returned

theorem Place.Accompanies.step {run : RegionRun} {twin : RegionRun StoredMap}
    {call : RegionCall} (haccompanies : place.Accompanies origin run twin)
    (hnames : NamesBlocks place run.region call) :
    Simulates (place.Accompanies origin) (Page.regionMachine.step run call)
      (regionMachine.step twin call) := by
  simp only [Page.regionMachine, regionMachine, servingMachine]
  rcases (haccompanies.mirrors.serve call hnames).cases with
    ⟨fault, hfirst, hsecond⟩ | ⟨reply, other, hfirst, hsecond, hreply⟩
  · rw [hfirst, hsecond]
    rfl
  · rw [hfirst, hsecond]
    exact ⟨hreply.2, congrArg₂ List.cons hreply.1 haccompanies.returned_eq⟩

end

/-! A run of the region is a session whose live blocks are the grants. -/

def toCall : RegionCall → Option Call
  | .alloc order _ => some (.alloc order)
  | .free grant => some (.free grant)
  | .reserve _ _ => none

/-- The blocks handed out and not freed since, by whichever processor.  The calls
and their results are listed with the newest first. -/
def grants : List RegionCall → List Nat → List Grant
  | .alloc order _ :: past, address :: returned =>
      if address = 0 then grants past returned
      else ⟨address, order⟩ :: grants past returned
  | .free grant :: past, _ :: returned => (grants past returned).erase grant
  | .reserve _ _ :: past, _ :: returned => grants past returned
  | _, _ => []

theorem regionMachine_step_session {run after : RegionRun StoredMap}
    {call : RegionCall} {one : Call} (hcall : toCall call = some one)
    {past : List RegionCall} {live : List Grant}
    (hlive : live = grants past run.returned)
    (hstep : regionMachine.step run call = .ok after) :
    callMachine.step ⟨run.region, live⟩ one =
      .ok ⟨after.region, grants (call :: past) after.returned⟩ := by
  subst hlive
  cases call with
  | alloc order horder =>
      cases hcall
      simp only [regionMachine, servingMachine, serve] at hstep
      cases hserve : pagesAlloc run.region order with
      | error fault => simp [hserve] at hstep
      | ok reply =>
          rw [hserve] at hstep
          cases hstep
          simp only [callMachine, hserve, grants]
  | free grant =>
      cases hcall
      simp only [regionMachine, servingMachine, serve] at hstep
      cases hserve : pagesFree run.region grant.address grant.order with
      | error fault => simp [hserve] at hstep
      | ok region =>
          rw [hserve] at hstep
          cases hstep
          simp only [callMachine, hserve, grants]
  | reserve order offset => cases hcall

theorem regionMachine_run_session {region : Region StoredMap}
    {past : List RegionCall} {after : RegionRun StoredMap} {calls : List Call}
    (hcalls : past.reverse.map toCall = calls.map some)
    (hrun : regionMachine.run ⟨region, []⟩ past.reverse = .ok after) :
    callMachine.run ⟨region, []⟩ calls =
      .ok ⟨after.region, grants past after.returned⟩ := by
  induction past generalizing after calls with
  | nil =>
      cases hrun
      cases calls with
      | nil => rfl
      | cons one calls => cases hcalls
  | cons call past ih =>
      rw [List.reverse_cons] at hrun hcalls
      obtain ⟨middle, hbefore, hlast⟩ := Machine.run_append_ok.mp hrun
      obtain ⟨last, hstep, hend⟩ := Machine.run_cons_ok.mp hlast
      cases hend
      rw [List.map_append, eq_comm, List.map_eq_append_iff] at hcalls
      obtain ⟨front, back, rfl, hfront, hback⟩ := hcalls
      obtain ⟨one, rfl, hone⟩ := List.map_eq_singleton_iff.mp hback
      refine Machine.run_append_ok.mpr ⟨_, ih hfront.symm hbefore, ?_⟩
      exact Machine.run_cons_ok.mpr
        ⟨_, regionMachine_step_session hone.symm rfl hstep, rfl⟩

/-- Whatever the interleaving of the processors, the blocks they hold share no
byte and lie inside the region, as long as its bitmaps have room in memory and
every free is legal and exact in the order in which the calls took the lock. -/
theorem run_grants_disjoint {Agent : Type} [DecidableEq Agent]
    {body : RegionCall → Section (Region StoredMap) Nat}
    (hsplits : SplitsAs serve body) {place : Place} {memory : Memory}
    {region : Region Nat} {fresh : Region StoredMap}
    (hspace : region.start + place.pages * pageSize ≤ wordSize)
    (hfits : place.Fits) (hones : place.OnesBehind memory)
    (hfresh : regionMap memory region place.pages place.map place.table =
      .ok fresh)
    {moves : List (Move Agent RegionCall)}
    {system : Shared Agent (Region StoredMap) Nat RegionCall}
    (hrun : (lockMachine body).run (.start fresh) moves = .ok system)
    (hquiet : ∀ agent, ¬system.Inside agent) {calls : List Call}
    (hcalls : system.taken.reverse.map toCall = calls.map some)
    (hguard : callMachine.Guarded
      (fun session call => call.Legal session ∧ Exact session call)
      ⟨fresh, []⟩ calls) :
    (grants system.taken system.returned).Pairwise Grant.Disjoint ∧
      ∀ grant ∈ grants system.taken system.returned,
        region.start ≤ grant.address ∧
          grant.stop ≤ region.start + place.pages * pageSize := by
  obtain ⟨other, hreflects, htracks⟩ :=
    regionMap_reflects hspace hfits hones hfresh
  have hlock : fresh.lock = false :=
    (congrArg Region.lock hreflects.mirrors.1).trans htracks.lends.unlocked
  have hserial := hsplits.run_quiet hlock
    (run_status Shared.Status.start hrun)
    fun agent => outside_of_not_inside (hquiet agent)
  have hsession := regionMachine_run_session hcalls hserial
  have hfollows : place.Follows memory region.start ⟨fresh, []⟩ ⟨other, []⟩ :=
    ⟨hreflects, .inr ⟨[], htracks⟩⟩
  obtain ⟨last, hlast, hsame⟩ := (Machine.run_simulates
    (fun state twin call hrel hcall => hrel.step hcall.1 hcall.2)
    hfollows hguard).exists_right hsession
  have hparted := run_parted hfollows.safe htracks.parted
    (Machine.guarded_simulates
      (fun state twin call hrel hcall => hrel.step hcall.1 hcall.2)
      (fun state twin call hrel hcall =>
        ⟨hrel.legal.mp hcall.1, hrel.exact.mp hcall.2⟩) hfollows hguard) hlast
  have hlive : grants system.taken system.returned = last.live := hsame.live_eq
  rw [hlive]
  exact ⟨hparted.disjoint, hparted.inside⟩

/-- Each processor asks for a page, and the second one gets the page that the
first one gives back.  The newest call stands first. -/
def exchangeCalls : List (Bool × RegionCall) :=
  [(false, onePage), (true, .free ⟨0x200000, 0⟩), (false, onePage),
    (true, onePage)]

theorem run_grants_disjoint_exchange :
    Returns (regionMap pairMemory pairRegion 2 0x8000 0x9000) fun fresh =>
      ∃ (moves : List (Move Bool RegionCall))
        (system : Shared Bool (Region StoredMap) Nat RegionCall),
        (lockMachine statements).run (.start fresh) moves = .ok system ∧
          grants system.taken system.returned =
              [⟨0x200000, 0⟩, ⟨0x201000, 0⟩] ∧
            (grants system.taken system.returned).Pairwise
              Grant.Disjoint := by
  have hruns : Returns (Page.regionMap Page.pairRegion 2) fun fresh =>
      fresh.lock = false ∧
      Page.callMachine.Guarded (fun session call =>
          (call.Legal session ∧ call.Exact session) ∧
            FreesBlock 2 session call)
          ⟨fresh, []⟩ [.alloc 0, .alloc 0, .free ⟨0x200000, 0⟩, .alloc 0] ∧
        Returns (Page.callMachine.run ⟨fresh, []⟩
            [.alloc 0, .alloc 0, .free ⟨0x200000, 0⟩, .alloc 0])
          (fun session => session.live = [⟨0x200000, 0⟩, ⟨0x201000, 0⟩]) ∧
        Page.regionMachine.Guarded (fun run call =>
            NamesBlocks pairPlace run.region call ∧
              Returns (call.serve run.region) fun reply =>
                reply.2.lock = false)
          ⟨fresh, []⟩ (exchangeCalls.map Prod.snd).reverse := by
    decide +kernel
  simp only [returns_iff] at hruns ⊢
  obtain ⟨other, hother, hlock, hguard, ⟨last, hlast, hlive⟩, hreleases⟩ :=
    hruns
  obtain ⟨fresh, hfresh, hreflects⟩ := pairPlace_fresh hother
  have hunlocked : fresh.lock = false :=
    (congrArg Region.lock hreflects.mirrors.1).trans hlock
  have hrelease : AllRelease statements fresh (exchangeCalls.map Prod.snd) := by
    refine statements_splits.allRelease hunlocked ?_
    refine Machine.guarded_simulates
      (fun state twin call hrel hcall => hrel.step hcall.1) ?_
      (⟨hreflects.mirrors, rfl⟩ :
        pairPlace.Accompanies pairMemory ⟨other, []⟩ ⟨fresh, []⟩) hreleases
    rintro state twin call hrel ⟨hnames, hreply⟩
    obtain ⟨reply, hreply, hfree⟩ := hreply
    obtain ⟨answer, hanswer, hsame⟩ :=
      (hrel.mirrors.serve call hnames).exists_left hreply
    refine returns_iff.mpr ⟨answer, hanswer, ?_⟩
    rw [hsame.2.1]
    exact hfree
  obtain ⟨moves, system, hrun, -, hidle, htaken⟩ :=
    exists_run_of_allRelease hrelease
  have hquiet : ∀ agent, ¬system.Inside agent := by
    rintro agent ⟨call, rest, hinside⟩
    rw [hidle agent] at hinside
    cases hinside
  have hcalls : system.taken.reverse.map toCall =
      [Call.alloc 0, .alloc 0, .free ⟨0x200000, 0⟩, .alloc 0].map some := by
    rw [htaken]
    rfl
  have hsession := regionMachine_run_session hcalls
    (statements_splits.run_quiet hunlocked (run_status Shared.Status.start hrun)
      fun agent => outside_of_not_inside (hquiet agent))
  obtain ⟨session, hcallRun, hsame⟩ := (hreflects.run hguard).exists_left hlast
  have hgrants : grants system.taken system.returned =
      [⟨0x200000, 0⟩, ⟨0x201000, 0⟩] := by
    rw [← hlive, ← hsame.live_eq]
    rw [hsession] at hcallRun
    cases hcallRun
    rfl
  refine ⟨fresh, hfresh, moves, system, hrun, hgrants, ?_⟩
  exact (run_grants_disjoint statements_splits (by decide) pairPlace_fits
    pairPlace_ones hfresh hrun hquiet hcalls
    (hreflects.guarded hguard fun state twin call hstate hcall =>
      ⟨hstate.legal.mpr hcall.1, hstate.exact.mpr hcall.2⟩)).1

end Synos.Stored

import Synos.Page.Init

namespace Synos.Page

open Synos.Data

/-! Calls on the whole chain of regions: what a free of something that is not
allocated does, and when the cursor is read while it is null. -/

/-! Frees that find nothing to free. -/

theorem returnBlock_of_top {map : BpaMap} {order : Nat} (offset : Nat)
    (horder : maxOrder ≤ order) :
    returnBlock map order offset = releaseBlock map order offset := by
  have hmerge : ∀ other, blockMerge other order offset = other := by
    intro other
    rw [blockMerge, if_pos (by omega)]
  unfold returnBlock
  simp only [hmerge, ite_self]

/-- `pages_free` never leaves a region as it was: it takes the lock and returns,
or it counts the block in. -/
theorem pagesFree_changes (region : Region) (phaddr order : Nat) :
    ¬ Returns (pagesFree region phaddr order) fun after => after = region := by
  cases hlock : region.lock with
  | true => simp [pagesFree, spinlockLock, hlock, Returns]
  | false =>
      by_cases hset : region.Contains phaddr ∧
          region.map.freeArea order (region.offsetOf phaddr) = true
      · rw [pagesFree_of_set hlock hset.1 hset.2]
        intro hsame
        by_cases horder : order < maxOrder
        · have hcount := congrArg Region.pagesFree hsame
          have hpow : 2 ^ order ≤ 2 ^ (maxOrder - 1) :=
            Nat.pow_le_pow_right (by decide) (by omega)
          have hpos := Nat.two_pow_pos order
          simp only [Region.afterFree, wordAdd, word, wordSize, maxOrder]
            at hcount hpow
          omega
        · have hmap := congrArg Region.map hsame
          simp only [Region.afterFree,
            returnBlock_of_top _ (Nat.le_of_not_lt horder)] at hmap
          have hbit := releaseBlock_freeArea region.map order
            (region.offsetOf phaddr)
          rw [hmap] at hbit
          have hclear := congrFun (congrFun hbit order)
            (region.offsetOf phaddr)
          rw [hset.2, writeBlock_freeArea_self, Function.update_self] at hclear
          cases hclear
      · rw [pagesFree_of_not_set hlock hset]
        intro hsame
        have := congrArg Region.lock hsame
        rw [hlock] at this
        cases this

theorem findRegion_lt {regions : List Region} {paddress index : Nat}
    (h : findRegion regions paddress = some index) : index < regions.length := by
  obtain ⟨-, ⟨region, hregion, -⟩, -⟩ := firstRegion?_eq_some h
  exact (List.getElem?_eq_some_iff.mp hregion).1

/-- A free changes nothing if and only if the address lies in no region; within
a region there is no such address. -/
theorem free_unchanged_iff (region : Region) (system : PageSystem)
    (pages order : Nat) :
    ¬ Returns (pagesFree region pages order) (fun after => after = region) ∧
    (Returns (freePages system order pages) (fun after => after = system) ↔
      findRegion system.regions pages = none) := by
  refine ⟨pagesFree_changes region pages order, ?_⟩
  constructor
  · intro hsame
    cases hfind : findRegion system.regions pages with
    | none => rfl
    | some index =>
        exfalso
        have hlt := findRegion_lt hfind
        simp only [freePages, hfind, List.getElem?_eq_getElem hlt] at hsame
        have hchanges := pagesFree_changes system.regions[index] pages order
        cases hfree : pagesFree system.regions[index] pages order with
        | error fault =>
            rw [hfree] at hsame
            exact hsame
        | ok after =>
            rw [hfree] at hsame hchanges
            simp only at hsame
            split at hsame
            · exact hsame
            · split at hsame
              · exact hsame
              · have hregions := congrArg PageSystem.regions hsame
                simp only [PageSystem.setRegion] at hregions
                apply hchanges
                have hindex := congrArg (·[index]?) hregions
                simp only [List.getElem?_set_self hlt,
                  List.getElem?_eq_getElem hlt, Option.some.injEq] at hindex
                exact hindex
  · intro hnone
    simp only [freePages, hnone]
    rfl

/-- A page that was never handed out lies in a free block of order one, and
freeing it counts it in once more. -/
theorem pagesFree_counts_free_page :
    Returns (regionMap pairRegion 2) fun fresh =>
      ¬ Returns (pagesFree fresh 0x201000 0) fun after => after = fresh := by
  have hcounts : Returns (regionMap pairRegion 2) fun fresh =>
      fresh.pagesFree = 2 ∧
        Returns (pagesFree fresh 0x201000 0) fun after =>
          after.pagesFree = 3 := by
    decide +kernel
  obtain ⟨fresh, hfresh, htwo, hfree⟩ := returns_iff.mp hcounts
  obtain ⟨after, hafter, hthree⟩ := returns_iff.mp hfree
  refine returns_iff.mpr ⟨fresh, hfresh, ?_⟩
  rw [hafter]
  intro hsame
  rw [show after = fresh from hsame, htwo] at hthree
  cases hthree

/-! Runs of calls.  The session remembers which blocks have been handed out and
not freed since. -/

structure SystemSession (System : Type := PageSystem) where
  system : System
  live : List Grant

inductive SystemCall
  | allocPage
  | allocPages (order : Nat)
  | freePage (page : Nat)
  | freePages (grant : Grant)
  deriving DecidableEq, Repr

def SystemSession.lend {System : Type} (system : System) (live : List Grant)
    (address order : Nat) : SystemSession System :=
  ⟨system, if address = 0 then live else ⟨address, order⟩ :: live⟩

def systemMachine : Machine Fault SystemSession SystemCall where
  step session
    | .allocPage =>
        match allocPage session.system with
        | .error fault => .error fault
        | .ok (address, system) =>
            .ok (SystemSession.lend system session.live address 0)
    | .allocPages order =>
        match allocPages session.system order with
        | .error fault => .error fault
        | .ok (address, system) =>
            .ok (SystemSession.lend system session.live address order)
    | .freePage page =>
        match freePage session.system page with
        | .error fault => .error fault
        | .ok system => .ok ⟨system, session.live.erase ⟨page, 0⟩⟩
    | .freePages grant =>
        match freePages session.system grant.order grant.address with
        | .error fault => .error fault
        | .ok system => .ok ⟨system, session.live.erase grant⟩

/-- A free names exactly a live block. -/
def SystemCall.Legal {System : Type} (session : SystemSession System) :
    SystemCall → Prop
  | .allocPage => True
  | .allocPages _ => True
  | .freePage page => ⟨page, 0⟩ ∈ session.live
  | .freePages grant => grant ∈ session.live

instance {System : Type} (session : SystemSession System) :
    DecidablePred (SystemCall.Legal session)
  | .allocPage => inferInstanceAs (Decidable True)
  | .allocPages _ => inferInstanceAs (Decidable True)
  | .freePage page => inferInstanceAs (Decidable (⟨page, 0⟩ ∈ session.live))
  | .freePages grant => inferInstanceAs (Decidable (grant ∈ session.live))

/-! The cursor is null only while memory is marked exhausted, and the
allocations look at that mark first. -/

structure PageSystem.Anchored (system : PageSystem) : Prop where
  exhausted : system.nextRegion = none → system.outOfMem = true
  inside : ∀ next, system.nextRegion = some next →
    next < system.regions.length

/-- The call does not free a block while the cursor is null. -/
def SystemCall.CursorSet (session : SystemSession) : SystemCall → Prop
  | .allocPage => True
  | .allocPages _ => True
  | .freePage _ => session.system.nextRegion ≠ none
  | .freePages _ => session.system.nextRegion ≠ none

instance (session : SystemSession) :
    DecidablePred (SystemCall.CursorSet session)
  | .allocPage => inferInstanceAs (Decidable True)
  | .allocPages _ => inferInstanceAs (Decidable True)
  | .freePage _ => inferInstanceAs (Decidable (_ ≠ none))
  | .freePages _ => inferInstanceAs (Decidable (_ ≠ none))

/-- The call neither reads through a null cursor nor leaves one behind an unset
mark. -/
structure Anchors {Reply : Type} (call : Except Fault Reply)
    (state : Reply → PageSystem) : Prop where
  not_null : call ≠ .error .nullDereference
  anchored : ∀ reply, call = .ok reply → (state reply).Anchored

section

variable {system : PageSystem}

theorem PageSystem.Anchored.setRegion (hsystem : system.Anchored)
    (index : Nat) (region : Region) :
    (system.setRegion index region).Anchored := by
  refine ⟨hsystem.exhausted, fun next hnext => ?_⟩
  simp only [PageSystem.setRegion, List.length_set]
  exact hsystem.inside next hnext

theorem pagesAlloc_ne_null (region : Region) (order : Nat) :
    pagesAlloc region order ≠ .error .nullDereference := by
  unfold pagesAlloc spinlockLock
  split
  · simp
  · cases region.lock with
    | true => simp
    | false =>
        simp only [Bool.false_eq_true, if_false]
        split_ifs <;> simp

theorem pagesFree_ne_null (region : Region) (phaddr order : Nat) :
    pagesFree region phaddr order ≠ .error .nullDereference := by
  unfold pagesFree spinlockLock
  cases region.lock with
  | true => simp
  | false =>
      simp only [Bool.false_eq_true, if_false]
      split_ifs <;> simp

theorem Anchors.ok {Reply : Type} {state : Reply → PageSystem} {reply : Reply}
    (hreply : (state reply).Anchored) : Anchors (.ok reply) state := by
  refine ⟨by simp, ?_⟩
  intro other hother
  cases hother
  exact hreply

theorem Anchors.error {Reply : Type} {state : Reply → PageSystem}
    {fault : Fault} (hfault : fault ≠ .nullDereference) :
    Anchors (.error fault) state := by
  refine ⟨by simpa using hfault, ?_⟩
  intro other hother
  cases hother

theorem allocPage_anchors (hsystem : system.Anchored) :
    Anchors (allocPage system) Prod.snd := by
  have halloc := fun region => pagesAlloc_ne_null region 0
  unfold allocPage
  split
  · exact .ok hsystem
  · rename_i hmem
    cases hnext : system.nextRegion with
    | none => exact (hmem (hsystem.exhausted hnext)).elim
    | some next =>
        simp only [List.getElem?_eq_getElem (hsystem.inside next hnext)]
        split
        · cases hfind : findFreeRegion system.regions (next + 1) with
          | none =>
              refine .ok ⟨fun _ => rfl, ?_⟩
              intro other hother
              cases hother
          | some found =>
              have hlt := (findFreeRegion_lt hfind).2
              simp only [List.getElem?_eq_getElem hlt, pageAlloc]
              cases hcall : pagesAlloc system.regions[found] 0 with
              | error fault =>
                  exact .error fun hnull => halloc _ (hnull ▸ hcall)
              | ok reply =>
                  refine .ok ⟨?_, ?_⟩
                  · intro hnone
                    cases hnone
                  · intro other hother
                    cases hother
                    simpa using hlt
        · have hinside := hsystem.inside next hnext
          simp only [pageAlloc]
          cases hcall : pagesAlloc system.regions[next] 0 with
          | error fault => exact .error fun hnull => halloc _ (hnull ▸ hcall)
          | ok reply => exact .ok (hsystem.setRegion next reply.2)

theorem allocPagesFrom_anchors (hsystem : system.Anchored) {order areg : Nat}
    (hareg : areg < system.regions.length) :
    Anchors (allocPagesFrom system order areg) Prod.snd := by
  fun_induction allocPagesFrom system order areg with
  | case1 system areg hnone =>
      rw [List.getElem?_eq_getElem hareg] at hnone
      cases hnone
  | case2 system areg region hregion fault hcall =>
      exact .error fun hnull => pagesAlloc_ne_null _ _ (hnull ▸ hcall)
  | case3 system areg region hregion after hcall hnext =>
      exact .ok (hsystem.setRegion areg after)
  | case4 system areg region hregion after next hnext hcall ih =>
      exact ih (hsystem.setRegion areg after) (findFreeRegion_lt hnext).2
  | case5 system areg region hregion address after hcall hne =>
      exact .ok (hsystem.setRegion areg after)

theorem allocPages_anchors (hsystem : system.Anchored) (order : Nat) :
    Anchors (allocPages system order) Prod.snd := by
  unfold allocPages
  split
  · exact .ok hsystem
  · rename_i hmem
    cases hnext : system.nextRegion with
    | none => exact (hmem (hsystem.exhausted hnext)).elim
    | some next =>
        exact allocPagesFrom_anchors hsystem (hsystem.inside next hnext)

theorem freePages_anchors (hsystem : system.Anchored)
    (hcursor : system.nextRegion ≠ none) (order pages : Nat) :
    Anchors (freePages system order pages) id := by
  unfold freePages
  cases hfind : findRegion system.regions pages with
  | none => exact .ok hsystem
  | some index =>
      have hlt := findRegion_lt hfind
      simp only [List.getElem?_eq_getElem hlt]
      cases hcall : pagesFree system.regions[index] pages order with
      | error fault =>
          exact .error fun hnull => pagesFree_ne_null _ _ _ (hnull ▸ hcall)
      | ok after =>
          cases hnext : system.nextRegion with
          | none => exact (hcursor hnext).elim
          | some next =>
              have hinside := hsystem.inside next hnext
              have hset : next <
                  (system.setRegion index after).regions.length := by
                simpa [PageSystem.setRegion] using hinside
              simp only [PageSystem.setRegion, hnext] at hset ⊢
              simp only [List.getElem?_eq_getElem hset]
              refine .ok ⟨fun hnone => ?_, ?_⟩
              · simp only [id] at hnone
                split at hnone <;> cases hnone
              · intro other hother
                simp only [id] at hother
                simp only [id, List.length_set]
                split at hother
                · cases hother
                  exact hlt
                · cases hother
                  exact hinside

/-- Setting up the chain ends with the search for the first free region. -/
theorem ppageInit_cursor {vpagesMap : PageSystem → (paddress order : Nat) →
      Except Fault PageSystem} {mbp : Nat} {heap : Bool} {regions : List Region}
    (hinit : ppageInit vpagesMap mbp heap regions = .ok system) :
    system.nextRegion = findFreeRegion system.regions 0 ∧
      (system.nextRegion = none → system.outOfMem = true) := by
  unfold ppageInit at hinit
  cases hchosen : findAllocRegion regions 0 with
  | none =>
      rw [hchosen] at hinit
      cases hinit
  | some chosen =>
      cases hregion : regions[chosen]? with
      | none =>
          simp only [hchosen, hregion] at hinit
          cases hinit
      | some region =>
          cases heap with
          | false =>
              simp only [hchosen, hregion, Bool.false_eq_true, if_false] at hinit
              cases hinit
          | true =>
              simp only [hchosen, hregion, if_true] at hinit
              cases hfirst : setUpRegion mbp ⟨regions, some chosen, false⟩
                  chosen (region.size / pageSize) with
              | error fault =>
                  rw [hfirst] at hinit
                  cases hinit
              | ok first =>
                  rw [hfirst] at hinit
                  change (List.foldlM (initRegion vpagesMap mbp chosen) first
                    (List.range regions.length) >>= fun _ => _) = _ at hinit
                  cases hrest : List.foldlM (initRegion vpagesMap mbp chosen)
                      first (List.range regions.length) with
                  | error fault =>
                      rw [hrest] at hinit
                      cases hinit
                  | ok middle =>
                      rw [hrest] at hinit
                      cases hinit
                      refine ⟨rfl, ?_⟩
                      intro hnone
                      simp only at hnone
                      simp [hnone]

/-- Setting up the chain leaves the cursor on a region, or null with memory
marked exhausted. -/
theorem ppageInit_anchored {vpagesMap : PageSystem → (paddress order : Nat) →
      Except Fault PageSystem} {mbp : Nat} {heap : Bool} {regions : List Region}
    (hinit : ppageInit vpagesMap mbp heap regions = .ok system) :
    system.Anchored := by
  obtain ⟨hcursor, hexhausted⟩ := ppageInit_cursor hinit
  refine ⟨hexhausted, ?_⟩
  intro next hnext
  rw [hcursor] at hnext
  exact (findFreeRegion_lt hnext).2

theorem systemMachine_anchors {session : SystemSession} {call : SystemCall}
    (hsystem : session.system.Anchored) (hcursor : call.CursorSet session) :
    Anchors (systemMachine.step session call) SystemSession.system := by
  cases call with
  | allocPage =>
      have h := allocPage_anchors hsystem
      simp only [systemMachine]
      cases hcall : allocPage session.system with
      | error fault => exact .error fun hnull => h.not_null (hnull ▸ hcall)
      | ok reply => exact .ok (h.anchored reply hcall)
  | allocPages order =>
      have h := allocPages_anchors hsystem order
      simp only [systemMachine]
      cases hcall : allocPages session.system order with
      | error fault => exact .error fun hnull => h.not_null (hnull ▸ hcall)
      | ok reply => exact .ok (h.anchored reply hcall)
  | freePage page =>
      have h := freePages_anchors hsystem hcursor 0 page
      simp only [systemMachine, freePage]
      cases hcall : freePages session.system 0 page with
      | error fault => exact .error fun hnull => h.not_null (hnull ▸ hcall)
      | ok reply => exact .ok (h.anchored reply hcall)
  | freePages grant =>
      have h := freePages_anchors hsystem hcursor grant.order grant.address
      simp only [systemMachine]
      cases hcall : freePages session.system grant.order grant.address with
      | error fault => exact .error fun hnull => h.not_null (hnull ▸ hcall)
      | ok reply => exact .ok (h.anchored reply hcall)

end

/-- A run that frees nothing while the cursor is null never reads through a null
cursor. -/
theorem run_never_null {vpagesMap : PageSystem → (paddress order : Nat) →
      Except Fault PageSystem} {mbp : Nat} {heap : Bool} {regions : List Region}
    {system : PageSystem} {calls : List SystemCall}
    (hinit : ppageInit vpagesMap mbp heap regions = .ok system)
    (hguard : systemMachine.Guarded
      (fun session call => call.CursorSet session) ⟨system, []⟩ calls) :
    systemMachine.run ⟨system, []⟩ calls ≠ .error .nullDereference := by
  refine @Machine.run_ne_error _ _ _ systemMachine _
    (fun session => session.system.Anchored) _ ?_ _ _
    (ppageInit_anchored hinit) hguard
  intro session call hsystem hcursor
  have hanchors := systemMachine_anchors hsystem hcursor
  exact ⟨hanchors.not_null, hanchors.anchored⟩

def usablePair : Region := { pairRegion with attrib := usableFlags }

theorem run_never_null_pair :
    Returns (ppageInit (fun system _ _ => .ok system) 0x10000 true [usablePair])
      fun system =>
        systemMachine.run ⟨system, []⟩
          [.allocPage, .allocPage, .freePage 0x200000, .allocPage, .allocPage] ≠
            .error .nullDereference := by
  have hready : Returns
      (ppageInit (fun system _ _ => .ok system) 0x10000 true [usablePair])
      fun system => systemMachine.Guarded
        (fun session call => call.CursorSet session) ⟨system, []⟩
        [.allocPage, .allocPage, .freePage 0x200000, .allocPage, .allocPage] := by
    decide +kernel
  obtain ⟨system, hinit, hguard⟩ := returns_iff.mp hready
  exact returns_iff.mpr ⟨system, hinit, run_never_null hinit hguard⟩

/-- Once an allocation has found every region full, the next free compares with
a region that is not there. -/
theorem run_reads_null :
    Returns (ppageInit (fun system _ _ => .ok system) 0x10000 true [usablePair])
      fun system =>
        systemMachine.Guarded (fun session call => call.Legal session)
            ⟨system, []⟩
            [.allocPage, .allocPage, .allocPage, .freePage 0x200000] ∧
          systemMachine.run ⟨system, []⟩
            [.allocPage, .allocPage, .allocPage, .freePage 0x200000] =
              .error .nullDereference := by
  have hfails : Returns
      (ppageInit (fun system _ _ => .ok system) 0x10000 true [usablePair])
      fun system =>
        systemMachine.Guarded (fun session call => call.Legal session)
            ⟨system, []⟩
            [.allocPage, .allocPage, .allocPage, .freePage 0x200000] ∧
          Fails (systemMachine.run ⟨system, []⟩
            [.allocPage, .allocPage, .allocPage, .freePage 0x200000])
              .nullDereference := by
    decide +kernel
  obtain ⟨system, hinit, hguard, hrun⟩ := returns_iff.mp hfails
  exact returns_iff.mpr ⟨system, hinit, hguard, fails_iff.mp hrun⟩

end Synos.Page

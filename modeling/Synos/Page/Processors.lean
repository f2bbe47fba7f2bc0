import Synos.Data.Lock
import Synos.Page.CallRun
import Synos.Page.Reserve

namespace Synos.Page

open Synos.Data

/-! Processors that call the allocator of one region at the same time.  Between
`spinlock_lock` and `spinlock_unlock` a call makes its accesses one by one, and
the other processors go on in between. -/

/-- The calls that take the lock.  `pages_alloc` returns before it when the order
is out of range. -/
inductive RegionCall
  | alloc (order : Nat) (horder : order < maxOrder)
  | free (grant : Grant)
  | reserve (order offset : Nat)

def RegionCall.serve (region : Region) :
    RegionCall → Except Fault (Nat × Region)
  | .alloc order _ => pagesAlloc region order
  | .free grant =>
      match pagesFree region grant.address grant.order with
      | .error fault => .error fault
      | .ok region => .ok (0, region)
  | .reserve order offset => pagesReserve region order offset

structure RegionRun (Map : Type := BpaMap) where
  region : Region Map
  returned : List Nat

section

variable {Map : Type}
  (serve : Region Map → RegionCall → Except Fault (Nat × Region Map))

def servingMachine : Machine Fault (RegionRun Map) RegionCall where
  step run call :=
    match serve run.region call with
    | .error fault => .error fault
    | .ok (address, region) => .ok ⟨region, address :: run.returned⟩

/-- The answer of a call and the region it leaves, with the lock as it is then. -/
def answer (outcome : Outcome (Region Map) Nat) : Nat × Region Map :=
  (outcome.result, { outcome.state with lock := !outcome.releases })

/-- The accesses between taking and releasing the lock add up to the call. -/
def SplitsAs (body : RegionCall → Section (Region Map) Nat) : Prop :=
  ∀ (call : RegionCall) (region : Region Map),
    serve (spinlockUnlock region) call = .ok (answer ((body call).exec region))

/-- The region of a system of processors; its lock is that of the system. -/
def sharedRegion {Agent : Type}
    (system : Shared Agent (Region Map) Nat RegionCall) : Region Map :=
  { system.state with lock := system.locked }

end

def regionMachine : Machine Fault RegionRun RegionCall :=
  servingMachine RegionCall.serve

def Splits (body : RegionCall → Section Region Nat) : Prop :=
  SplitsAs RegionCall.serve body

/-- The call ends with `spinlock_unlock`: only a free of an address outside the
region or of a block that is marked free returns before. -/
def RegionCall.Releases (region : Region) : RegionCall → Prop
  | .alloc _ _ => True
  | .free grant =>
      region.Contains grant.address ∧
        region.map.freeArea grant.order (region.offsetOf grant.address) = true
  | .reserve _ _ => True

/-! The statements of the source as accesses. -/

/-- From the label `check_ord` on, when the order has a free block. -/
def takeSection (order : Nat) : Section Region Nat :=
  .access (fun region =>
      { region with map :=
          region.map.blockSet order (region.map.nextFreePage order) })
    fun before =>
      .access (fun region =>
          { region with map := dropNextFreePage region.map order })
        fun _ =>
          .access (fun region =>
              if region.pagesFree ≤ 2 ^ order then outOfMem region else region)
            fun _ =>
              .access (fun region =>
                  { region with
                    pagesFree := wordSub region.pagesFree (2 ^ order) })
                fun _ =>
                  .leave (word (blockOrderSize order *
                    before.map.nextFreePage order + before.start)) true

def failSection : Section Region Nat :=
  .access outOfMem fun _ => .leave 0 true

def allocSection (order : Nat) : Section Region Nat :=
  .access id fun region =>
    if 0 < region.map.pagesFree order then takeSection order
    else if order = maxOrder - 1 then failSection
    else
      .access (fun region => blockSplit region (order + 1)) fun _ =>
        .access id fun region =>
          if region.map.pagesFree order = 0 then failSection
          else takeSection order

def freeSection (grant : Grant) : Section Region Nat :=
  .access id fun region =>
    if grant.address < region.start ∨
        wordAdd region.start region.size ≤ grant.address then
      .leave 0 false
    else if region.map.blockCheck grant.order
        ((grant.address - region.start) / pageSize) then
      .access (fun region =>
          if region.pagesFree = 0 then outOfMem region else region)
        fun _ =>
          .access (fun region =>
              { region with
                pagesFree := wordAdd region.pagesFree (2 ^ grant.order) })
            fun _ =>
              .access (fun region =>
                  { region with
                    map := returnBlock region.map grant.order
                      ((grant.address - region.start) / pageSize) })
                fun _ => .leave 0 true
    else .leave 0 false

def reserveSection (order offset : Nat) : Section Region Nat :=
  .access id fun region =>
    if region.map.blockCheck order offset = false then
      .access (fun region => region.afterReserve order
          (reserveBlock region.map order offset))
        fun region =>
          .leave (word (blockOrderSize order * offset + region.start)) true
    else
      .access (fun region =>
          let split := findSplitOrder region.map order (order + 1)
            (offset / 2 * 2)
          { region with map := splitDown region.map order split.1 split.2 })
        fun _ =>
          .access (fun region =>
              region.afterReserve order
                (if region.map.blockCheck order offset = false then
                  reserveBlock region.map order offset
                else region.map))
            fun region =>
              .leave (word (blockOrderSize order * offset + region.start)) true

def statements : RegionCall → Section Region Nat
  | .alloc order _ => allocSection order
  | .free grant => freeSection grant
  | .reserve order offset => reserveSection order offset

theorem spinlockLock_unlock (region : Region) :
    spinlockLock (spinlockUnlock region) = .ok { region with lock := true } :=
  rfl

theorem takeSection_answer (region : Region) (order : Nat) :
    allocNextFree { region with lock := true } order =
      answer ((takeSection order).exec region) := by
  simp only [takeSection, Section.exec, allocNextFree, outOfMem, spinlockUnlock]
  split <;> rfl

theorem blockSplit_lock (region : Region) (order : Nat) (lock : Bool) :
    blockSplit { region with lock := lock } order =
      { blockSplit region order with lock := lock } := by
  fun_induction blockSplit region order with
  | case1 order hrange => rw [blockSplit, if_pos hrange]
  | case2 order hrange hpos =>
      rw [blockSplit, if_neg hrange, if_pos hpos]
  | case3 hrange hpos =>
      rw [blockSplit, if_neg hrange, if_neg hpos, if_pos rfl]
      rfl
  | case4 order hrange hpos htop split hempty ih =>
      rw [blockSplit, if_neg hrange, if_neg hpos, if_neg htop]
      simp only [ih]
      rw [if_pos hempty]
      rfl
  | case5 order hrange hpos htop split hempty ih =>
      rw [blockSplit, if_neg hrange, if_neg hpos, if_neg htop]
      simp only [ih]
      rw [if_neg hempty]

theorem allocSection_answer (region : Region) {order : Nat}
    (horder : order < maxOrder) :
    pagesAlloc (spinlockUnlock region) order =
      .ok (answer ((allocSection order).exec region)) := by
  rw [pagesAlloc, if_neg (Nat.not_le_of_lt horder), spinlockLock_unlock]
  simp only [allocSection, Section.exec, id]
  by_cases hfree : 0 < region.map.pagesFree order
  · rw [if_pos hfree, if_pos hfree, takeSection_answer]
  · rw [if_neg hfree, if_neg hfree]
    by_cases htop : order = maxOrder - 1
    · rw [if_pos htop, if_pos htop]
      rfl
    · rw [if_neg htop, if_neg htop]
      simp only [Section.exec, blockSplit_lock, id]
      by_cases hempty :
          (blockSplit region (order + 1)).map.pagesFree order = 0
      · rw [if_pos hempty, if_pos hempty]
        rfl
      · rw [if_neg hempty, if_neg hempty, takeSection_answer]

theorem freeSection_answer (region : Region) (grant : Grant) :
    RegionCall.serve (spinlockUnlock region) (.free grant) =
      .ok (answer ((freeSection grant).exec region)) := by
  rw [RegionCall.serve, pagesFree, spinlockLock_unlock]
  simp only [freeSection, Section.exec, id]
  by_cases houtside : grant.address < region.start ∨
      wordAdd region.start region.size ≤ grant.address
  · rw [if_pos houtside, if_pos houtside]
    rfl
  · rw [if_neg houtside, if_neg houtside]
    by_cases hset : region.map.blockCheck grant.order
        ((grant.address - region.start) / pageSize)
    · rw [if_pos hset, if_pos hset]
      simp only [Section.exec, answer, spinlockUnlock, outOfMem]
      split <;> rfl
    · rw [if_neg hset, if_neg hset]
      rfl

theorem reserveSection_answer (region : Region) (order offset : Nat) :
    pagesReserve (spinlockUnlock region) order offset =
      .ok (answer ((reserveSection order offset).exec region)) := by
  rw [pagesReserve, spinlockLock_unlock]
  simp only [reserveSection, Section.exec, id]
  by_cases hfree : region.map.blockCheck order offset = false
  · rw [if_pos hfree, if_pos hfree]
    rfl
  · rw [if_neg hfree, if_neg hfree]
    rfl

theorem statements_splits : Splits statements
  | .alloc _ horder, region => allocSection_answer region horder
  | .free grant, region => freeSection_answer region grant
  | .reserve order offset, region => reserveSection_answer region order offset

/-! The calls of a system of processors, one after the other. -/

section

variable {Map : Type}
  {serve : Region Map → RegionCall → Except Fault (Nat × Region Map)}
  {body : RegionCall → Section (Region Map) Nat} {region : Region Map}

theorem SplitsAs.step (hsplits : SplitsAs serve body) (call : RegionCall)
    (region : Region Map) (returned : List Nat) :
    (servingMachine serve).step ⟨spinlockUnlock region, returned⟩ call =
      .ok ⟨(answer ((body call).exec region)).2,
        ((body call).exec region).result :: returned⟩ := by
  simp only [servingMachine, hsplits call region]
  rfl

theorem spinlockUnlock_of_unlocked (hlock : region.lock = false) :
    spinlockUnlock region = region := by
  cases region
  cases hlock
  rfl

theorem SplitsAs.run_serial (hsplits : SplitsAs serve body)
    (hlock : region.lock = false) {past : List RegionCall}
    (hrelease : AllRelease body region past) :
    (servingMachine serve).run ⟨region, []⟩ past.reverse =
      .ok ⟨spinlockUnlock (serial body region past).1,
        (serial body region past).2⟩ := by
  induction past with
  | nil =>
      rw [serial, spinlockUnlock_of_unlocked hlock]
      rfl
  | cons call past ih =>
      obtain ⟨hreleases, hpast⟩ := hrelease
      rw [List.reverse_cons]
      refine Machine.run_append_ok.mpr ⟨_, ih hpast, ?_⟩
      refine Machine.run_cons_ok.mpr ⟨_, hsplits.step call _ _, ?_⟩
      simp only [Machine.run_nil, answer, hreleases]
      rfl

theorem SplitsAs.allRelease (hsplits : SplitsAs serve body)
    (hlock : region.lock = false) {past : List RegionCall}
    (hguard : (servingMachine serve).Guarded
      (fun run call => Returns (serve run.region call) fun reply =>
        reply.2.lock = false) ⟨region, []⟩ past.reverse) :
    AllRelease body region past := by
  induction past with
  | nil => trivial
  | cons call past ih =>
      rw [List.reverse_cons, Machine.guarded_append] at hguard
      obtain ⟨hpast, hlast⟩ := hguard
      have hrelease := ih hpast
      obtain ⟨reply, hreply, hunlocked⟩ :=
        returns_iff.mp (hlast _ (hsplits.run_serial hlock hrelease)).1
      refine ⟨?_, hrelease⟩
      rw [hsplits call] at hreply
      cases hreply
      simpa [answer] using hunlocked

variable {Agent : Type} {system : Shared Agent (Region Map) Nat RegionCall}

/-- When no processor is inside a call, the calls so far were a run of the model
in the order in which they took the lock, and returned what they return there. -/
theorem SplitsAs.run_quiet (hsplits : SplitsAs serve body)
    (hlock : region.lock = false) (hstatus : system.Status body region)
    (hquiet : ∀ agent, system.Outside agent) :
    (servingMachine serve).run ⟨region, []⟩ system.taken.reverse =
      .ok ⟨sharedRegion system, system.returned⟩ := by
  cases hstatus with
  | free hunlocked _ hserial hrelease =>
      rw [hsplits.run_serial hlock hrelease, hserial, sharedRegion, hunlocked]
      rfl
  | held agent call rest past _ hinside =>
      exact (not_outside hinside (hquiet agent)).elim
  | leaked call past hlocked _ hserial htaken hrelease hkeeps =>
      rw [htaken, serial, Prod.mk.injEq] at hserial
      rw [htaken, List.reverse_cons]
      refine Machine.run_append_ok.mpr
        ⟨_, hsplits.run_serial hlock hrelease, ?_⟩
      refine Machine.run_cons_ok.mpr ⟨_, hsplits.step call _ _, ?_⟩
      rw [Machine.run_nil, answer, hkeeps, sharedRegion, hlocked, ← hserial.1,
        ← hserial.2]
      rfl

end

section

variable {body : RegionCall → Section Region Nat} {region : Region}

theorem releases_of_answer {outcome other : Outcome Region Nat}
    (hanswer : answer outcome = answer other) :
    outcome.releases = other.releases := by
  have hlock := congrArg (fun reply => reply.2.lock) hanswer
  simpa [answer] using hlock

theorem allocSection_releases (region : Region) (order : Nat) :
    ((allocSection order).exec region).releases = true := by
  simp only [allocSection, Section.exec]
  split
  · rfl
  · split
    · rfl
    · simp only [Section.exec]
      split <;> rfl

theorem freeSection_releases_iff (region : Region) (grant : Grant) :
    ((freeSection grant).exec region).releases = true ↔
      RegionCall.Releases region (.free grant) := by
  simp only [freeSection, Section.exec, id, RegionCall.Releases,
    Region.Contains, Region.offsetOf]
  split
  next houtside =>
    constructor
    · intro h
      cases h
    · intro h
      omega
  next hinside =>
    split
    next hset => exact ⟨fun _ => ⟨by omega, hset⟩, fun _ => rfl⟩
    next hclear =>
      constructor
      · intro h
        cases h
      · intro h
        exact (hclear h.2).elim

theorem reserveSection_releases (region : Region) (order offset : Nat) :
    ((reserveSection order offset).exec region).releases = true := by
  simp only [reserveSection, Section.exec]
  split <;> rfl

theorem Splits.releases_iff (hsplits : Splits body) (call : RegionCall)
    (region : Region) :
    ((body call).exec region).releases = true ↔ call.Releases region := by
  have hanswer := (hsplits call region).symm.trans
    (statements_splits call region)
  rw [releases_of_answer (Except.ok.inj hanswer)]
  cases call with
  | alloc order horder =>
      exact iff_of_true (allocSection_releases region order) trivial
  | free grant => exact freeSection_releases_iff region grant
  | reserve order offset =>
      exact iff_of_true (reserveSection_releases region order offset) trivial

theorem Splits.allRelease_iff (hsplits : Splits body)
    (hlock : region.lock = false) {past : List RegionCall} :
    AllRelease body region past ↔
      regionMachine.Guarded (fun run call => call.Releases run.region)
        ⟨region, []⟩ past.reverse := by
  induction past with
  | nil => exact iff_of_true trivial trivial
  | cons call past ih =>
      rw [List.reverse_cons, Machine.guarded_append, ← ih, AllRelease]
      constructor
      · rintro ⟨hreleases, hpast⟩
        refine ⟨hpast, ?_⟩
        intro middle hmiddle
        have hserial := hmiddle.symm.trans
          (SplitsAs.run_serial hsplits hlock hpast)
        cases hserial
        have hcall := (hsplits.releases_iff call _).mp hreleases
        exact ⟨hcall, fun _ _ => trivial⟩
      · rintro ⟨hpast, hmiddle⟩
        have hcall := (hmiddle _ (SplitsAs.run_serial hsplits hlock hpast)).1
        exact ⟨(hsplits.releases_iff call _).mpr hcall, hpast⟩

end

variable {Agent : Type} [DecidableEq Agent]
  {body : RegionCall → Section Region Nat} {region : Region}
  {moves : List (Move Agent RegionCall)}
  {system : Shared Agent Region Nat RegionCall}

/-- Whatever the interleaving, at most one processor is between `spinlock_lock`
and `spinlock_unlock`, and the calls add up to the calls one after the other, in
the order in which they took the lock. -/
theorem run_serializable (hsplits : Splits body) (hlock : region.lock = false)
    (hrun : (lockMachine body).run (.start region) moves = .ok system) :
    (∀ first second, system.Inside first → system.Inside second →
        first = second) ∧
      (∀ agent, system.Inside agent → system.locked = true) ∧
      ((∀ agent, ¬system.Inside agent) →
        regionMachine.run ⟨region, []⟩ system.taken.reverse =
          .ok ⟨sharedRegion system, system.returned⟩) := by
  have hstatus := run_status Shared.Status.start hrun
  refine ⟨fun _ _ => hstatus.exclusive, fun _ => hstatus.locked_of_inside, ?_⟩
  intro hquiet
  exact SplitsAs.run_quiet hsplits hlock hstatus fun agent =>
    outside_of_not_inside (hquiet agent)

/-- A processor that waits for the lock can still have its call done if and only
if no free so far named an address outside the region or a block that is marked
free. -/
theorem run_served_iff (hsplits : Splits body) (hlock : region.lock = false)
    (hrun : (lockMachine body).run (.start region) moves = .ok system)
    {agent : Agent} {call : RegionCall}
    (hspinning : system.phase agent = .spinning call) :
    (∃ later next, (lockMachine body).run system later = .ok next ∧
        next.phase agent = .idle) ↔
      regionMachine.Guarded (fun run call => call.Releases run.region)
        ⟨region, []⟩ system.taken.reverse := by
  have hstatus := run_status Shared.Status.start hrun
  rw [hstatus.served_iff hspinning, hsplits.allRelease_iff hlock]

def splitPair : Region where
  start := 0x200000
  size := 0x2000
  attrib := 0
  pagesTotal := 2
  pagesFree := 2
  memFull := false
  lock := false
  map :=
    { pages := 2
      freeArea := fun order offset => !(order == 0 && offset < 2)
      pagesFree := fun order => if order = 0 then 2 else 0
      nextFreePage := fun _ => 0 }

def onePage : RegionCall := .alloc 0 (by decide)

/-- The second processor tries in vain while the first one is inside. -/
def alternatingMoves : List (Move Bool RegionCall) :=
  [.request true onePage, .request false onePage, .advance true,
    .advance false, .advance true, .advance true, .advance false,
    .advance true, .advance true, .advance true, .advance true,
    .advance false, .advance false, .advance false, .advance false,
    .advance false, .advance false, .advance false]

theorem run_serializable_alternating :
    ∃ system, (lockMachine statements).run (.start splitPair)
        alternatingMoves = .ok system ∧
      system.returned = [0x201000, 0x200000] ∧
      regionMachine.run ⟨splitPair, []⟩ system.taken.reverse =
        .ok ⟨sharedRegion system, system.returned⟩ := by
  have hrun : Returns ((lockMachine statements).run (.start splitPair)
      alternatingMoves) fun system =>
        system.returned = [0x201000, 0x200000] ∧
          ∀ agent, ¬system.Inside agent := by
    decide +kernel
  obtain ⟨system, hsystem, hreturned, hquiet⟩ := returns_iff.mp hrun
  exact ⟨system, hsystem, hreturned,
    (run_serializable statements_splits rfl hsystem).2.2 hquiet⟩

/-- The free of an address outside the region keeps the lock. -/
def leakingMoves : List (Move Bool RegionCall) :=
  [.request true (.free ⟨0, 0⟩), .request false onePage, .advance true,
    .advance true, .advance true]

theorem run_served_iff_leaking :
    ∃ system, (lockMachine statements).run (.start splitPair)
        leakingMoves = .ok system ∧
      ¬∃ later next, (lockMachine statements).run system later = .ok next ∧
        next.phase false = .idle := by
  refine ⟨_, rfl, ?_⟩
  rw [@run_served_iff Bool _ statements splitPair leakingMoves _
    statements_splits rfl rfl false onePage rfl]
  intro hguard
  exact absurd hguard.1.1.1 (by decide)

end Synos.Page

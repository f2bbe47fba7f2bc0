import Synos.Page.SpareRun
import Synos.Stored.Init

namespace Synos.Stored

open Synos.Data
open Synos.Page

/-! When memory is exhausted, on the bytes of memory: over which runs
`alloc_page` returns zero only if every page that was free at first is in a live
block. -/

def readSession (session : SystemSession StoredSystem) : SystemSession :=
  ⟨session.system.read, session.live⟩

/-- Every request has the same answer from both. -/
def StoredSystem.AnswersLike (system other : StoredSystem) : Prop :=
  (allocPage system).map Prod.fst = (allocPage other).map Prod.fst ∧
    ∀ order, (allocPages system order).map Prod.fst =
      (allocPages other order).map Prod.fst

section

variable {places : Nat → Place} {housed : Nat → Prop} {stored : StoredSystem}
  {system : PageSystem} {grant : Grant} {order : Nat}

theorem Houses.serves_iff (hhouses : Houses places housed stored system)
    (order : Nat) : stored.read.Serves order ↔ system.Serves order := by
  refine or_congr_right ?_
  rw [show stored.read.nextRegion = system.nextRegion from hhouses.next_eq]
  refine forall₂_congr fun next _ => ?_
  rw [findFreeRegion_bare hhouses.read_bare_eq]
  refine forall₂_congr fun index hindex => ?_
  have hhoused := hhouses.housed_of_next hindex
  rcases hhouses.cases index with
    ⟨hnone, hother⟩ | ⟨region, other, hregion, hother, -⟩
  · rw [stored.read_getElem?, hnone, hother]
    rfl
  · obtain ⟨region, hregion, -, hsame⟩ := hhouses.exists_read hhoused hother
    rw [hregion, hother]
    simp only [Option.mem_def, Option.some.injEq, forall_eq']
    refine exists_congr fun top => and_congr_right fun htop => ?_
    rw [hsame.count_eq htop]

omit places housed stored system grant order in
theorem full_bare {Map Other : Type} {regions : List (Region Map)}
    {others : List (Region Other)}
    (hbare : regions.map bare = others.map bare) (index : Nat) :
    (∀ region ∈ regions.take index, region.Accepted → region.memFull = true) ↔
      ∀ region ∈ others.take index, region.Accepted → region.memFull = true := by
  have hfull {Map : Type} (regions : List (Region Map)) :
      (∀ region ∈ regions.take index,
        region.Accepted → region.memFull = true) ↔
        ∀ region ∈ (regions.map bare).take index,
          region.Accepted → region.memFull = true := by
    rw [← List.map_take, List.forall_mem_map]
    rfl
  rw [hfull, hbare, ← hfull]

theorem Houses.takesBack_iff (hhouses : Houses places housed stored system)
    (hhoused : ∀ index ∈ findRegion system.regions grant.address,
      housed index) :
    stored.read.TakesBack grant ↔ system.TakesBack grant := by
  unfold PageSystem.TakesBack
  rw [findRegion_bare hhouses.read_bare_eq,
    show stored.read.nextRegion = system.nextRegion from hhouses.next_eq]
  refine exists_congr fun index => and_congr_right fun hindex => ?_
  rcases hhouses.cases index with
    ⟨hnone, hother⟩ | ⟨region, other, hregion, hother, -⟩
  · simp [stored.read_getElem?, hnone, hother]
  · obtain ⟨region, hregion, hbare, hsame⟩ :=
      hhouses.exists_read (hhoused index hindex) hother
    rw [hregion, hother]
    simp only [Option.mem_def, Option.some.injEq, exists_eq_left']
    refine exists_congr fun next => and_congr_right fun hnext => ?_
    rcases hhouses.read_cases next with
      ⟨hnone, hother⟩ | ⟨cursor, twin, hcursor, htwin, hcursorBare⟩
    · simp [hnone, hother]
    · rw [hcursor, htwin]
      simp only [Option.some.injEq, exists_eq_left', memFull_bare hbare,
        start_bare hbare, start_bare hcursorBare, Region.offsetOf,
        hsame.count_eq (by decide : 0 < maxOrder),
        hsame.hint_eq (by decide : 0 < maxOrder),
        full_bare hhouses.read_bare_eq]

end

section

variable {places : Nat → Place} {initial : PageSystem} {housed : Nat → Prop}
  {stored : SystemSession StoredSystem} {session : SystemSession}
  {grant : Grant}

theorem Carries.freesHoused (hcarries : Carries places housed stored session)
    (hready : initial.Ready) (hkeeps : session.Keeps initial)
    (hlive : grant ∈ session.live) :
    ∀ index ∈ findRegion session.system.regions grant.address,
      housed index := by
  intro index hfind
  obtain ⟨place, first, region, block, hon⟩ := hkeeps.lends grant hlive
  obtain rfl := hkeeps.findRegion_eq hready hon hfind
  have hfollows := hkeeps.follows index first region hon.first_eq hon.region_eq
  exact hcarries.houses.accepted index region hon.region_eq
    (hfollows.accepted_iff.mpr hon.accepted)

theorem Carries.namesBlock (hcarries : Carries places housed stored session)
    (hready : initial.Ready) (hkeeps : session.Keeps initial)
    (hlive : grant ∈ session.live)
    (hback : session.system.TakesBack grant) :
    FreesHoused places housed session.system grant.order grant.address := by
  intro index hfind
  have hhoused := hcarries.freesHoused hready hkeeps hlive index hfind
  obtain ⟨place, first, region, block, hon⟩ := hkeeps.lends grant hlive
  obtain rfl := hkeeps.findRegion_eq hready hon hfind
  have hfollows := hkeeps.follows index first region hon.first_eq hon.region_eq
  have hexact := hfollows.exact hon.accepted
  have horder : grant.order = block.order := congrArg Grant.order hon.grant_eq
  have haddress : grant.address = region.address block := by
    rw [hexact.address_eq hon.held.inside, hfollows.start_eq, ← hon.grant_eq]
  obtain ⟨found, hfound, now, hnow, next, hnext, cursor, hcursor, hnotFull,
    hplace, hmoves⟩ := hback
  rw [hfind] at hfound
  cases hfound
  obtain rfl := Option.some.inj (hon.region_eq.symm.trans hnow)
  rw [haddress, horder] at hplace
  obtain ⟨hplace, -⟩ :=
    hexact.addressable.place_of_exact hon.held.inside hplace
  refine ⟨hhoused, horder ▸ hon.held.order_lt, ?_⟩
  intro again hagain
  obtain rfl := Option.some.inj (hon.region_eq.symm.trans hagain)
  obtain ⟨kept, hkept, -⟩ := hcarries.houses.exists_stored hon.region_eq
  have hpages := (hcarries.houses.keeps index hhoused kept region hkept
    hon.region_eq).map_pages
  have hinside := hon.held.inside
  rw [haddress, horder, hexact.addressable.offsetOf_address hinside,
    first_eq_index_iff.mpr hplace]
  rw [hpages] at hinside
  exact (Nat.le_div_iff_mul_le (Nat.two_pow_pos _)).mpr hinside

theorem Carries.careful_iff (hcarries : Carries places housed stored session)
    (hready : initial.Ready) (hkeeps : session.Keeps initial)
    {call : SystemCall} (hlegal : call.Legal session) :
    call.Careful (readSession stored) ↔ call.Careful session := by
  cases call with
  | allocPage => exact Iff.rfl
  | allocPages order => exact hcarries.houses.serves_iff order
  | freePage page =>
      exact hcarries.houses.takesBack_iff
        (hcarries.freesHoused hready hkeeps hlegal)
  | freePages grant =>
      exact hcarries.houses.takesBack_iff
        (hcarries.freesHoused hready hkeeps hlegal)

theorem Carries.legal_iff (hcarries : Carries places housed stored session)
    (call : SystemCall) : call.Legal stored ↔ call.Legal session := by
  cases call <;> simp only [SystemCall.Legal, hcarries.live_eq]

theorem Carries.spare_step (hcarries : Carries places housed stored session)
    (hready : initial.Ready) (hkeeps : session.Keeps initial)
    {call : SystemCall} (hlegal : call.Legal session)
    (hcareful : call.Careful session) :
    ∃ next after, systemMachine.step stored call = .ok next ∧
      Page.systemMachine.step session call = .ok after ∧
      Carries places housed next after ∧ after.Keeps initial := by
  have hcall : CallHoused places housed session.system call := by
    cases call with
    | allocPage => trivial
    | allocPages order => trivial
    | freePage page =>
        exact hcarries.namesBlock hready hkeeps hlegal hcareful
    | freePages grant =>
        exact hcarries.namesBlock hready hkeeps hlegal hcareful
  obtain ⟨after, hafter, hkept⟩ := hkeeps.step hready hlegal hcareful
  obtain ⟨next, hnext, hsame⟩ := (hcarries.step hcall).exists_left hafter
  exact ⟨next, after, hnext, hafter, hsame, hkept⟩

theorem Houses.answersLike {first second : StoredSystem} {system : PageSystem}
    (hfirst : Houses places housed first system)
    (hsecond : Houses places housed second system) :
    first.AnswersLike second := by
  have hsame {reply : Except Fault (Nat × StoredSystem)}
      {other : Except Fault (Nat × PageSystem)}
      (hreply : Simulates (Answers places housed) reply other) :
      reply.map Prod.fst = other.map Prod.fst := by
    rcases hreply.cases with
      ⟨fault, rfl, rfl⟩ | ⟨one, two, rfl, rfl, hanswers⟩
    · rfl
    · exact congrArg Except.ok hanswers.1
  exact ⟨(hsame hfirst.allocPage).trans (hsame hsecond.allocPage).symm,
    fun order => (hsame (hfirst.allocPages order)).trans
      (hsame (hsecond.allocPages order)).symm⟩

end

theorem ppageInit_pointed {vpagesMap : StoredSystem → (paddress order : Nat) →
      Except Fault StoredSystem} {mbp regsb regst : Nat} {memory : Memory}
    {regions : List (Region Nat)} {system : StoredSystem}
    (hinit : ppageInit vpagesMap mbp regsb regst memory regions = .ok system)
    (hready : system.read.Ready) : system.read.Pointed := by
  obtain ⟨hcursor, hnull⟩ := ppageInit_cursor hinit
  refine hready.pointed ?_ hnull
  rw [findFreeRegion_bare system.read_bare]
  exact hcursor

def usablePair : Region Nat := withMap Page.usablePair 0

theorem ppageInit_pair :
    ∃ system, ppageInit (fun system _ _ => .ok system) 0x10000 0x8000 0x9000
        pairMemory [usablePair] = .ok system ∧
      system.Housed (fun _ => pairPlace) ∧
      system.read = ⟨[freshPair], some 0, false⟩ :=
  @ppageInit_alone _ _ pairPlace pairMemory usablePair freshPair _
    pairPlace_fits (by decide) pairPlace_ones (by decide) rfl
    (regionMap_eq Page.usablePair 2 rfl) (partitionMap_trimmed 2)
    (by decide +kernel) (by decide +kernel) (by decide) (by decide)

theorem Carries.spare_guarded {places : Nat → Place} {initial : PageSystem}
    {housed : Nat → Prop} {stored : SystemSession StoredSystem}
    {session : SystemSession} {calls : List SystemCall}
    (hcarries : Carries places housed stored session)
    (hready : initial.Ready) (hkeeps : session.Keeps initial)
    (hguard : Page.systemMachine.Guarded
      (fun session call => call.Legal session ∧ call.Careful session)
      session calls) :
    systemMachine.Guarded (fun session call =>
      call.Legal session ∧ call.Careful (readSession session)) stored calls := by
  refine @Machine.guarded_simulates _ _ _ Page.systemMachine _ _ systemMachine
    (fun session stored => Carries places housed stored session ∧
      session.Keeps initial) _ ?_ ?_ session stored calls ⟨hcarries, hkeeps⟩
    hguard
  · rintro state twin call ⟨hcarries, hkeeps⟩ ⟨hlegal, hcareful⟩
    obtain ⟨next, after, hnext, hafter, hsame, hkept⟩ :=
      hcarries.spare_step hready hkeeps hlegal hcareful
    rw [hnext, hafter]
    exact ⟨hsame, hkept⟩
  · rintro state twin call ⟨hcarries, hkeeps⟩ ⟨hlegal, hcareful⟩
    exact ⟨(hcarries.legal_iff call).mpr hlegal,
      (hcarries.careful_iff hready hkeeps hlegal).mpr hcareful⟩

end Synos.Stored

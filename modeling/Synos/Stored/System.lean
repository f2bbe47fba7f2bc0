import Synos.Page.Bounded
import Synos.Page.Spare
import Synos.Stored.CallRun

namespace Synos.Stored

open Synos.Data
open Synos.Page

/-! Physical memory as a whole, with the tables of all regions in the same bytes.
A region has the address of its `bpa_map_t`; addresses are physical ones, at which
the tables lie wherever they are mapped. -/

structure StoredSystem extends PageSystem Nat where
  memory : Memory

namespace StoredSystem

variable (system : StoredSystem)

/-- The region with its `bpa_map_t` as it is in memory. -/
def attach (region : Region Nat) : Region StoredMap :=
  withMap region ⟨system.memory, region.map⟩

/-- The region at the place of the chain, and memory as it leaves it. -/
def put (index : Nat) (region : Region StoredMap) : StoredSystem :=
  { system with
    regions := system.regions.set index (withMap region region.map.address)
    memory := region.map.memory }

end StoredSystem

def allocPage (system : StoredSystem) : Except Fault (Nat × StoredSystem) :=
  if system.outOfMem then
    .ok (0, system)
  else
    match system.nextRegion with
    | none => .error .nullDereference
    | some next =>
        match system.regions[next]? with
        | none => .error .nullDereference
        | some region =>
            if region.memFull then
              match findFreeRegion system.regions (next + 1) with
              | none =>
                  .ok (0, { system with nextRegion := none, outOfMem := true })
              | some found =>
                  -- `goto start`, where this region is not full
                  match system.regions[found]? with
                  | none => .error .nullDereference
                  | some region =>
                      match pageAlloc (system.attach region) with
                      | .error fault => .error fault
                      | .ok (address, region) =>
                          .ok (address, { system.put found region with
                            nextRegion := some found })
            else
              match pageAlloc (system.attach region) with
              | .error fault => .error fault
              | .ok (address, region) => .ok (address, system.put next region)

/-- The loop of `alloc_pages` at region `areg`. -/
def allocPagesFrom (system : StoredSystem) (order areg : Nat) :
    Except Fault (Nat × StoredSystem) :=
  match system.regions[areg]? with
  | none => .error .nullDereference
  | some region =>
      match pagesAlloc (system.attach region) order with
      | .error fault => .error fault
      | .ok (address, region) =>
          if address = 0 then
            match _hnext : findFreeRegion (system.put areg region).regions
                (areg + 1) with
            | none => .ok (0, system.put areg region)
            | some next => allocPagesFrom (system.put areg region) order next
          else
            .ok (address, system.put areg region)
termination_by system.regions.length - areg
decreasing_by
  have hlt := findFreeRegion_lt _hnext
  simp only [StoredSystem.put, List.length_set] at hlt ⊢
  omega

def allocPages (system : StoredSystem) (order : Nat) :
    Except Fault (Nat × StoredSystem) :=
  if system.outOfMem then
    .ok (0, system)
  else
    match system.nextRegion with
    | none => .error .nullDereference
    | some areg => allocPagesFrom system order areg

def freePages (system : StoredSystem) (order pages : Nat) :
    Except Fault StoredSystem :=
  match findRegion system.regions pages with
  | none => .ok system
  | some index =>
      match system.regions[index]? with
      | none => .error .nullDereference
      | some region =>
          match pagesFree (system.attach region) pages order with
          | .error fault => .error fault
          | .ok after =>
              let system := system.put index after
              match system.nextRegion with
              | none => .error .nullDereference
              | some next =>
                  match system.regions[next]? with
                  | none => .error .nullDereference
                  | some cursor =>
                      .ok { system with
                        nextRegion :=
                          if after.start < cursor.start then some index
                          else some next
                        outOfMem := false }

def freePage (system : StoredSystem) (page : Nat) : Except Fault StoredSystem :=
  freePages system 0 page

def systemMachine :
    Machine Fault (SystemSession StoredSystem) SystemCall where
  step session
    | .allocPage =>
        match allocPage session.system with
        | .error fault => .error fault
        | .ok (address, system) =>
            .ok (SystemSession.lend system session.live address 0)
    | .allocPages order =>
        match allocPages session.system order with
        | .error fault => .error fault
        | .ok (address, system) =>
            .ok (SystemSession.lend system session.live address order)
    | .freePage page =>
        match freePage session.system page with
        | .error fault => .error fault
        | .ok system => .ok ⟨system, session.live.erase ⟨page, 0⟩⟩
    | .freePages grant =>
        match freePages session.system grant.order grant.address with
        | .error fault => .error fault
        | .ok system => .ok ⟨system, session.live.erase grant⟩

/-! The chain on the bytes of memory and the chain on separate bitmaps. -/

/-- All of a region but its map. -/
def bare {Map : Type} (region : Region Map) : Region Unit := withMap region ()

/-- The chains agree on all but the maps, and the bytes of the regions that are
housed stand for their maps; each of them has a place of its own. -/
structure Houses (places : Nat → Place) (housed : Nat → Prop)
    (stored : StoredSystem) (system : PageSystem) : Prop where
  bare_eq : stored.regions.map bare = system.regions.map bare
  next_eq : stored.nextRegion = system.nextRegion
  mark_eq : stored.outOfMem = system.outOfMem
  keeps : ∀ index, housed index → ∀ region other,
    stored.regions[index]? = some region →
    system.regions[index]? = some other →
    (places index).Keeps stored.memory (stored.attach region).map other.map
  apart : ∀ index other, housed index → housed other → index ≠ other →
    ∀ address, (places index).Owns address → ¬ (places other).Owns address
  accepted : ∀ index region, system.regions[index]? = some region →
    region.Accepted → housed index
  cursor : ∀ next, system.nextRegion = some next → housed next

/-- The call returns the same from both chains. -/
def Answers (places : Nat → Place) (housed : Nat → Prop) :
    Nat × StoredSystem → Nat × PageSystem → Prop :=
  fun reply other => reply.1 = other.1 ∧ Houses places housed reply.2 other.2

/-- A free that finds a region names a block of a region that is housed. -/
def FreesHoused {Map : Type} (places : Nat → Place) (housed : Nat → Prop)
    (system : PageSystem Map) (order pages : Nat) : Prop :=
  ∀ index ∈ findRegion system.regions pages,
    housed index ∧ order < maxOrder ∧
      ∀ region ∈ system.regions[index]?,
        region.offsetOf pages < (places index).pages / 2 ^ order

instance {Map : Type} (places : Nat → Place) (housed : Nat → Prop)
    [DecidablePred housed] (system : PageSystem Map) (order pages : Nat) :
    Decidable (FreesHoused places housed system order pages) :=
  inferInstanceAs (Decidable (∀ index ∈ findRegion system.regions pages,
    housed index ∧ _ ∧ ∀ region ∈ system.regions[index]?, _ < _))

section

variable {Map Other : Type} {regions : List (Region Map)}
  {others : List (Region Other)}

theorem bare_getElem? (hbare : regions.map bare = others.map bare)
    (index : Nat) :
    (regions[index]?).map bare = (others[index]?).map bare := by
  rw [← List.getElem?_map, ← List.getElem?_map, hbare]

theorem bare_get (hbare : regions.map bare = others.map bare) {index : Nat}
    (hregion : index < regions.length) (hother : index < others.length) :
    bare (regions.get ⟨index, hregion⟩) = bare (others.get ⟨index, hother⟩) := by
  have hsame := bare_getElem? hbare index
  rw [List.getElem?_eq_getElem hregion, List.getElem?_eq_getElem hother] at hsame
  exact Option.some.inj hsame

theorem bare_length (hbare : regions.map bare = others.map bare) :
    regions.length = others.length := by
  simpa using congrArg List.length hbare

theorem firstRegion?_bare {test : Region Map → Bool} {twin : Region Other → Bool}
    (hbare : regions.map bare = others.map bare)
    (htest : ∀ region other, bare region = bare other →
      test region = twin other) (start : Nat) :
    firstRegion? test regions start = firstRegion? twin others start := by
  fun_induction firstRegion? test regions start with
  | case1 start hlt hfound =>
      have hother : start < others.length := bare_length hbare ▸ hlt
      rw [firstRegion?, dif_pos hother,
        ← htest _ _ (bare_get hbare hlt hother), if_pos hfound]
  | case2 start hlt hskip ih =>
      have hother : start < others.length := bare_length hbare ▸ hlt
      refine ih.trans (Eq.symm ?_)
      rw [firstRegion?, dif_pos hother,
        ← htest _ _ (bare_get hbare hlt hother), if_neg hskip]
  | case3 start hge =>
      rw [firstRegion?, dif_neg (bare_length hbare ▸ hge)]

theorem start_bare {region : Region Map} {other : Region Other}
    (hbare : bare region = bare other) : region.start = other.start :=
  congrArg Region.start hbare

theorem memFull_bare {region : Region Map} {other : Region Other}
    (hbare : bare region = bare other) : region.memFull = other.memFull :=
  congrArg Region.memFull hbare

theorem accepted_bare {region : Region Map} {other : Region Other}
    (hbare : bare region = bare other) : region.Accepted ↔ other.Accepted := by
  have hattrib : region.attrib = other.attrib := congrArg Region.attrib hbare
  have hsize : region.size = other.size := congrArg Region.size hbare
  rw [Region.Accepted, Region.Accepted, hattrib, hsize]

theorem findNextRegion_bare (hbare : regions.map bare = others.map bare)
    (start : Nat) :
    findNextRegion regions start = findNextRegion others start :=
  firstRegion?_bare hbare
    (fun _ _ hsame => decide_eq_decide.mpr (accepted_bare hsame)) start

theorem findFreeRegion_of_none {start : Nat}
    (hnext : findNextRegion regions start = none) :
    findFreeRegion regions start = none := by
  rw [findFreeRegion]
  split
  · rfl
  · next index hfound =>
      rw [hnext] at hfound
      cases hfound

theorem findFreeRegion_of_some {start index : Nat}
    (hnext : findNextRegion regions start = some index) :
    findFreeRegion regions start =
      if (regions.get ⟨index, (findNextRegion_lt hnext).2⟩).memFull then
        findFreeRegion regions (start + 1)
      else some index := by
  rw [findFreeRegion]
  split
  · next hnone =>
      rw [hnext] at hnone
      cases hnone
  · next found hfound =>
      rw [hnext] at hfound
      cases hfound
      rfl

theorem findFreeRegion_bare (hbare : regions.map bare = others.map bare)
    (start : Nat) :
    findFreeRegion regions start = findFreeRegion others start := by
  have hfull {index : Nat} (hregion : index < regions.length)
      (hother : index < others.length) :=
    memFull_bare (bare_get hbare hregion hother)
  fun_induction findFreeRegion regions start with
  | case1 start hnext =>
      rw [findNextRegion_bare hbare] at hnext
      exact (findFreeRegion_of_none hnext).symm
  | case2 start index hnext hmem ih =>
      have hother := (findNextRegion_bare hbare start).symm.trans hnext
      rw [hfull _ (findNextRegion_lt hother).2] at hmem
      rw [findFreeRegion_of_some hother, if_pos hmem, ih]
  | case3 start index hnext hmem =>
      have hother := (findNextRegion_bare hbare start).symm.trans hnext
      rw [hfull _ (findNextRegion_lt hother).2] at hmem
      rw [findFreeRegion_of_some hother, if_neg hmem]

theorem findRegion_bare (hbare : regions.map bare = others.map bare)
    (paddress : Nat) :
    findRegion regions paddress = findRegion others paddress := by
  refine firstRegion?_bare hbare (fun region other hsame => ?_) 0
  have hsize : region.size = other.size := congrArg Region.size hsame
  rw [start_bare hsame, hsize]

end

section

variable {places : Nat → Place} {housed : Nat → Prop} {stored : StoredSystem}
  {system : PageSystem} {index order pages : Nat}

theorem Houses.cases (hhouses : Houses places housed stored system)
    (index : Nat) :
    (stored.regions[index]? = none ∧ system.regions[index]? = none) ∨
      ∃ region other, stored.regions[index]? = some region ∧
        system.regions[index]? = some other ∧ bare region = bare other := by
  have hsame := bare_getElem? hhouses.bare_eq index
  cases hstored : stored.regions[index]? with
  | none =>
      cases hother : system.regions[index]? with
      | none => exact .inl ⟨rfl, rfl⟩
      | some other =>
          rw [hstored, hother] at hsame
          cases hsame
  | some region =>
      cases hother : system.regions[index]? with
      | none =>
          rw [hstored, hother] at hsame
          cases hsame
      | some other =>
          rw [hstored, hother] at hsame
          exact .inr ⟨region, other, rfl, rfl, Option.some.inj hsame⟩

theorem Houses.exists_stored (hhouses : Houses places housed stored system)
    {other : Region} (hother : system.regions[index]? = some other) :
    ∃ region, stored.regions[index]? = some region ∧
      bare region = bare other := by
  rcases hhouses.cases index with
    ⟨-, hnone⟩ | ⟨region, twin, hregion, htwin, hbare⟩
  · rw [hother] at hnone
    cases hnone
  · rw [hother] at htwin
    cases htwin
    exact ⟨region, hregion, hbare⟩

theorem withMap_of_bare {Map Other : Type} {region : Region Map}
    {other : Region Other} (hbare : bare region = bare other)
    {Last : Type} (map : Last) : withMap region map = withMap other map :=
  congrArg (fun copy => withMap copy map) hbare

theorem Houses.mirrors (hhouses : Houses places housed stored system)
    (hhoused : housed index) {region : Region Nat} {other : Region}
    (hregion : stored.regions[index]? = some region)
    (hother : system.regions[index]? = some other)
    (hbare : bare region = bare other) :
    (places index).Mirrors stored.memory (stored.attach region) other :=
  ⟨withMap_of_bare hbare _, hhouses.keeps index hhoused _ _ hregion hother⟩

theorem Houses.put (hhouses : Houses places housed stored system)
    (hhoused : housed index) {region : Region Nat} {old : Region}
    (hregion : stored.regions[index]? = some region)
    (hold : system.regions[index]? = some old)
    {after : Region StoredMap} {other : Region}
    (hmirrors : (places index).Mirrors stored.memory after other)
    (haccepted : other.Accepted ↔ old.Accepted) :
    Houses places housed (stored.put index after)
      (system.setRegion index other) := by
  refine ⟨?_, hhouses.next_eq, hhouses.mark_eq, ?_, hhouses.apart, ?_,
    hhouses.cursor⟩
  · have hafter : bare after = bare other := congrArg bare hmirrors.1
    have hput : bare (withMap after after.map.address) = bare after := rfl
    simp only [StoredSystem.put, PageSystem.setRegion, List.map_set, hput,
      hafter, hhouses.bare_eq]
  · intro place hplace now copy hnow hcopy
    rcases getElem?_set_cases hcopy with ⟨rfl, rfl⟩ | ⟨hne, hcopy⟩
    · obtain ⟨-, rfl⟩ | ⟨hself, -⟩ := getElem?_set_cases hnow
      · exact hmirrors.2.moved fun _ _ => rfl
      · exact absurd rfl hself
    · obtain ⟨hself, -⟩ | ⟨-, hnow⟩ := getElem?_set_cases hnow
      · exact absurd hself hne
      · refine (hhouses.keeps place hplace now copy hnow hcopy).moved ?_
        intro address howns
        exact hmirrors.2.outside address
          (hhouses.apart place index hplace hhoused hne address howns)
  · intro place now hnow hok
    rcases getElem?_set_cases hnow with ⟨rfl, rfl⟩ | ⟨-, hnow⟩
    · exact hhoused
    · exact hhouses.accepted place now hnow hok

theorem Houses.housed_of_next (hhouses : Houses places housed stored system)
    {start found : Nat}
    (hfound : findFreeRegion system.regions start = some found) :
    housed found := by
  obtain ⟨-, ⟨region, hregion, haccepted, -⟩, -⟩ :=
    findFreeRegion_eq_some hfound
  exact hhouses.accepted found region hregion haccepted

theorem Houses.pagesAllocAt (hhouses : Houses places housed stored system)
    (hhoused : housed index) {region : Region Nat} {other : Region}
    (hregion : stored.regions[index]? = some region)
    (hother : system.regions[index]? = some other)
    (hbare : bare region = bare other) (order : Nat) :
    Simulates
      (fun reply twin => reply.1 = twin.1 ∧
        Houses places housed (stored.put index reply.2)
          (system.setRegion index twin.2))
      (pagesAlloc (stored.attach region) order)
      (Page.pagesAlloc other order) := by
  have hmirrors := hhouses.mirrors hhoused hregion hother hbare
  rcases (hmirrors.pagesAlloc order).cases with
    ⟨fault, hfirst, hsecond⟩ | ⟨reply, twin, hfirst, hsecond, hreply⟩
  · rw [hfirst, hsecond]
    rfl
  · rw [hfirst, hsecond]
    exact ⟨hreply.1, hhouses.put hhoused hregion hother hreply.2
      (pagesAlloc_same hsecond).accepted_iff⟩

theorem Houses.moveTo (hhouses : Houses places housed stored system)
    (next : Option Nat) (hnext : ∀ place, next = some place → housed place) :
    Houses places housed { stored with nextRegion := next }
      { system with nextRegion := next } :=
  ⟨hhouses.bare_eq, rfl, hhouses.mark_eq, hhouses.keeps, hhouses.apart,
    hhouses.accepted, hnext⟩

theorem Houses.mark (hhouses : Houses places housed stored system)
    (mark : Bool) :
    Houses places housed { stored with outOfMem := mark }
      { system with outOfMem := mark } :=
  ⟨hhouses.bare_eq, hhouses.next_eq, rfl, hhouses.keeps, hhouses.apart,
    hhouses.accepted, hhouses.cursor⟩

theorem Houses.allocPage (hhouses : Houses places housed stored system) :
    Simulates (Answers places housed) (Stored.allocPage stored)
      (Page.allocPage system) := by
  unfold Stored.allocPage Page.allocPage
  rw [hhouses.mark_eq]
  split
  · exact ⟨rfl, hhouses⟩
  · rw [hhouses.next_eq]
    cases hnext : system.nextRegion with
    | none => rfl
    | some next =>
        simp only
        rcases hhouses.cases next with
          ⟨hnone, hother⟩ | ⟨region, other, hregion, hother, hbare⟩
        · rw [hnone, hother]
          rfl
        · rw [hregion, hother]
          simp only [memFull_bare hbare]
          split
          · rw [findFreeRegion_bare hhouses.bare_eq]
            cases hfind : findFreeRegion system.regions (next + 1) with
            | none =>
                exact ⟨rfl, (hhouses.moveTo none (by simp)).mark true⟩
            | some found =>
                simp only
                rcases hhouses.cases found with
                  ⟨hnone, hother⟩ | ⟨region, other, hregion, hother, hbare⟩
                · rw [hnone, hother]
                  rfl
                · rw [hregion, hother]
                  have hfound := hhouses.housed_of_next hfind
                  rcases (hhouses.pagesAllocAt hfound hregion hother hbare
                      0).cases with
                    ⟨fault, hfirst, hsecond⟩ |
                      ⟨reply, twin, hfirst, hsecond, hreply⟩
                  · simp only [pageAlloc, Page.pageAlloc, hfirst, hsecond]
                    rfl
                  · simp only [pageAlloc, Page.pageAlloc, hfirst, hsecond]
                    refine ⟨hreply.1, hreply.2.moveTo (some found) ?_⟩
                    rintro place ⟨⟩
                    exact hfound
          · rcases (hhouses.pagesAllocAt (hhouses.cursor next hnext) hregion
                hother hbare 0).cases with
              ⟨fault, hfirst, hsecond⟩ | ⟨reply, twin, hfirst, hsecond, hreply⟩
            · simp only [pageAlloc, Page.pageAlloc, hfirst, hsecond]
              rfl
            · simp only [pageAlloc, Page.pageAlloc, hfirst, hsecond]
              exact hreply

theorem Houses.allocPagesFrom (hhouses : Houses places housed stored system)
    {areg : Nat} (hhoused : housed areg) (order : Nat) :
    Simulates (Answers places housed)
      (Stored.allocPagesFrom stored order areg)
      (Page.allocPagesFrom system order areg) := by
  fun_induction Page.allocPagesFrom system order areg generalizing stored with
  | case1 system areg hother =>
      rcases hhouses.cases areg with
        ⟨hnone, -⟩ | ⟨region, other, -, hsome, -⟩
      · rw [Stored.allocPagesFrom, hnone]
        rfl
      · rw [hother] at hsome
        cases hsome
  | case2 system areg other hother fault hcall =>
      obtain ⟨region, hregion, hbare⟩ := hhouses.exists_stored hother
      have hsim := hhouses.pagesAllocAt hhoused hregion hother hbare order
      rw [Stored.allocPagesFrom, hregion]
      simp only [hsim.error_left hcall]
      rfl
  | case3 system areg other hother after hnext hcall =>
      obtain ⟨region, hregion, hbare⟩ := hhouses.exists_stored hother
      obtain ⟨⟨address, reply⟩, hreply, rfl, hput⟩ :=
        (hhouses.pagesAllocAt hhoused hregion hother hbare order).exists_left
          hcall
      rw [Stored.allocPagesFrom, hregion]
      simp only [hreply, if_true]
      split
      · exact ⟨rfl, hput⟩
      · next found hfound =>
          rw [findFreeRegion_bare hput.bare_eq] at hfound
          rw [PageSystem.setRegion, hnext] at hfound
          cases hfound
  | case4 system areg other hother after next hnext hcall ih =>
      obtain ⟨region, hregion, hbare⟩ := hhouses.exists_stored hother
      obtain ⟨⟨address, reply⟩, hreply, rfl, hput⟩ :=
        (hhouses.pagesAllocAt hhoused hregion hother hbare order).exists_left
          hcall
      rw [Stored.allocPagesFrom, hregion]
      simp only [hreply, if_true]
      split
      · next hnone =>
          rw [findFreeRegion_bare hput.bare_eq, PageSystem.setRegion, hnext]
            at hnone
          cases hnone
      · next found hfound =>
          rw [findFreeRegion_bare hput.bare_eq, PageSystem.setRegion, hnext]
            at hfound
          cases hfound
          exact ih hput (hput.housed_of_next hnext)
  | case5 system areg other hother address after hcall hne =>
      obtain ⟨region, hregion, hbare⟩ := hhouses.exists_stored hother
      obtain ⟨⟨same, reply⟩, hreply, rfl, hput⟩ :=
        (hhouses.pagesAllocAt hhoused hregion hother hbare order).exists_left
          hcall
      rw [Stored.allocPagesFrom, hregion]
      simp only [hreply, if_neg hne]
      exact ⟨rfl, hput⟩

theorem Houses.allocPages (hhouses : Houses places housed stored system)
    (order : Nat) :
    Simulates (Answers places housed) (Stored.allocPages stored order)
      (Page.allocPages system order) := by
  unfold Stored.allocPages Page.allocPages
  rw [hhouses.mark_eq]
  split
  · exact ⟨rfl, hhouses⟩
  · rw [hhouses.next_eq]
    cases hnext : system.nextRegion with
    | none => rfl
    | some areg =>
        exact hhouses.allocPagesFrom (hhouses.cursor areg hnext) order

theorem Houses.freePages (hhouses : Houses places housed stored system)
    (hfrees : FreesHoused places housed system order pages) :
    Simulates (Houses places housed) (Stored.freePages stored order pages)
      (Page.freePages system order pages) := by
  unfold Stored.freePages Page.freePages
  rw [findRegion_bare hhouses.bare_eq]
  cases hfind : findRegion system.regions pages with
  | none => exact hhouses
  | some index =>
      obtain ⟨hhoused, horder, hblock⟩ := hfrees index hfind
      simp only
      rcases hhouses.cases index with
        ⟨hnone, hother⟩ | ⟨region, other, hregion, hother, hbare⟩
      · rw [hnone, hother]
        rfl
      · rw [hregion, hother]
        have hmirrors := hhouses.mirrors hhoused hregion hother hbare
        rcases (hmirrors.pagesFree horder fun _ =>
            hblock other hother).cases with
          ⟨fault, hfirst, hsecond⟩ | ⟨after, twin, hfirst, hsecond, hafter⟩
        · simp only [hfirst, hsecond]
          rfl
        · simp only [hfirst, hsecond]
          have hput := hhouses.put hhoused hregion hother hafter
            (pagesFree_same hsecond).accepted_iff
          have hnext : (stored.put index after).nextRegion =
              (system.setRegion index twin).nextRegion := hput.next_eq
          rw [hnext]
          cases hcursor : (system.setRegion index twin).nextRegion with
          | none => rfl
          | some next =>
              simp only
              rcases hput.cases next with
                ⟨hnone, hother⟩ | ⟨now, copy, hnow, hcopy, hsame⟩
              · rw [hnone, hother]
                rfl
              · rw [hnow, hcopy]
                simp only [hafter.start_eq, start_bare hsame]
                change Houses places housed _ _
                refine (hput.moveTo (if twin.start < copy.start then some index
                  else some next) ?_).mark false
                intro place hplace
                split at hplace
                · cases hplace
                  exact hhoused
                · cases hplace
                  exact hput.cursor _ hcursor

end

/-! Runs. -/

/-- The session on the bytes of memory and the one on separate bitmaps. -/
structure Carries (places : Nat → Place) (housed : Nat → Prop)
    (stored : SystemSession StoredSystem) (session : SystemSession) : Prop where
  houses : Houses places housed stored.system session.system
  live_eq : stored.live = session.live

def CallHoused {Map : Type} (places : Nat → Place) (housed : Nat → Prop)
    (system : PageSystem Map) : SystemCall → Prop
  | .allocPage => True
  | .allocPages _ => True
  | .freePage page => FreesHoused places housed system 0 page
  | .freePages grant =>
      FreesHoused places housed system grant.order grant.address

instance {Map : Type} (places : Nat → Place) (housed : Nat → Prop)
    [DecidablePred housed] (system : PageSystem Map) :
    DecidablePred (CallHoused places housed system)
  | .allocPage => inferInstanceAs (Decidable True)
  | .allocPages _ => inferInstanceAs (Decidable True)
  | .freePage page =>
      inferInstanceAs (Decidable (FreesHoused places housed system 0 page))
  | .freePages grant => inferInstanceAs (Decidable
      (FreesHoused places housed system grant.order grant.address))

section

variable {places : Nat → Place} {housed : Nat → Prop}
  {stored : SystemSession StoredSystem} {session : SystemSession}

theorem Carries.lend {reply : Nat × StoredSystem} {twin : Nat × PageSystem}
    (hcarries : Carries places housed stored session)
    (hanswers : Answers places housed reply twin) (order : Nat) :
    Carries places housed
      (SystemSession.lend reply.2 stored.live reply.1 order)
      (SystemSession.lend twin.2 session.live twin.1 order) := by
  refine ⟨hanswers.2, ?_⟩
  simp only [SystemSession.lend, hanswers.1, hcarries.live_eq]

theorem Carries.step {call : SystemCall}
    (hcarries : Carries places housed stored session)
    (hcall : CallHoused places housed session.system call) :
    Simulates (Carries places housed) (systemMachine.step stored call)
      (Page.systemMachine.step session call) := by
  cases call with
  | allocPage =>
      simp only [systemMachine, Page.systemMachine]
      rcases hcarries.houses.allocPage.cases with
        ⟨fault, hfirst, hsecond⟩ | ⟨reply, twin, hfirst, hsecond, hreply⟩
      · rw [hfirst, hsecond]
        rfl
      · rw [hfirst, hsecond]
        exact hcarries.lend hreply 0
  | allocPages order =>
      simp only [systemMachine, Page.systemMachine]
      rcases (hcarries.houses.allocPages order).cases with
        ⟨fault, hfirst, hsecond⟩ | ⟨reply, twin, hfirst, hsecond, hreply⟩
      · rw [hfirst, hsecond]
        rfl
      · rw [hfirst, hsecond]
        exact hcarries.lend hreply order
  | freePage page =>
      simp only [systemMachine, Page.systemMachine, Stored.freePage,
        Page.freePage]
      rcases (hcarries.houses.freePages hcall).cases with
        ⟨fault, hfirst, hsecond⟩ | ⟨system, twin, hfirst, hsecond, hsystem⟩
      · rw [hfirst, hsecond]
        rfl
      · rw [hfirst, hsecond]
        exact ⟨hsystem, congrArg (List.erase · _) hcarries.live_eq⟩
  | freePages grant =>
      simp only [systemMachine, Page.systemMachine]
      rcases (hcarries.houses.freePages hcall).cases with
        ⟨fault, hfirst, hsecond⟩ | ⟨system, twin, hfirst, hsecond, hsystem⟩
      · rw [hfirst, hsecond]
        rfl
      · rw [hfirst, hsecond]
        exact ⟨hsystem, congrArg (List.erase · _) hcarries.live_eq⟩

end

end Synos.Stored

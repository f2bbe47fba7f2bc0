import Synos.Stored.Read

namespace Synos.Stored

open Synos.Data
open Synos.Page

/-! Setting up the chain of regions with the tables in memory, where the calls of
`pages_alloc` say. -/

section

/- Mapping a table into virtual memory is not done here; it may take pages for
page tables out of the system and write to them. -/
variable (vpagesMap : StoredSystem → (paddress order : Nat) →
  Except Fault StoredSystem) (mbp : Nat)

def pagesAllocAt (system : StoredSystem) (index order : Nat) :
    Except Fault (Nat × StoredSystem) :=
  match system.regions[index]? with
  | none => .error .nullDereference
  | some region =>
      match pagesAlloc (system.attach region) order with
      | .error fault => .error fault
      | .ok (address, region) => .ok (address, system.put index region)

def setUpRegion (system : StoredSystem) (index pages sb pageent : Nat) :
    Except Fault StoredSystem :=
  match system.regions[index]? with
  | none => .error .nullDereference
  | some region =>
      match regionMap system.memory region pages sb pageent with
      | .error fault => .error fault
      | .ok region =>
          match memPProtect region mbp with
          | .error fault => .error fault
          | .ok region => .ok (system.put index region)

def initRegion (chosen : Nat) (system : StoredSystem) (index : Nat) :
    Except Fault StoredSystem :=
  if index = chosen then
    .ok system
  else
    match system.regions[index]? with
    | none => .error .nullDereference
    | some region =>
        let pages := region.size / pageSize
        if pages = 0 then
          .ok { system with
            regions := system.regions.set index { region with memFull := true } }
        else do
          let tblOrder := logOrder (pagesOf (pageTblSize pages))
          let sbOrder := logOrder (pagesOf mmSbSize)
          let (paSb, system) ← pagesAllocAt system chosen sbOrder
          let (paTbl, system) ← pagesAllocAt system chosen tblOrder
          let system ← vpagesMap system paTbl tblOrder
          let system ← vpagesMap system paSb sbOrder
          setUpRegion mbp system index pages paSb paTbl

/-- `regsb` and `regst` are the answers of the early heap for the first two
tables. -/
def ppageInit (regsb regst : Nat) (memory : Memory)
    (regions : List (Region Nat)) : Except Fault StoredSystem :=
  match findAllocRegion regions 0 with
  | none => .error .panic
  | some chosen =>
      match regions[chosen]? with
      | none => .error .nullDereference
      | some region =>
          if regst = 0 ∨ regsb = 0 then
            .error .panic
          else do
            let system ← setUpRegion mbp ⟨⟨regions, some chosen, false⟩, memory⟩
              chosen (region.size / pageSize) regsb regst
            let system ← (List.range regions.length).foldlM
              (initRegion vpagesMap mbp chosen) system
            let next := findFreeRegion system.regions 0
            return { system with
              nextRegion := next
              outOfMem := system.outOfMem || next.isNone }

end

section

variable {vpagesMap : StoredSystem → (paddress order : Nat) →
    Except Fault StoredSystem} {mbp regsb regst : Nat} {memory : Memory}
  {regions : List (Region Nat)} {system : StoredSystem}

theorem ppageInit_ok
    (hinit : ppageInit vpagesMap mbp regsb regst memory regions = .ok system) :
    ∃ chosen region first last, findAllocRegion regions 0 = some chosen ∧
      regions[chosen]? = some region ∧ regst ≠ 0 ∧ regsb ≠ 0 ∧
      setUpRegion mbp ⟨⟨regions, some chosen, false⟩, memory⟩ chosen
        (region.size / pageSize) regsb regst = .ok first ∧
      (List.range regions.length).foldlM (initRegion vpagesMap mbp chosen)
        first = .ok last ∧
      system = { last with
        nextRegion := findFreeRegion last.regions 0
        outOfMem := last.outOfMem || (findFreeRegion last.regions 0).isNone } := by
  unfold ppageInit at hinit
  cases hchosen : findAllocRegion regions 0 with
  | none =>
      rw [hchosen] at hinit
      cases hinit
  | some chosen =>
      cases hregion : regions[chosen]? with
      | none =>
          simp only [hchosen, hregion] at hinit
          cases hinit
      | some region =>
          simp only [hchosen, hregion] at hinit
          split at hinit
          · cases hinit
          · next hheap =>
              obtain ⟨hregst, hregsb⟩ := not_or.mp hheap
              cases hfirst : setUpRegion mbp
                  ⟨⟨regions, some chosen, false⟩, memory⟩ chosen
                  (region.size / pageSize) regsb regst with
              | error fault =>
                  rw [hfirst] at hinit
                  cases hinit
              | ok first =>
                  rw [hfirst] at hinit
                  change (List.foldlM (initRegion vpagesMap mbp chosen) first
                    (List.range regions.length) >>= fun _ => _) = _ at hinit
                  cases hlast : List.foldlM (initRegion vpagesMap mbp chosen)
                      first (List.range regions.length) with
                  | error fault =>
                      rw [hlast] at hinit
                      cases hinit
                  | ok last =>
                      rw [hlast] at hinit
                      cases hinit
                      exact ⟨chosen, region, first, last, rfl, hregion, hregst,
                        hregsb, hfirst, hlast, rfl⟩

/-- The cursor points to the first free region, if there is one. -/
theorem ppageInit_cursor
    (hinit : ppageInit vpagesMap mbp regsb regst memory regions = .ok system) :
    system.nextRegion = findFreeRegion system.regions 0 ∧
      (system.nextRegion = none → system.outOfMem = true) := by
  obtain ⟨chosen, region, first, last, -, -, -, -, -, -, rfl⟩ :=
    ppageInit_ok hinit
  refine ⟨rfl, fun hnone => ?_⟩
  simp only at hnone
  simp [hnone]

/-- After `ppage_init` the cursor is on an accepted region. -/
theorem ppageInit_houses {places : Nat → Place}
    (hinit : ppageInit vpagesMap mbp regsb regst memory regions = .ok system)
    (hhoused : system.Housed places) :
    Houses places system.Accepts system system.read := by
  refine hhoused.houses fun next hnext => ?_
  rw [(ppageInit_cursor hinit).1] at hnext
  obtain ⟨-, ⟨region, hregion, haccepted, -⟩, -⟩ := findFreeRegion_eq_some hnext
  exact ⟨region, hregion, haccepted⟩

end

/-! A chain of one region. -/

theorem memPProtect_of_high {region : Region StoredMap} {mbp : Nat}
    (hstart : lowMemory ≤ region.start)
    (hinfo : ¬ (region.start < wordAdd mbp mbootInfoSize ∧
      mbp < wordAdd region.start region.size)) :
    memPProtect region mbp = .ok region := by
  rw [memPProtect, protectLow, if_neg (Nat.not_lt_of_le hstart)]
  exact if_neg hinfo

theorem StoredSystem.Housed.alone {region : Region Nat} {next : Option Nat}
    {mark : Bool} {memory : Memory} {place : Place}
    (hkeeps : place.Keeps memory ⟨memory, region.map⟩
      (StoredMap.read ⟨memory, region.map⟩)) :
    StoredSystem.Housed ⟨⟨[region], next, mark⟩, memory⟩ fun _ => place := by
  constructor
  · intro index found hindex _
    cases index with
    | zero =>
        cases hindex
        exact hkeeps
    | succ index => cases hindex
  · rintro index other ⟨found, hindex, -⟩ ⟨twin, hother, -⟩ hne
    have hlast := (List.getElem?_eq_some_iff.mp hindex).1
    have htwin := (List.getElem?_eq_some_iff.mp hother).1
    simp only [List.length_singleton] at hlast htwin
    omega

/-- Of one region at 1 MiB or higher, clear of the multiboot information, all
pages are free after `ppage_init`; `vpages_map` is not called. -/
theorem ppageInit_alone {vpagesMap : StoredSystem → (paddress order : Nat) →
      Except Fault StoredSystem} {mbp : Nat} {place : Place} {memory : Memory}
    {region : Region Nat} {fresh : Region} {map : BpaMap}
    (hfits : place.Fits) (hpages : place.pages < wordSize)
    (hones : place.OnesBehind memory) (hheap : ¬ (place.table = 0 ∨ place.map = 0))
    (hsize : region.size / pageSize = place.pages)
    (hmap : Page.regionMap (withMap region map) place.pages = .ok fresh)
    (htrimmed : Trimmed fresh.map)
    (hchosen : findAllocRegion [region] 0 = some 0)
    (hfree : findFreeRegion [fresh] 0 = some 0)
    (hstart : lowMemory ≤ fresh.start)
    (hinfo : ¬ (fresh.start < wordAdd mbp mbootInfoSize ∧
      mbp < wordAdd fresh.start fresh.size)) :
    ∃ system, ppageInit vpagesMap mbp place.map place.table memory [region] =
        .ok system ∧
      system.Housed (fun _ => place) ∧
      system.read = ⟨[fresh], some 0, false⟩ := by
  have hmirrors := @regionMap_mirrors place memory region map hfits hpages hones
  obtain ⟨after, hafter, hregion, hkeeps⟩ := hmirrors.exists_left hmap
  have hprotect : memPProtect after mbp = .ok after := by
    rw [hregion]
    exact memPProtect_of_high hstart hinfo
  have hsetUp : setUpRegion mbp ⟨⟨[region], some 0, false⟩, memory⟩ 0 place.pages
      place.map place.table =
        .ok (StoredSystem.put ⟨⟨[region], some 0, false⟩, memory⟩ 0 after) := by
    simp only [setUpRegion, List.getElem?_cons_zero, hafter, hprotect]
  have hbare : [withMap after after.map.address].map bare =
      [fresh].map bare := congrArg (fun region => [bare region]) hregion
  have hnext : findFreeRegion [withMap after after.map.address] 0 = some 0 := by
    rw [findFreeRegion_bare hbare]
    exact hfree
  have hread : readRegion after = fresh := by
    rw [readRegion, hkeeps.read_eq htrimmed, hregion]
    rfl
  refine ⟨⟨⟨[withMap after after.map.address], some 0, false⟩,
    after.map.memory⟩, ?_, .alone hkeeps.reads, ?_⟩
  · simp only [ppageInit, hchosen, List.getElem?_cons_zero, if_neg hheap, hsize,
      hsetUp]
    change (List.foldlM (initRegion vpagesMap mbp 0)
      (StoredSystem.put ⟨⟨[region], some 0, false⟩, memory⟩ 0 after)
      [0] >>= fun _ => _) = _
    change Except.ok (StoredSystem.mk ⟨[withMap after after.map.address],
      findFreeRegion [withMap after after.map.address] 0,
      false || (findFreeRegion [withMap after after.map.address] 0).isNone⟩
      after.map.memory) = _
    rw [hnext]
    rfl
  · change PageSystem.mk [readRegion after] (some 0) false = _
    rw [hread]

end Synos.Stored

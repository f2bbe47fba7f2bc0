import Synos.Page.Chain
import Synos.Page.Protect

namespace Synos.Page

open Synos.Data

/-! Setting up the chain of regions: the tables of one region come from the
early heap, those of the others from that region. -/

def bitsPerPage : Nat := 2

def mmSbSize : Nat := 256

def lmSize : Nat := 0x100000

def pagesOf (size : Nat) : Nat := (size + (pageSize - 1)) / pageSize

def pageTblSize (pages : Nat) : Nat := (pages * bitsPerPage + 7) / 8

def totalPageTableSize {Map : Type} (regions : List (Region Map)) : Nat :=
  word (regions.map Region.size).sum / pageSize * bitsPerPage / 8

/-- The loop of `ppage_init` that chooses the region for the tables. -/
def findAllocRegion {Map : Type} (regions : List (Region Map)) (start : Nat) :
    Option Nat :=
  match hnext : findNextRegion regions start with
  | none => none
  | some index =>
      let region := regions.get ⟨index, (findNextRegion_lt hnext).2⟩
      if region.size < totalPageTableSize regions ∨ region.start < lmSize then
        findAllocRegion regions (index + 1)
      else
        some index
termination_by regions.length - start
decreasing_by
  have := findNextRegion_lt hnext
  omega

section

/- Mapping a table into virtual memory is not done here; it may take pages for
page tables out of the system. -/
variable (vpagesMap : PageSystem → (paddress order : Nat) →
  Except Fault PageSystem) (mbp : Nat)

def pagesAllocAt (system : PageSystem) (index order : Nat) :
    Except Fault (Nat × PageSystem) :=
  match system.regions[index]? with
  | none => .error .nullDereference
  | some region =>
      match pagesAlloc region order with
      | .error fault => .error fault
      | .ok (address, region) => .ok (address, system.setRegion index region)

def setUpRegion (system : PageSystem) (index pages : Nat) :
    Except Fault PageSystem :=
  match system.regions[index]? with
  | none => .error .nullDereference
  | some region =>
      match regionMap region pages with
      | .error fault => .error fault
      | .ok region =>
          match memPProtect region mbp with
          | .error fault => .error fault
          | .ok region => .ok (system.setRegion index region)

def initRegion (chosen : Nat) (system : PageSystem) (index : Nat) :
    Except Fault PageSystem :=
  if index = chosen then
    .ok system
  else
    match system.regions[index]? with
    | none => .error .nullDereference
    | some region =>
        let pages := region.size / pageSize
        if pages = 0 then
          .ok (system.setRegion index { region with memFull := true })
        else do
          let tblOrder := logOrder (pagesOf (pageTblSize pages))
          let sbOrder := logOrder (pagesOf mmSbSize)
          let (paSb, system) ← pagesAllocAt system chosen sbOrder
          let (paTbl, system) ← pagesAllocAt system chosen tblOrder
          let system ← vpagesMap system paTbl tblOrder
          let system ← vpagesMap system paSb sbOrder
          setUpRegion mbp system index pages

/-- `heap` tells whether the early heap has room for the first two tables. -/
def ppageInit (heap : Bool) (regions : List Region) :
    Except Fault PageSystem :=
  match findAllocRegion regions 0 with
  | none => .error .panic
  | some chosen =>
      match regions[chosen]? with
      | none => .error .nullDereference
      | some region =>
          if heap then do
            let system ← setUpRegion mbp ⟨regions, some chosen, false⟩ chosen
              (region.size / pageSize)
            let system ← (List.range regions.length).foldlM
              (initRegion vpagesMap mbp chosen) system
            let next := findFreeRegion system.regions 0
            return { system with
              nextRegion := next
              outOfMem := system.outOfMem || next.isNone }
          else
            .error .panic

end

theorem pagesAllocAt_eq_ok {system next : PageSystem} {index order address : Nat}
    (hcall : pagesAllocAt system index order = .ok (address, next)) :
    ∃ before after, system.regions[index]? = some before ∧
      pagesAlloc before order = .ok (address, after) ∧
      next = system.setRegion index after := by
  rw [pagesAllocAt] at hcall
  cases hbefore : system.regions[index]? with
  | none =>
      rw [hbefore] at hcall
      cases hcall
  | some before =>
      rw [hbefore] at hcall
      simp only at hcall
      cases hreply : pagesAlloc before order with
      | error fault =>
          rw [hreply] at hcall
          cases hcall
      | ok reply =>
          rw [hreply] at hcall
          cases hcall
          exact ⟨before, reply.2, rfl, hreply, rfl⟩

end Synos.Page

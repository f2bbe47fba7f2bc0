import Synos.Data.Machine
import Synos.Data.Word
import Mathlib.Logic.Function.Basic

namespace Synos.Paging

open Synos.Data

/-! Allocation of virtual pages.  `pga_ispresent`, `pga_map` and `pga_unmap` act
on a map from pages to frames; `next_free_vpage` caches a search in it. -/

def virtPageSize : Nat := 4096

/-- The number of virtual pages. -/
def vpageCount : Nat := wordSize / virtPageSize

def pageOf (address : Nat) : Nat := word address / virtPageSize

structure VirtualSpace where
  pages : Nat → Option Nat
  nextFreeVpage : Nat

def mapPages (pages : Nat → Option Nat) (vaddress paddress : Nat) :
    Nat → Nat → Option Nat
  | 0 => pages
  | count + 1 =>
      Function.update (mapPages pages vaddress paddress count)
        (pageOf (vaddress + virtPageSize * count))
        (some (pageOf (paddress + virtPageSize * count)))

def unmapPages (pages : Nat → Option Nat) (vaddress : Nat) :
    Nat → Nat → Option Nat
  | 0 => pages
  | count + 1 =>
      Function.update (unmapPages pages vaddress count)
        (pageOf (vaddress + virtPageSize * count)) none

def fnfpFrom (pages : Nat → Option Nat) :
    (address fuel : Nat) → Except Fault Nat
  | _, 0 => .error .endlessLoop
  | address, fuel + 1 =>
      if pages (pageOf address) = none then .ok address
      else fnfpFrom pages (wordAdd address virtPageSize) fuel
termination_by _ fuel => fuel

def fnfp (pages : Nat → Option Nat) (nfp : Nat) : Except Fault Nat :=
  fnfpFrom pages nfp vpageCount

def vpageInit (pages : Nat → Option Nat) : Except Fault VirtualSpace :=
  let pages := mapPages pages 0 0 (2 ^ 0)
  match fnfp pages 0x100000 with
  | .error fault => .error fault
  | .ok next => .ok ⟨pages, next⟩

def vpageMap (space : VirtualSpace) (paddress : Nat) :
    Except Fault (Nat × VirtualSpace) :=
  let pages := mapPages space.pages space.nextFreeVpage paddress (2 ^ 0)
  match fnfp pages space.nextFreeVpage with
  | .error fault => .error fault
  | .ok next => .ok (space.nextFreeVpage, ⟨pages, next⟩)

def runFree (pages : Nat → Option Nat) (start : Nat) : Nat → Bool
  | 0 => true
  | count + 1 =>
      runFree pages start count &&
        (pages (pageOf (start + virtPageSize * count))).isNone

/-- The outer loop of `vpages_map`.  A run as long as the address space keeps the
inner loop going for ever. -/
def findRun (pages : Nat → Option Nat) (order : Nat) :
    (start fuel : Nat) → Except Fault (Option Nat)
  | _, 0 => .error .endlessLoop
  | start, fuel + 1 =>
      if start < wordSize - 1 then
        if runFree pages start (2 ^ order) then
          if vpageCount ≤ 2 ^ order then .error .endlessLoop
          else .ok (some start)
        else
          findRun pages order (wordAdd start virtPageSize) fuel
      else
        .ok none
termination_by _ fuel => fuel

/-- `BLOCK_ORDER_SIZE`.  The shift is one of `int`, so it is defined up to order
30. -/
def blockOrderSize (order : Nat) : Except Fault Nat :=
  if order < 31 then .ok (virtPageSize * 2 ^ order) else .error .intOverflow

def vpagesMap (space : VirtualSpace) (paddress order : Nat) :
    Except Fault (Option Nat × VirtualSpace) :=
  match findRun space.pages order space.nextFreeVpage vpageCount with
  | .error fault => .error fault
  | .ok none => .ok (none, space)
  | .ok (some start) =>
      let pages := mapPages space.pages start paddress (2 ^ order)
      if start = space.nextFreeVpage then
        match blockOrderSize order with
        | .error fault => .error fault
        | .ok size =>
            match fnfp pages (wordAdd space.nextFreeVpage size) with
            | .error fault => .error fault
            | .ok next => .ok (some start, ⟨pages, next⟩)
      else
        .ok (some start, ⟨pages, space.nextFreeVpage⟩)

def vpagesSmap (space : VirtualSpace) (paddress vaddress order : Nat) :
    VirtualSpace :=
  { space with pages := mapPages space.pages vaddress paddress (2 ^ order) }

def vpageSmap (space : VirtualSpace) (paddress vaddress : Nat) :
    VirtualSpace :=
  vpagesSmap space paddress vaddress 0

def vpagesReserve (space : VirtualSpace) (vaddress order : Nat) :
    VirtualSpace :=
  { space with pages := mapPages space.pages vaddress 0 (2 ^ order) }

def vpagesUnmap (space : VirtualSpace) (vaddress order : Nat) : VirtualSpace :=
  { space with pages := unmapPages space.pages vaddress (2 ^ order) }

def vpageUnmap (space : VirtualSpace) (vaddress : Nat) : VirtualSpace :=
  vpagesUnmap space vaddress 0

inductive VpageCall
  | map (paddress : Nat)
  | maps (paddress order : Nat)
  | smap (paddress vaddress : Nat)
  | smaps (paddress vaddress order : Nat)
  | reserve (vaddress order : Nat)
  | unmap (vaddress : Nat)
  | unmaps (vaddress order : Nat)

def vpageMachine : Machine Fault VirtualSpace VpageCall where
  step space
    | .map paddress => (vpageMap space paddress).map Prod.snd
    | .maps paddress order => (vpagesMap space paddress order).map Prod.snd
    | .smap paddress vaddress => .ok (vpageSmap space paddress vaddress)
    | .smaps paddress vaddress order =>
        .ok (vpagesSmap space paddress vaddress order)
    | .reserve vaddress order => .ok (vpagesReserve space vaddress order)
    | .unmap vaddress => .ok (vpageUnmap space vaddress)
    | .unmaps vaddress order => .ok (vpagesUnmap space vaddress order)

/-! What the loops do. -/

def CoversPage (vaddress count page : Nat) : Prop :=
  ∃ i < count, pageOf (vaddress + virtPageSize * i) = page

theorem mapPages_of_not_covers {pages : Nat → Option Nat}
    {vaddress paddress count page : Nat}
    (h : ¬ CoversPage vaddress count page) :
    mapPages pages vaddress paddress count page = pages page := by
  induction count with
  | zero => rfl
  | succ count ih =>
      have hne : page ≠ pageOf (vaddress + virtPageSize * count) :=
        fun heq => h ⟨count, Nat.lt_succ_self count, heq.symm⟩
      rw [mapPages, Function.update_of_ne hne]
      apply ih
      intro hcovers
      obtain ⟨i, hlt, hpage⟩ := hcovers
      exact h ⟨i, Nat.lt_succ_of_lt hlt, hpage⟩

theorem unmapPages_of_none {pages : Nat → Option Nat}
    {vaddress count page : Nat} (h : pages page = none) :
    unmapPages pages vaddress count page = none := by
  induction count with
  | zero => exact h
  | succ count ih =>
      rw [unmapPages]
      by_cases heq : page = pageOf (vaddress + virtPageSize * count)
      · rw [heq, Function.update_self]
      · rw [Function.update_of_ne heq]
        exact ih

theorem fnfp_not_present {pages : Nat → Option Nat} {nfp next : Nat}
    (hnfp : nfp < wordSize) (h : fnfp pages nfp = .ok next) :
    next < wordSize ∧ pages (pageOf next) = none := by
  have hloop : ∀ fuel address, address < wordSize →
      fnfpFrom pages address fuel = .ok next →
      next < wordSize ∧ pages (pageOf next) = none := by
    intro fuel
    induction fuel with
    | zero =>
        intro address _ h
        rw [fnfpFrom] at h
        cases h
    | succ fuel ih =>
        intro address haddress h
        rw [fnfpFrom] at h
        split at h
        · rename_i hnone
          cases h
          exact ⟨haddress, hnone⟩
        · exact ih _ (word_lt _) h
  exact hloop vpageCount nfp hnfp h

theorem runFree_iff {pages : Nat → Option Nat} {start count : Nat} :
    runFree pages start count = true ↔
      ∀ i < count, pages (pageOf (start + virtPageSize * i)) = none := by
  induction count with
  | zero => simp [runFree]
  | succ count ih =>
      rw [runFree, Bool.and_eq_true, ih, Option.isNone_iff_eq_none]
      constructor
      · intro h i hlt
        cases Nat.eq_or_lt_of_le (Nat.le_of_lt_succ hlt) with
        | inl heq => exact heq ▸ h.2
        | inr hlt => exact h.1 i hlt
      · intro h
        exact ⟨fun i hlt => h i (Nat.lt_succ_of_lt hlt),
          h count (Nat.lt_succ_self count)⟩

theorem pageOf_word (address offset : Nat) :
    pageOf (word address + offset) = pageOf (address + offset) := by
  simp only [pageOf, word, wordSize, virtPageSize]
  omega

/-- No page of the run of `2 ^ order` pages that starts `skip` pages after
`next_free_vpage` is present. -/
def FreeRun (space : VirtualSpace) (order skip : Nat) : Prop :=
  ∀ i < 2 ^ order,
    space.pages (pageOf (space.nextFreeVpage + virtPageSize * (skip + i))) =
      none

theorem findRun_first {space : VirtualSpace} {order : Nat} :
    ∀ {fuel skip start : Nat},
      findRun space.pages order
          (word (space.nextFreeVpage + virtPageSize * skip)) fuel =
        .ok (some start) →
      ∃ first, skip ≤ first ∧ first < skip + fuel ∧
        start = word (space.nextFreeVpage + virtPageSize * first) ∧
        FreeRun space order first ∧
        ∀ other, skip ≤ other → other < first → ¬ FreeRun space order other := by
  have hfree : ∀ skip, runFree space.pages
      (word (space.nextFreeVpage + virtPageSize * skip)) (2 ^ order) = true ↔
        FreeRun space order skip := by
    intro skip
    rw [runFree_iff]
    unfold FreeRun
    have hpage : ∀ i, pageOf (word (space.nextFreeVpage + virtPageSize * skip) +
        virtPageSize * i) =
          pageOf (space.nextFreeVpage + virtPageSize * (skip + i)) := by
      intro i
      rw [pageOf_word, Nat.mul_add, Nat.add_assoc]
    simp only [hpage]
  intro fuel
  induction fuel with
  | zero =>
      intro skip start h
      rw [findRun] at h
      cases h
  | succ fuel ih =>
      intro skip start h
      rw [findRun] at h
      split at h
      · split at h
        · rename_i hrun
          split at h
          · cases h
          · cases h
            exact ⟨skip, Nat.le_refl _, by omega, rfl, (hfree skip).mp hrun,
              by omega⟩
        · rename_i hrun
          have hnext : wordAdd
              (word (space.nextFreeVpage + virtPageSize * skip)) virtPageSize =
              word (space.nextFreeVpage + virtPageSize * (skip + 1)) := by
            simp only [wordAdd, word, wordSize, virtPageSize]
            omega
          rw [hnext] at h
          obtain ⟨first, hge, hlt, hstart, hfirst, hbefore⟩ := ih h
          refine ⟨first, by omega, by omega, hstart, hfirst, ?_⟩
          intro other hother hltOther
          cases Nat.eq_or_lt_of_le hother with
          | inl heq =>
              intro hcontra
              rw [← heq, ← hfree] at hcontra
              exact hrun hcontra
          | inr hgt => exact hbefore other hgt hltOther
      · cases h

/-! The cached page. -/

/-- `next_free_vpage` names a page that is not present. -/
structure VirtualSpace.Cached (space : VirtualSpace) : Prop where
  lt : space.nextFreeVpage < wordSize
  not_present : space.pages (pageOf space.nextFreeVpage) = none

theorem vpageInit_cached {pages : Nat → Option Nat} {space : VirtualSpace}
    (h : vpageInit pages = .ok space) : space.Cached := by
  unfold vpageInit at h
  simp only at h
  split at h
  · cases h
  · rename_i next hnext
    cases h
    obtain ⟨hlt, hnone⟩ := fnfp_not_present (by decide) hnext
    exact ⟨hlt, hnone⟩

/-- The call does not put a mapping over the page at `next_free_vpage` without
moving it: the fixed addresses avoid it, and a run found by `vpages_map` does
not wrap round onto it. -/
def VpageCall.Avoids (space : VirtualSpace) : VpageCall → Prop
  | .map _ => True
  | .maps _ order =>
      ∀ skip, 0 < skip → skip < vpageCount → vpageCount < skip + 2 ^ order →
        FreeRun space order skip → ∃ other < skip, FreeRun space order other
  | .smap _ vaddress => ¬ CoversPage vaddress 1 (pageOf space.nextFreeVpage)
  | .smaps _ vaddress order =>
      ¬ CoversPage vaddress (2 ^ order) (pageOf space.nextFreeVpage)
  | .reserve vaddress order =>
      ¬ CoversPage vaddress (2 ^ order) (pageOf space.nextFreeVpage)
  | .unmap _ => True
  | .unmaps _ _ => True

section

variable {space next : VirtualSpace}

theorem VirtualSpace.Cached.mapPages (hcached : space.Cached)
    {vaddress count : Nat} (paddress : Nat)
    (havoid : ¬ CoversPage vaddress count (pageOf space.nextFreeVpage)) :
    VirtualSpace.Cached
      { space with pages := mapPages space.pages vaddress paddress count } :=
  ⟨hcached.lt, (mapPages_of_not_covers havoid).trans hcached.not_present⟩

theorem VirtualSpace.Cached.unmapPages (hcached : space.Cached)
    (vaddress count : Nat) :
    VirtualSpace.Cached
      { space with pages := unmapPages space.pages vaddress count } :=
  ⟨hcached.lt, unmapPages_of_none hcached.not_present⟩

theorem VirtualSpace.Cached.vpageMap (hcached : space.Cached)
    {paddress address : Nat}
    (h : vpageMap space paddress = .ok (address, next)) :
    address = space.nextFreeVpage ∧ next.Cached := by
  unfold Paging.vpageMap at h
  simp only at h
  split at h
  · cases h
  · rename_i found hfound
    cases h
    obtain ⟨hlt, hnone⟩ := fnfp_not_present hcached.lt hfound
    exact ⟨rfl, hlt, hnone⟩

theorem vpagesMap_run (hword : space.nextFreeVpage < wordSize)
    {paddress order start : Nat}
    (h : vpagesMap space paddress order = .ok (some start, next)) :
    ∃ skip < vpageCount,
      start = word (space.nextFreeVpage + virtPageSize * skip) ∧
      FreeRun space order skip ∧
      (∀ other < skip, ¬ FreeRun space order other) ∧
      (if start = space.nextFreeVpage then next.Cached
        else next = ⟨mapPages space.pages start paddress (2 ^ order),
          space.nextFreeVpage⟩) := by
  unfold vpagesMap at h
  split at h
  · cases h
  · cases h
  · rename_i found hfound
    have hnext : found = start ∧
        (if start = space.nextFreeVpage then next.Cached
          else next = ⟨mapPages space.pages start paddress (2 ^ order),
            space.nextFreeVpage⟩) := by
      simp only at h
      split at h
      · rename_i hsame
        split at h
        · cases h
        · split at h
          · cases h
          · rename_i cached hcached
            cases h
            obtain ⟨hlt, hnone⟩ := fnfp_not_present (word_lt _) hcached
            refine ⟨rfl, ?_⟩
            rw [if_pos hsame]
            exact ⟨hlt, hnone⟩
      · rename_i hother
        cases h
        refine ⟨rfl, ?_⟩
        rw [if_neg hother]
    have hzero : word (space.nextFreeVpage + virtPageSize * 0) =
        space.nextFreeVpage := by
      rw [Nat.mul_zero, Nat.add_zero, word_of_lt hword]
    rw [← hzero] at hfound
    obtain ⟨skip, -, hlt, hskip, hfree, hbefore⟩ := findRun_first hfound
    exact ⟨skip, by omega, hnext.1 ▸ hskip, hfree,
      fun other hother => hbefore other (Nat.zero_le _) hother, hnext.2⟩

theorem VirtualSpace.Cached.vpagesMap (hcached : space.Cached)
    {paddress order : Nat} {result : Option Nat}
    (havoids : VpageCall.Avoids space (.maps paddress order))
    (h : vpagesMap space paddress order = .ok (result, next)) :
    next.Cached := by
  cases result with
  | none =>
      unfold Paging.vpagesMap at h
      split at h
      · cases h
      · cases h
        exact hcached
      · simp only at h
        split at h
        · split at h
          · cases h
          · split at h <;> cases h
        · cases h
  | some start =>
      obtain ⟨skip, hlt, hstart, hfree, hfirst, hnext⟩ :=
        vpagesMap_run hcached.lt h
      by_cases hsame : start = space.nextFreeVpage
      · rwa [if_pos hsame] at hnext
      · rw [if_neg hsame] at hnext
        subst hnext
        apply hcached.mapPages
        -- a run that starts elsewhere could only reach the page by wrapping
        intro hcovers
        obtain ⟨i, hi, hpage⟩ := hcovers
        have hpos : 0 < skip := by
          by_contra hzero
          have hskip : skip = 0 := by omega
          rw [hskip, Nat.mul_zero, Nat.add_zero, word_of_lt hcached.lt]
            at hstart
          exact hsame hstart
        have hwrap : vpageCount < skip + 2 ^ order := by
          by_contra hle
          rw [hstart, pageOf_word, Nat.add_assoc, ← Nat.mul_add] at hpage
          have hsum : skip + i < vpageCount := by omega
          have hlt := hcached.lt
          simp only [pageOf, word, wordSize, virtPageSize, vpageCount] at *
          omega
        obtain ⟨other, hother, hrun⟩ := havoids skip hpos hlt hwrap hfree
        exact hfirst other hother hrun

theorem VirtualSpace.Cached.step (hcached : space.Cached) {call : VpageCall}
    (havoids : call.Avoids space)
    (hstep : vpageMachine.step space call = .ok next) : next.Cached := by
  cases call with
  | map paddress =>
      cases hcall : Paging.vpageMap space paddress with
      | error fault => simp [vpageMachine, hcall, Except.map] at hstep
      | ok result =>
          simp only [vpageMachine, hcall, Except.map] at hstep
          cases hstep
          exact (hcached.vpageMap hcall).2
  | maps paddress order =>
      cases hcall : Paging.vpagesMap space paddress order with
      | error fault => simp [vpageMachine, hcall, Except.map] at hstep
      | ok result =>
          simp only [vpageMachine, hcall, Except.map] at hstep
          cases hstep
          exact hcached.vpagesMap havoids hcall
  | smap paddress vaddress =>
      cases hstep
      exact hcached.mapPages paddress havoids
  | smaps paddress vaddress order =>
      cases hstep
      exact hcached.mapPages paddress havoids
  | reserve vaddress order =>
      cases hstep
      exact hcached.mapPages 0 havoids
  | unmap vaddress =>
      cases hstep
      exact hcached.unmapPages vaddress _
  | unmaps vaddress order =>
      cases hstep
      exact hcached.unmapPages vaddress _

end

/-- What the allocating calls map was not present. -/
structure VirtualSpace.MapsFresh (space : VirtualSpace) : Prop where
  cached : space.pages (pageOf space.nextFreeVpage) = none
  single : ∀ paddress address next,
    vpageMap space paddress = .ok (address, next) →
    space.pages (pageOf address) = none
  run : ∀ paddress order start next,
    vpagesMap space paddress order = .ok (some start, next) →
    ∀ page, CoversPage start (2 ^ order) page → space.pages page = none

theorem VirtualSpace.Cached.mapsFresh {space : VirtualSpace}
    (hcached : space.Cached) : space.MapsFresh where
  cached := hcached.not_present
  single := by
    intro paddress address next hcall
    rw [(hcached.vpageMap hcall).1]
    exact hcached.not_present
  run := by
    intro paddress order start next hcall page hcovers
    obtain ⟨skip, -, hstart, hfree, -⟩ := vpagesMap_run hcached.lt hcall
    obtain ⟨i, hlt, hpage⟩ := hcovers
    rw [hstart, pageOf_word, Nat.add_assoc, ← Nat.mul_add] at hpage
    rw [← hpage]
    exact hfree i hlt

/-- In a run whose calls avoid the cached page, no allocating call maps a page
that is present. -/
theorem run_vpage_mapsFresh {pages : Nat → Option Nat}
    {init last : VirtualSpace} {calls : List VpageCall}
    (hinit : vpageInit pages = .ok init)
    (hguard : vpageMachine.Guarded
      (fun space call => call.Avoids space) init calls)
    (hrun : vpageMachine.run init calls = .ok last) : last.MapsFresh := by
  have hlast : last.Cached := Machine.run_invariant
    (fun _ _ _ hcached havoids hstep => hcached.step havoids hstep)
    (vpageInit_cached hinit) hguard hrun
  exact hlast.mapsFresh

/-- The pages that the boot tables map. -/
def bootPages : Nat → Option Nat :=
  fun page => if page < 512 then some page else none

theorem bootPages_smap_map :
    Returns (vpageInit bootPages) fun init =>
      init.nextFreeVpage = 0x200000 ∧
        Returns (vpageMachine.run init [.smap 0xB8000 0x300000, .map 0x5000])
          fun _ => True := by
  decide +kernel

theorem run_vpage_mapsFresh_smap :
    ∃ init last, vpageInit bootPages = .ok init ∧
      vpageMachine.run init [.smap 0xB8000 0x300000, .map 0x5000] =
        .ok last ∧
      last.MapsFresh := by
  obtain ⟨init, hinit, hnext, hreturns⟩ := returns_iff.mp bootPages_smap_map
  obtain ⟨last, hrun, -⟩ := returns_iff.mp hreturns
  have havoids : ¬ CoversPage 0x300000 1 (pageOf init.nextFreeVpage) := by
    intro hcovers
    obtain ⟨i, hi, hpage⟩ := hcovers
    have hzero : i = 0 := by omega
    subst hzero
    rw [hnext] at hpage
    exact absurd hpage (by decide)
  have hguard : vpageMachine.Guarded
      (fun space call => VpageCall.Avoids space call) init
      [.smap 0xB8000 0x300000, .map 0x5000] :=
    ⟨havoids, fun _ _ => ⟨trivial, fun _ _ => trivial⟩⟩
  exact ⟨init, last, hinit, hrun, run_vpage_mapsFresh hinit hguard hrun⟩

/-- A mapping at the cached address is overwritten by the next `vpage_map`. -/
theorem run_vpage_overwrites :
    Returns (vpageInit bootPages) fun init =>
      Returns (vpageMachine.run init [.smap 0xB8000 0x200000]) fun space =>
        Returns (vpageMap space 0x5000) fun result =>
          result.1 = 0x200000 ∧
            space.pages (pageOf 0x200000) = some (pageOf 0xB8000) ∧
            result.2.pages (pageOf 0x200000) = some (pageOf 0x5000) := by
  decide +kernel

end Synos.Paging

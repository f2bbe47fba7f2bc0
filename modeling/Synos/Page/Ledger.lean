import Synos.Page.Reserved

namespace Synos.Page

open Synos.Data

/-! Runs of `pages_alloc`, `page_free` and `pages_reserve` on one region, and
whether its count of free pages and its mark for a full region stay exact.  The
ledger remembers the pages handed out and not freed since. -/

structure Ledger (Map : Type := BpaMap) where
  region : Region Map
  live : List Nat

inductive Entry
  | alloc (order : Nat)
  | free (page : Nat)
  | reserve (order index : Nat)
  deriving DecidableEq, Repr

def pageAddresses (address order : Nat) : List Nat :=
  (List.range (2 ^ order)).map fun page => address + page * pageSize

/-- A block at address zero looks like a failure and is lost. -/
def Ledger.record {Map : Type} (region : Region Map) (live : List Nat)
    (address order : Nat) : Ledger Map :=
  ⟨region, if address = 0 then live else pageAddresses address order ++ live⟩

def ledgerMachine : Machine Fault Ledger Entry where
  step ledger
    | .alloc order =>
        match pagesAlloc ledger.region order with
        | .error fault => .error fault
        | .ok (address, region) =>
            .ok (Ledger.record region ledger.live address order)
    | .free page =>
        match pageFree ledger.region page with
        | .error fault => .error fault
        | .ok region => .ok ⟨region, ledger.live.erase page⟩
    | .reserve order index =>
        match pagesReserve ledger.region order index with
        | .error fault => .error fault
        | .ok (address, region) =>
            .ok (Ledger.record region ledger.live address order)

/-- A free names a live page, and a reserved block is wholly free. -/
def Entry.Legal (ledger : Ledger) : Entry → Prop
  | .alloc _ => True
  | .free page => page ∈ ledger.live
  | .reserve order index => order < maxOrder ∧
      ∀ page ∈ (⟨order, index⟩ : Block), ledger.region.map.free.Covers page

/-- The steps that keep the account: an allocation that fails only where nothing
is left, a free into a region that is not full, along a good hint, and a
reservation that reaches its block. -/
def Entry.Exact (ledger : Ledger) : Entry → Prop
  | .alloc order => maxOrder ≤ order ∨ ledger.region.pagesFree = 0 ∨
      ∃ other < maxOrder, order ≤ other ∧ 0 < ledger.region.map.pagesFree other
  | .free page => ledger.region.pagesFree ≠ 0 ∧
      (0 < ledger.region.map.pagesFree 0 ∨
        ledger.region.offsetOf page ≤ ledger.region.map.nextFreePage 0)
  | .reserve order index => ledger.region.map.Reaches ⟨order, index⟩

/-- The count of free pages is the weight of the map and has not wrapped, and
the region is marked full exactly when it is zero. -/
structure Region.Accounts (region : Region) : Prop where
  balanced : region.pagesFree = region.map.weight
  bounded : region.pagesFree ≤ region.pagesTotal
  full : region.memFull = true ↔ region.pagesFree = 0

/-- What a run keeps. -/
structure Ledger.Tracks (ledger : Ledger) (start size pages : Nat) : Prop where
  start_eq : ledger.region.start = start
  size_eq : ledger.region.size = size
  total_eq : ledger.region.pagesTotal = pages
  pages_eq : ledger.region.map.pages = pages
  wellFormed : ledger.region.map.WellFormed
  balanced : ledger.region.pagesFree = ledger.region.map.weight
  full : ledger.region.memFull = true ↔ ledger.region.pagesFree = 0
  held : ∀ address ∈ ledger.live, ∃ page < pages,
    address = start + page * pageSize ∧ ¬ ledger.region.map.free.Covers page
  nodup : ledger.live.Nodup

section

variable {ledger : Ledger} {start size pages : Nat}

theorem BpaMap.WellFormed.weight_le {map : BpaMap} (hmap : map.WellFormed) :
    map.weight ≤ map.pages := by
  rw [hmap.weight_eq]
  exact hmap.freePages_ncard_le

theorem Ledger.Tracks.accounts (htracks : ledger.Tracks start size pages) :
    ledger.region.Accounts := by
  refine ⟨htracks.balanced, ?_, htracks.full⟩
  have hle := htracks.wellFormed.weight_le
  rw [htracks.balanced, htracks.total_eq, ← htracks.pages_eq]
  exact hle

theorem mem_pageAddresses {start address : Nat} {block : Block} :
    address ∈ pageAddresses (start + pageSize * block.first) block.order ↔
      ∃ page ∈ block, address = start + page * pageSize := by
  simp only [pageAddresses, List.mem_map, List.mem_range, Block.mem_iff]
  constructor
  · rintro ⟨page, hlt, rfl⟩
    refine ⟨block.first + page, ⟨by omega, by omega⟩, ?_⟩
    ring
  · rintro ⟨page, ⟨hge, hlt⟩, rfl⟩
    refine ⟨page - block.first, by omega, ?_⟩
    rw [Nat.mul_comm pageSize, Nat.add_assoc, ← Nat.add_mul]
    congr 2
    omega

theorem pageAddresses_nodup (address order : Nat) :
    (pageAddresses address order).Nodup := by
  apply List.Nodup.map _ List.nodup_range
  intro first second heq
  simp only [pageSize] at heq
  omega

theorem Ledger.Tracks.take (htracks : ledger.Tracks start size pages)
    (hspace : start + pages * pageSize ≤ wordSize) {block : Block}
    (hfree : ∀ page ∈ block, ledger.region.map.free.Covers page) {map : BpaMap}
    (hwell : map.WellFormed) (hpages : map.pages = ledger.region.map.pages)
    (hcovers : ∀ page, map.free.Covers page ↔
      ledger.region.map.free.Covers page ∧ page ∉ block) :
    (Ledger.record (ledger.region.afterAlloc block.order map) ledger.live
      (ledger.region.address block) block.order).Tracks start size pages := by
  have hweight := htracks.wellFormed.weight_remove hwell hfree hcovers
  have hlt := htracks.wellFormed.weight_lt
  have hbalanced := htracks.balanced
  have hpos := Nat.two_pow_pos block.order
  have haddress : ledger.region.address block =
      start + pageSize * block.first := by
    rw [← htracks.start_eq]
    apply Region.Addressable.address_eq
    · rw [Region.Addressable, htracks.start_eq, htracks.pages_eq]
      exact hspace
    · exact htracks.wellFormed.inside hfree
  have hdrop : (ledger.region.afterAlloc block.order map).pagesFree =
      ledger.region.pagesFree - 2 ^ block.order :=
    wordSub_of_le (by omega) (by omega)
  have hnotFull : ledger.region.memFull = false := by
    by_contra hfull
    have := htracks.full.mp (by simpa using hfull)
    omega
  have hold : ∀ address ∈ ledger.live, ∃ page < pages,
      address = start + page * pageSize ∧ ¬ map.free.Covers page := by
    intro address hmem
    obtain ⟨page, hpage, heq, hnot⟩ := htracks.held address hmem
    exact ⟨page, hpage, heq, fun hcovered => hnot ((hcovers page).mp hcovered).1⟩
  refine ⟨htracks.start_eq, htracks.size_eq, htracks.total_eq,
    hpages.trans htracks.pages_eq, hwell, ?_, ?_, ?_, ?_⟩
  · change (ledger.region.afterAlloc block.order map).pagesFree = map.weight
    omega
  · change (ledger.region.afterAlloc block.order map).memFull = true ↔
      (ledger.region.afterAlloc block.order map).pagesFree = 0
    rw [hdrop]
    simp only [Region.afterAlloc, hnotFull, Bool.false_or, decide_eq_true_eq]
    omega
  · intro address hmem
    simp only [Ledger.record] at hmem
    split at hmem
    · exact hold address hmem
    · rw [List.mem_append, haddress, mem_pageAddresses] at hmem
      cases hmem with
      | inl hnew =>
          obtain ⟨page, hpage, heq⟩ := hnew
          refine ⟨page, ?_, heq, fun hcovered =>
            ((hcovers page).mp hcovered).2 hpage⟩
          rw [← htracks.pages_eq]
          exact htracks.wellFormed.lt_pages (hfree page hpage)
      | inr hmem => exact hold address hmem
  · simp only [Ledger.record]
    split
    · exact htracks.nodup
    · refine (pageAddresses_nodup _ _).append htracks.nodup ?_
      rw [List.disjoint_left, haddress]
      intro address hnew hmem
      obtain ⟨page, hpage, heq⟩ := mem_pageAddresses.mp hnew
      obtain ⟨other, -, hother, hnot⟩ := htracks.held address hmem
      have hsame : page = other := by
        simp only [pageSize] at heq hother
        omega
      exact hnot (hsame ▸ hfree page hpage)

theorem Ledger.Tracks.erase (htracks : ledger.Tracks start size pages)
    (page : Nat) (lock : Bool) :
    Ledger.Tracks ⟨{ ledger.region with lock := lock },
      ledger.live.erase page⟩ start size pages :=
  ⟨htracks.start_eq, htracks.size_eq, htracks.total_eq, htracks.pages_eq,
    htracks.wellFormed, htracks.balanced, htracks.full,
    fun address hmem => htracks.held address (List.mem_of_mem_erase hmem),
    htracks.nodup.sublist List.erase_sublist⟩

theorem Ledger.Tracks.alloc (htracks : ledger.Tracks start size pages)
    (hspace : start + pages * pageSize ≤ wordSize) {order : Nat}
    (hexact : Entry.Exact ledger (.alloc order)) {next : Ledger}
    (hstep : ledgerMachine.step ledger (.alloc order) = .ok next) :
    next.Tracks start size pages := by
  by_cases horder : order < maxOrder
  · cases hlock : ledger.region.lock with
    | true =>
        simp [ledgerMachine, pagesAlloc, spinlockLock, hlock,
          Nat.not_le_of_lt horder] at hstep
    | false =>
        cases pagesAlloc_cases htracks.wellFormed hlock horder with
        | inl hnone =>
            obtain ⟨hcall, hempty⟩ := hnone
            have hzero : ledger.region.pagesFree = 0 := by
              rcases hexact with hge | hzero | ⟨other, hother, hle, hpos⟩
              · omega
              · exact hzero
              · rw [hempty other hle hother] at hpos
                omega
            have hsame : outOfMem ledger.region = ledger.region := by
              have hfull := htracks.full.mpr hzero
              simp [outOfMem, ← hfull]
            simp only [ledgerMachine, hcall, hsame] at hstep
            cases hstep
            exact htracks
        | inr htakes =>
            obtain ⟨block, map, htakes⟩ := htakes
            obtain rfl := htakes.order_eq
            simp only [ledgerMachine, htakes.call] at hstep
            cases hstep
            exact htracks.take hspace htakes.was_free htakes.wellFormed
              htakes.pages_eq htakes.covers
  · simp only [ledgerMachine, pagesAlloc, if_pos (Nat.le_of_not_lt horder)]
      at hstep
    cases hstep
    exact htracks

theorem pagesReserve_shape {region : Region} (hlock : region.lock = false)
    (order index : Nat) :
    ∃ map, pagesReserve region order index =
        .ok (region.address ⟨order, index⟩, region.afterAlloc order map) ∧
      map.pages = region.map.pages := by
  simp only [pagesReserve, spinlockLock, hlock, Bool.false_eq_true, if_false]
  split
  · exact ⟨_, rfl, reserveBlock_pages _ _ _⟩
  · refine ⟨_, rfl, ?_⟩
    split
    · rw [reserveBlock_pages, splitDown_pages]
    · exact splitDown_pages _ _ _ _

theorem Ledger.Tracks.reserve (htracks : ledger.Tracks start size pages)
    (hspace : start + pages * pageSize ≤ wordSize) {order index : Nat}
    (hlegal : Entry.Legal ledger (.reserve order index))
    (hexact : Entry.Exact ledger (.reserve order index)) {next : Ledger}
    (hstep : ledgerMachine.step ledger (.reserve order index) = .ok next) :
    next.Tracks start size pages := by
  cases hlock : ledger.region.lock with
  | true => simp [ledgerMachine, pagesReserve, spinlockLock, hlock] at hstep
  | false =>
      have hbalanced : ledger.region.Balanced :=
        ⟨htracks.wellFormed, hlock, htracks.balanced⟩
      have hreaches : ledger.region.map.Reaches ⟨order, index⟩ := hexact
      have hholds := hreaches.holds
      obtain ⟨outer, hfree, hinside, hgood⟩ := hreaches
      have hreserves :=
        (pagesReserve_inside_iff hbalanced hfree hinside).mpr hgood
      obtain ⟨map, hcall, hpages⟩ := pagesReserve_shape hlock order index
      simp only at hreserves
      rw [hcall] at hreserves
      simp only [ledgerMachine, hcall] at hstep
      cases hstep
      exact htracks.take hspace hlegal.2
        (hreserves.balanced hholds).wellFormed hpages (hreserves.covers hholds)

theorem Ledger.Tracks.page_held (htracks : ledger.Tracks start size pages)
    {offset : Nat} (hoffset : offset < pages)
    (hnot : ¬ ledger.region.map.free.Covers offset) :
    ledger.region.map.Held ⟨0, offset⟩ := by
  refine ⟨by simp [maxOrder], ?_, ?_⟩
  · rw [htracks.pages_eq]
    simpa using hoffset
  · intro point hpoint
    rw [Block.mem_def] at hpoint
    simp only [pow_zero, Nat.div_one] at hpoint
    exact hpoint ▸ hnot

theorem Ledger.Tracks.returned (htracks : ledger.Tracks start size pages)
    {offset : Nat} {map : BpaMap} (hwell : map.WellFormed)
    (hpages : map.pages = ledger.region.map.pages)
    (hcovers : ∀ page, map.free.Covers page ↔
      ledger.region.map.free.Covers page ∨ page ∈ (⟨0, offset⟩ : Block))
    (hnot : ∀ page ∈ (⟨0, offset⟩ : Block),
      ¬ ledger.region.map.free.Covers page)
    (hsome : ledger.region.pagesFree ≠ 0) :
    Ledger.Tracks ⟨ledger.region.afterFree 0 map,
      ledger.live.erase (start + offset * pageSize)⟩ start size pages := by
  have hweight := htracks.wellFormed.weight_add hwell hnot hcovers
  have hlt := hwell.weight_lt
  have hbalanced := htracks.balanced
  have hgrow : wordAdd ledger.region.pagesFree (2 ^ 0) =
      ledger.region.pagesFree + 1 :=
    wordAdd_of_lt (by simp only at hweight; omega)
  have hnotFull : ledger.region.memFull = false := by
    by_contra hfull
    exact hsome (htracks.full.mp (by simpa using hfull))
  refine ⟨htracks.start_eq, htracks.size_eq, htracks.total_eq,
    hpages.trans htracks.pages_eq, hwell, ?_, ?_, ?_,
    htracks.nodup.sublist List.erase_sublist⟩
  · simp only [Region.afterFree, hgrow, hweight]
    omega
  · simp only [Region.afterFree, hgrow, hnotFull, hsome, decide_false,
      Bool.or_false, Bool.false_eq_true, false_iff]
    omega
  · intro address hmem
    rw [htracks.nodup.mem_erase_iff] at hmem
    obtain ⟨other, hother, heq, hotherNot⟩ := htracks.held address hmem.2
    refine ⟨other, hother, heq, fun hcovered => ?_⟩
    cases (hcovers other).mp hcovered with
    | inl hold => exact hotherNot hold
    | inr hnew =>
        rw [Block.mem_def] at hnew
        simp only [pow_zero, Nat.div_one] at hnew
        exact hmem.1 (hnew ▸ heq)

theorem Ledger.Tracks.offsetOf_eq (htracks : ledger.Tracks start size pages)
    (offset : Nat) :
    ledger.region.offsetOf (start + offset * pageSize) = offset := by
  rw [Region.offsetOf, htracks.start_eq, Nat.add_sub_cancel_left]
  exact Nat.mul_div_cancel offset (by decide)

theorem Ledger.Tracks.free (htracks : ledger.Tracks start size pages)
    {page : Nat}
    (hlegal : Entry.Legal ledger (.free page))
    (hexact : Entry.Exact ledger (.free page)) {next : Ledger}
    (hstep : ledgerMachine.step ledger (.free page) = .ok next) :
    next.Tracks start size pages := by
  cases hlock : ledger.region.lock with
  | true =>
      simp [ledgerMachine, pageFree, pagesFree, spinlockLock, hlock] at hstep
  | false =>
      obtain ⟨offset, hoffset, rfl, hnot⟩ := htracks.held page hlegal
      have hheld := htracks.page_held hoffset hnot
      have hplace := htracks.offsetOf_eq offset
      by_cases hset : ledger.region.Contains (start + offset * pageSize) ∧
          ledger.region.map.freeArea 0 (ledger.region.offsetOf
            (start + offset * pageSize)) = true
      · have hcall := pagesFree_of_set hlock hset.1 hset.2
        rw [hplace] at hcall
        obtain ⟨hsome, hhint⟩ := hexact
        rw [hplace] at hhint
        simp only [ledgerMachine, pageFree, hcall] at hstep
        cases hstep
        exact htracks.returned
          (returnBlock_wellFormed htracks.wellFormed hheld hhint)
          (returnBlock_pages ledger.region.map (by decide))
          (returnBlock_covers ledger.region.map (by decide)) hheld.not_free
          hsome
      · have hcall := pagesFree_of_not_set hlock hset
        simp only [ledgerMachine, pageFree, hcall] at hstep
        cases hstep
        exact htracks.erase _ true

theorem Ledger.Tracks.step (htracks : ledger.Tracks start size pages)
    (hspace : start + pages * pageSize ≤ wordSize) {entry : Entry}
    (hlegal : entry.Legal ledger) (hexact : entry.Exact ledger) {next : Ledger}
    (hstep : ledgerMachine.step ledger entry = .ok next) :
    next.Tracks start size pages := by
  cases entry with
  | alloc order => exact htracks.alloc hspace hexact hstep
  | free page => exact htracks.free hlegal hexact hstep
  | reserve order index => exact htracks.reserve hspace hlegal hexact hstep

end

theorem regionMap_ledger {region fresh : Region} {pages : Nat}
    (hpages : 0 < pages)
    (hspace : region.start + pages * pageSize ≤ wordSize)
    (hfresh : regionMap region pages = .ok fresh) :
    Ledger.Tracks ⟨fresh, []⟩ region.start region.size pages := by
  have hlt : pages < wordSize := by
    simp only [pageSize, wordSize] at *
    omega
  cases hlock : region.lock with
  | true => simp [regionMap, spinlockLock, hlock] at hfresh
  | false =>
      rw [regionMap_eq region pages hlock] at hfresh
      cases hfresh
      refine ⟨rfl, rfl, rfl, rfl, partitionMap_wellFormed hlt,
        (partitionMap_weight pages).symm, ?_, fun _ hmem => absurd hmem List.not_mem_nil,
        .nil⟩
      simp only [Bool.false_eq_true, false_iff]
      omega

end Synos.Page

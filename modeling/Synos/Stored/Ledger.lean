import Synos.Stored.CallRun
import Synos.Stored.Read
import Synos.Stored.Reserve
import Synos.Page.Ledger

namespace Synos.Stored

open Synos.Data
open Synos.Page

/-! The ledger of a region with its tables in memory. -/

def ledgerMachine : Machine Fault (Ledger StoredMap) Entry where
  step ledger
    | .alloc order =>
        match pagesAlloc ledger.region order with
        | .error fault => .error fault
        | .ok (address, region) =>
            .ok (Ledger.record region ledger.live address order)
    | .free page =>
        match pageFree ledger.region page with
        | .error fault => .error fault
        | .ok region => .ok ⟨region, ledger.live.erase page⟩
    | .reserve order index =>
        match pagesReserve ledger.region order index with
        | .error fault => .error fault
        | .ok (address, region) =>
            .ok (Ledger.record region ledger.live address order)

def readLedger (ledger : Ledger StoredMap) : Ledger :=
  ⟨readRegion ledger.region, ledger.live⟩

/-- The ledgers with the tables in memory and with a map of its own, and what the
run keeps of the latter. -/
structure Place.Records (place : Place) (origin : Memory) (start size : Nat)
    (stored : Ledger StoredMap) (ledger : Ledger) : Prop where
  mirrors : place.Mirrors origin stored.region ledger.region
  live_eq : stored.live = ledger.live
  tracks : ledger.Tracks start size place.pages

section

variable {place : Place} {origin : Memory} {start size : Nat}
  {stored : Ledger StoredMap} {ledger : Ledger} {entry : Entry}

theorem Place.Records.legal (hrecords : place.Records origin start size stored ledger) :
    entry.Legal (readLedger stored) ↔ entry.Legal ledger := by
  cases entry with
  | alloc order => exact Iff.rfl
  | free page => simp only [Entry.Legal, readLedger, hrecords.live_eq]
  | reserve order index =>
      simp only [Entry.Legal, readLedger,
        hrecords.mirrors.read.2.free_eq]

theorem Place.Records.exact (hrecords : place.Records origin start size stored ledger) :
    entry.Exact (readLedger stored) ↔ entry.Exact ledger := by
  obtain ⟨hregion, hsame⟩ := hrecords.mirrors.read
  have hpages : (readRegion stored.region).pagesFree =
      ledger.region.pagesFree := by
    rw [hregion]
    rfl
  have hstart : (readRegion stored.region).start = ledger.region.start := by
    rw [hregion]
    rfl
  cases entry with
  | alloc order =>
      simp only [Entry.Exact, readLedger, hpages]
      refine or_congr_right (or_congr_right (exists_congr fun other =>
        and_congr_right fun hother => ?_))
      rw [hsame.count_eq hother]
  | free page =>
      simp only [Entry.Exact, readLedger, hpages, Region.offsetOf, hstart,
        hsame.count_eq (show 0 < maxOrder by decide),
        hsame.hint_eq (show 0 < maxOrder by decide)]
  | reserve order index => exact hsame.reaches_iff

theorem Place.Records.step
    (hrecords : place.Records origin start size stored ledger)
    (hspace : start + place.pages * pageSize ≤ wordSize)
    (hlegal : entry.Legal ledger) (hexact : entry.Exact ledger) :
    Simulates (place.Records origin start size)
      (ledgerMachine.step stored entry)
      (Page.ledgerMachine.step ledger entry) := by
  have htracks := hrecords.tracks
  suffices hsim : Simulates
      (fun stored ledger => place.Mirrors origin stored.region ledger.region ∧
        stored.live = ledger.live)
      (ledgerMachine.step stored entry)
      (Page.ledgerMachine.step ledger entry) by
    rcases hsim.cases with
      ⟨fault, hfirst, hsecond⟩ | ⟨next, other, hfirst, hsecond, hnext⟩
    · rw [hfirst, hsecond]
      rfl
    · rw [hfirst, hsecond]
      exact ⟨hnext.1, hnext.2, htracks.step hspace hlegal hexact hsecond⟩
  cases entry with
  | alloc order =>
      simp only [ledgerMachine, Page.ledgerMachine]
      rcases (hrecords.mirrors.pagesAlloc order).cases with
        ⟨fault, hfirst, hsecond⟩ | ⟨reply, other, hfirst, hsecond, hreply⟩
      · rw [hfirst, hsecond]
        rfl
      · rw [hfirst, hsecond]
        refine ⟨hreply.2, ?_⟩
        simp only [Ledger.record, hreply.1, hrecords.live_eq]
  | free page =>
      have hplace : ledger.region.offsetOf page < place.pages / 2 ^ 0 := by
        obtain ⟨offset, hoffset, rfl, -⟩ := htracks.held page hlegal
        rw [htracks.offsetOf_eq offset, pow_zero, Nat.div_one]
        exact hoffset
      have hfree := hrecords.mirrors.pagesFree (show 0 < maxOrder by decide)
        fun _ => hplace
      simp only [ledgerMachine, Page.ledgerMachine, Stored.pageFree,
        Page.pageFree]
      rcases hfree.cases with
        ⟨fault, hfirst, hsecond⟩ | ⟨reply, other, hfirst, hsecond, hreply⟩
      · rw [hfirst, hsecond]
        rfl
      · rw [hfirst, hsecond]
        exact ⟨hreply, congrArg (fun live => live.erase page) hrecords.live_eq⟩
  | reserve order index =>
      obtain ⟨outer, hfree, hinside, -⟩ := hexact
      have hlt := hrecords.mirrors.2.padded.clear_lt outer.order hfree.1
        outer.index hfree.2
      have hreserve := hrecords.mirrors.pagesReserve
        (hrecords.mirrors.2.fits.inBitmap (inArea_of_inside hlt hfree.1 hinside))
        (hrecords.mirrors.2.fits.climbs hlt hfree hinside)
      simp only [ledgerMachine, Page.ledgerMachine]
      rcases hreserve.cases with
        ⟨fault, hfirst, hsecond⟩ | ⟨reply, other, hfirst, hsecond, hreply⟩
      · rw [hfirst, hsecond]
        rfl
      · rw [hfirst, hsecond]
        refine ⟨hreply.2, ?_⟩
        simp only [Ledger.record, hreply.1, hrecords.live_eq]

theorem Place.Records.run
    (hrecords : place.Records origin start size stored ledger)
    (hspace : start + place.pages * pageSize ≤ wordSize) {entries : List Entry}
    (hguard : Page.ledgerMachine.Guarded
      (fun ledger entry => entry.Legal ledger ∧ entry.Exact ledger)
      ledger entries) :
    Simulates (place.Records origin start size)
        (ledgerMachine.run stored entries)
        (Page.ledgerMachine.run ledger entries) ∧
      ledgerMachine.Guarded (fun ledger entry =>
        entry.Legal (readLedger ledger) ∧ entry.Exact (readLedger ledger))
        stored entries := by
  have hstep := fun ledger stored (entry : Entry)
      (hstate : place.Records origin start size stored ledger)
      (hentry : entry.Legal ledger ∧ entry.Exact ledger) =>
    (hstate.step hspace hentry.1 hentry.2).symm
  constructor
  · exact (@Machine.run_simulates _ _ _ Page.ledgerMachine _ _ ledgerMachine
      (fun ledger stored => place.Records origin start size stored ledger)
      hstep _ _ _ hrecords hguard).symm
  · exact @Machine.guarded_simulates _ _ _ Page.ledgerMachine _ _ ledgerMachine
      (fun ledger stored => place.Records origin start size stored ledger) _
      hstep (fun ledger stored (entry : Entry) hstate hentry =>
        ⟨hstate.legal.mpr hentry.1, hstate.exact.mpr hentry.2⟩) _ _ _ hrecords
      hguard

theorem accounts_withMap {region : Region} {map : BpaMap}
    (hsame : SameMap map region.map) :
    (withMap region map).Accounts ↔ region.Accounts := by
  have hweight := hsame.weight_eq
  constructor
  · rintro ⟨hbalanced, hbounded, hfull⟩
    exact ⟨Eq.trans hbalanced hweight, hbounded, hfull⟩
  · rintro ⟨hbalanced, hbounded, hfull⟩
    exact ⟨Eq.trans hbalanced hweight.symm, hbounded, hfull⟩

theorem Place.Mirrors.accounts {region : Region StoredMap} {other : Region}
    (hmirrors : place.Mirrors origin region other) :
    (readRegion region).Accounts ↔ other.Accounts := by
  rw [hmirrors.read.1]
  exact accounts_withMap hmirrors.read.2

end

theorem regionMap_records {place : Place} {memory : Memory}
    {region : Region Nat} {fresh : Region StoredMap} (hpos : 0 < place.pages)
    (hspace : region.start + place.pages * pageSize ≤ wordSize)
    (hfits : place.Fits) (hones : place.OnesBehind memory)
    (hfresh : regionMap memory region place.pages place.map place.table =
      .ok fresh) :
    ∃ other, place.Records memory region.start region.size ⟨fresh, []⟩
      ⟨other, []⟩ := by
  have hpages : place.pages < wordSize := by
    simp only [pageSize, wordSize] at *
    omega
  obtain ⟨other, hother, hmirrors⟩ :=
    (regionMap_mirrors region (blankMap 0) hfits hpages hones).exists_right
      hfresh
  exact ⟨other, hmirrors, rfl, regionMap_ledger hpos hspace hother⟩

/-- In a run of exact steps on a region whose bitmaps have room in memory, the
count of free pages stays the weight of the map and the region is marked full
exactly when it is zero. -/
theorem run_ledger_accounts {place : Place} {memory : Memory}
    {region : Region Nat} {fresh : Region StoredMap} {entries : List Entry}
    {ledger : Ledger StoredMap} (hpos : 0 < place.pages)
    (hspace : region.start + place.pages * pageSize ≤ wordSize)
    (hfits : place.Fits) (hones : place.OnesBehind memory)
    (hfresh : regionMap memory region place.pages place.map place.table =
      .ok fresh)
    (hguard : ledgerMachine.Guarded (fun ledger entry =>
      entry.Legal (readLedger ledger) ∧ entry.Exact (readLedger ledger))
      ⟨fresh, []⟩ entries)
    (hrun : ledgerMachine.run ⟨fresh, []⟩ entries = .ok ledger) :
    (readLedger ledger).region.Accounts := by
  obtain ⟨other, hrecords⟩ :=
    regionMap_records hpos hspace hfits hones hfresh
  obtain ⟨last, -, hlast⟩ := (Machine.run_simulates
    (fun stored ledger entry hstate hentry =>
      hstate.step hspace (hstate.legal.mp hentry.1)
        (hstate.exact.mp hentry.2)) hrecords hguard).exists_right hrun
  exact hlast.mirrors.accounts.mpr hlast.tracks.accounts

/-- One page is handed out and the other one reserved. -/
theorem run_ledger_accounts_pair :
    Returns (regionMap pairMemory pairRegion 2 0x8000 0x9000) fun fresh =>
      Returns (ledgerMachine.run ⟨fresh, []⟩ [.alloc 0, .reserve 0 1])
        fun ledger => (readLedger ledger).region.Accounts := by
  have hruns : Returns (Page.regionMap Page.pairRegion 2) fun fresh =>
      0 < fresh.map.pagesFree 1 ∧
        Returns (Page.ledgerMachine.step ⟨fresh, []⟩ (.alloc 0)) fun middle =>
          middle.region.map.freeArea 0 1 = false ∧
            Returns (Page.ledgerMachine.step middle (.reserve 0 1))
              fun _ => True := by
    decide +kernel
  obtain ⟨other, hother, hpos, hmiddle⟩ := returns_iff.mp hruns
  obtain ⟨middle, hstep, hfree, hlast⟩ := returns_iff.mp hmiddle
  obtain ⟨last, hend, -⟩ := returns_iff.mp hlast
  have hrun : Page.ledgerMachine.run ⟨other, []⟩ [.alloc 0, .reserve 0 1] =
      .ok last :=
    Machine.run_cons_ok.mpr ⟨middle, hstep,
      Machine.run_cons_ok.mpr ⟨last, hend, rfl⟩⟩
  have hmem : (⟨0, 1⟩ : Block) ∈ middle.region.map.free := ⟨by decide, hfree⟩
  have hguard : Page.ledgerMachine.Guarded
      (fun ledger entry => entry.Legal ledger ∧ entry.Exact ledger)
      ⟨other, []⟩ [.alloc 0, .reserve 0 1] := by
    refine ⟨⟨trivial, .inr (.inr ⟨1, by decide, by decide, hpos⟩)⟩, ?_⟩
    intro next hnext
    rw [hstep] at hnext
    cases hnext
    refine ⟨⟨⟨by decide, fun page hpage => ⟨_, hmem, hpage⟩⟩, ⟨0, 1⟩, hmem,
      fun _ h => h, by decide, ?_⟩, fun _ _ => trivial⟩
    intro order _ hlt
    exact (Nat.not_lt_zero order hlt).elim
  obtain ⟨fresh, hfresh, hreflects⟩ := pairPlace_fresh hother
  have hrecords : pairPlace.Records pairMemory 0x200000 0x2000 ⟨fresh, []⟩
      ⟨other, []⟩ :=
    ⟨hreflects.mirrors, rfl,
      regionMap_ledger (by decide) (by decide) hother⟩
  obtain ⟨hsim, hstored⟩ := hrecords.run (by decide) hguard
  obtain ⟨ledger, hledger, -⟩ := hsim.exists_left hrun
  refine returns_iff.mpr ⟨fresh, hfresh, returns_iff.mpr ⟨ledger, hledger, ?_⟩⟩
  exact run_ledger_accounts (by decide) (by decide) pairPlace_fits
    pairPlace_ones hfresh hstored hledger

/-- A request that is too large marks a region with two free pages as full. -/
theorem run_ledger_false_full :
    Returns (regionMap pairMemory pairRegion 2 0x8000 0x9000) fun fresh =>
      ledgerMachine.Guarded (fun ledger entry => entry.Legal (readLedger ledger))
          ⟨fresh, []⟩ [.alloc 2] ∧
        Returns (ledgerMachine.run ⟨fresh, []⟩ [.alloc 2]) fun ledger =>
          ¬ (readLedger ledger).region.Accounts := by
  have hruns : Returns (Page.regionMap Page.pairRegion 2) fun fresh =>
      Returns (Page.pagesAlloc fresh 2) fun reply =>
        reply.2.memFull = true ∧ reply.2.pagesFree = 2 := by
    decide +kernel
  obtain ⟨other, hother, hruns⟩ := returns_iff.mp hruns
  obtain ⟨⟨address, after⟩, hcall, hfull, hcount⟩ := returns_iff.mp hruns
  obtain ⟨fresh, hfresh, hreflects⟩ := pairPlace_fresh hother
  obtain ⟨⟨same, region⟩, hstored, -, hmirrors⟩ :=
    (hreflects.mirrors.pagesAlloc 2).exists_left hcall
  have hstep : ledgerMachine.step ⟨fresh, []⟩ (.alloc 2) =
      .ok (Ledger.record region [] same 2) := by
    simp only [ledgerMachine, hstored]
  refine returns_iff.mpr ⟨fresh, hfresh, ⟨trivial, fun _ _ => trivial⟩,
    returns_iff.mpr ⟨_, Machine.run_cons_ok.mpr ⟨_, hstep, rfl⟩, ?_⟩⟩
  intro haccounts
  have hzero := (hmirrors.accounts.mp haccounts).full.mp hfull
  exact absurd (hcount.symm.trans hzero) (by decide)

end Synos.Stored

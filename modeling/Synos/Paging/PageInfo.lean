import Synos.Paging.Rights

namespace Synos.Paging

open Synos.Data

/-! Looking up the physical address of a page. -/

/-- The address `page_info` computes for the leaf entry. -/
def pageInfoAddress (vaddress : BitVec 64) : BitVec 64 :=
  ((vaddress >>> 9) &&& ~~~3#64) ||| (511#64 <<< 39)

def pageInfo (tables : Tables) (vaddress : BitVec 64) :
    Except Fault (BitVec 64) :=
  match pageIspresent tables vaddress 1 with
  | .error fault => .error fault
  | .ok false => .ok 0
  | .ok true => load tables (pageInfoAddress vaddress)

def pgaGetPhysAddr (tables : Tables) (vaddress : BitVec 64) :
    Except Fault (BitVec 64) :=
  (pageInfo tables vaddress).map fun pinfo =>
    pinfo &&& ~~~0xFFF#64 &&& ~~~(0xFFF#64 <<< 52)

/-- `page_info` reads the leaf entry of a present page where
`get_table_address` puts it, and finds nothing for other pages. -/
structure InfoAgrees (tables : Tables) (vaddress : BitVec 64) : Prop where
  present : presentAt tables.memory tables.root vaddress 1 = true →
    canonical (pageInfoAddress vaddress) ∧
      pageInfoAddress vaddress = getTableAddress vaddress 1 ∧
      ∃ entry,
        entryAt tables.memory tables.root vaddress 1 = some entry ∧
        pageInfo tables vaddress = .ok entry
  absent : presentAt tables.memory tables.root vaddress 1 = false →
    pageInfo tables vaddress = .ok 0 ∧
      pgaGetPhysAddr tables vaddress = .ok 0

/-- Bit 47 is set and bit 63 is not. -/
theorem pageInfoAddress_not_canonical (vaddress : BitVec 64) :
    ¬ canonical (pageInfoAddress vaddress) := by
  have hones : ∀ bit < 64,
      (511#64 <<< 39).getLsbD bit = decide (39 ≤ bit ∧ bit < 48) := by
    intro bit hbit
    have h := @getLsbD_ones_shiftLeft 9 39 bit (by decide) hbit
    rwa [show 2 ^ 9 - 1 = 511 from rfl] at h
  have hsign : (pageInfoAddress vaddress).getLsbD 47 = true := by
    rw [pageInfoAddress, BitVec.getLsbD_or, hones 47 (by decide)]
    simp
  have htop : (pageInfoAddress vaddress).getLsbD 63 = false := by
    rw [pageInfoAddress, BitVec.getLsbD_or, hones 63 (by decide),
      BitVec.getLsbD_and, BitVec.getLsbD_ushiftRight,
      BitVec.getLsbD_of_ge _ _ (by decide)]
    simp
  intro hcanonical
  have hcopied : (pageInfoAddress vaddress).getLsbD 63 =
      (pageInfoAddress vaddress).getLsbD 47 := by
    rw [← hcanonical, BitVec.getLsbD_signExtend, BitVec.getLsbD_signExtend]
    simp [BitVec.msb_eq_getLsbD_last]
  rw [hsign, htop] at hcopied
  cases hcopied

section

variable {tables : Tables} {vaddress : BitVec 64}

theorem load_pageInfoAddress :
    load tables (pageInfoAddress vaddress) = .error .pageFault := by
  rw [load, walk, if_neg (pageInfoAddress_not_canonical vaddress)]

theorem pageInfo_of_present
    (hpresent : pageIspresent tables vaddress 1 = .ok true) :
    pageInfo tables vaddress = .error .pageFault := by
  rw [pageInfo, hpresent]
  exact load_pageInfoAddress

theorem pageInfo_of_absent
    (habsent : pageIspresent tables vaddress 1 = .ok false) :
    pageInfo tables vaddress = .ok 0 := by
  rw [pageInfo, habsent]

/-- The lookup only ever returns zero, for a page that is not present. -/
theorem pgaGetPhysAddr_eq_ok_iff {address : BitVec 64} :
    pgaGetPhysAddr tables vaddress = .ok address ↔
      pageIspresent tables vaddress 1 = .ok false ∧ address = 0 := by
  rw [pgaGetPhysAddr]
  cases hfound : pageIspresent tables vaddress 1 with
  | error fault => simp [pageInfo, hfound, Except.map]
  | ok found =>
      cases found with
      | false =>
          have hmasks :
              (0 : BitVec 64) &&& ~~~0xFFF#64 &&& ~~~(0xFFF#64 <<< 52) =
                0 := by
            decide
          rw [pageInfo_of_absent hfound, Except.map, hmasks, Except.ok.injEq,
            eq_comm]
          exact (and_iff_right rfl).symm
      | true =>
          rw [pageInfo_of_present hfound]
          simp [Except.map]

theorem infoAgrees_iff (hself : SelfMapped tables.memory tables.root) :
    InfoAgrees tables vaddress ↔
      presentAt tables.memory tables.root vaddress 1 = false := by
  have hfound := @pageIspresent_eq tables vaddress 1 hself 3 rfl
    (Nat.le_refl 1)
  constructor
  · intro hagrees
    cases hpresent : presentAt tables.memory tables.root vaddress 1 with
    | false => rfl
    | true =>
        exact (pageInfoAddress_not_canonical vaddress
          (hagrees.present hpresent).1).elim
  · intro habsent
    rw [habsent] at hfound
    refine ⟨?_, fun _ => ⟨pageInfo_of_absent hfound,
      pgaGetPhysAddr_eq_ok_iff.mpr ⟨hfound, rfl⟩⟩⟩
    intro hpresent
    rw [habsent] at hpresent
    cases hpresent

end

/-- The lookup agrees with the tables exactly for pages that are not present, and
finds what `pga_map` mapped only where that is address zero and the page did
not become present. -/
theorem pageInfo_agrees_iff {tables : Tables}
    (hself : SelfMapped tables.memory tables.root) (vaddress : BitVec 64) :
    (InfoAgrees tables vaddress ↔
        presentAt tables.memory tables.root vaddress 1 = false) ∧
      ∀ paddress order flags after i offset,
        pgaMap tables vaddress paddress order flags = .ok after →
        (pgaGetPhysAddr after (vaddress + pageOffset i + offset) =
            .ok (paddress + pageOffset i) ↔
          pageIspresent after (vaddress + pageOffset i + offset) 1 =
              .ok false ∧
            paddress + pageOffset i = 0) :=
  ⟨infoAgrees_iff hself, fun _ _ _ _ _ _ _ => pgaGetPhysAddr_eq_ok_iff⟩

/-- The page behind the boot tables' last one. -/
theorem pageInfo_agrees_boot :
    (InfoAgrees (bootTables (fun _ _ => 0) 0x101 []) 0x200000 ↔
        presentAt (bootTables (fun _ _ => 0) 0x101 []).memory 0x101 0x200000
          1 = false) ∧
      ∀ paddress order flags after i offset,
        pgaMap (bootTables (fun _ _ => 0) 0x101 []) 0x200000 paddress order
          flags = .ok after →
        (pgaGetPhysAddr after (0x200000 + pageOffset i + offset) =
            .ok (paddress + pageOffset i) ↔
          pageIspresent after (0x200000 + pageOffset i + offset) 1 =
              .ok false ∧
            paddress + pageOffset i = 0) :=
  pageInfo_agrees_iff (@bootTables_tree (fun _ _ => 0) 0x101 [] (by decide)
    (by decide)).selfMapped 0x200000

/-- The first page is present and mapped to itself, but cannot be looked up. -/
theorem pageInfo_faults :
    SelfMapped (bootTables (fun _ _ => 0) 0x101 []).memory 0x101 ∧
      canonical 0x1000 ∧
      presentAt (bootTables (fun _ _ => 0) 0x101 []).memory 0x101 0x1000 1 =
        true ∧
      pageInfoAddress 0x1000 = 0xFF8000000008 ∧
      getTableAddress 0x1000 1 = 0xFFFFFF8000000008 ∧
      pageInfo (bootTables (fun _ _ => 0) 0x101 []) 0x1000 =
        .error .pageFault ∧
      Returns (pgaMap (bootTables (fun _ _ => 0) 0x101 []) 0x1000 0x5000 0 0)
        fun after => pgaGetPhysAddr after 0x1000 = .error .pageFault := by
  refine ⟨(@bootTables_tree (fun _ _ => 0) 0x101 [] (by decide)
    (by decide)).selfMapped, ?_⟩
  decide +kernel

/-- In every run from the boot tables, the lookup of a mapped page faults. -/
theorem run_getPhysAddr_faults {rest : Memory} {pml4 : Frame}
    {supply : List Reply} (hpos : 0 < pml4.toNat)
    (hlt : pml4.toNat + 3 < 2 ^ 40) {calls : List PagingCall}
    (hguard : pagingMachine.Guarded
      (fun tables call => call.Pagewise
        (fun tables page => page.Legal tables ∧ page.Zeroed tables) tables)
      (bootTables rest pml4 supply) calls) :
    ∃ tables,
      pagingMachine.run (bootTables rest pml4 supply) calls = .ok tables ∧
      ∀ address flags, Outside address →
        lastMap calls (path address 1) = some flags →
        flags &&& vpageNotPresent = 0 →
        pgaGetPhysAddr tables address = .error .pageFault := by
  obtain ⟨tables, hrun, hremembers⟩ := run_remembers hpos hlt hguard
  refine ⟨tables, hrun, ?_⟩
  intro address flags houtside hlast hpresent
  obtain ⟨entry, hentry, hfound, -⟩ := lastMap_entry hlast hpresent
  have hwalk := @pageIspresent_eq tables address 1 hremembers.tree.selfMapped 3
    rfl (Nat.le_refl 1)
  rw [presentAt_iff.mpr ⟨entry, hremembers.leaf address entry houtside hentry
    hfound, hfound⟩] at hwalk
  rw [pgaGetPhysAddr, pageInfo_of_present hwalk]
  rfl

end Synos.Paging

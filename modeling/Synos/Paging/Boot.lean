import Synos.Paging.MapPage

namespace Synos.Paging

open Synos.Data

/-! Runs of `pga_map` and `pga_unmap` from the boot tables. -/

inductive PageCall
  | map (vaddress entry : BitVec 64)
  | unmap (vaddress : BitVec 64)

inductive PagingCall
  | map (vaddress paddress : BitVec 64) (order : Nat) (flags : BitVec 32)
  | unmap (vaddress : BitVec 64) (order : Nat)

def pageMachine : Machine Fault Tables PageCall where
  step tables
    | .map vaddress entry => mapPage tables vaddress entry
    | .unmap vaddress => unmapPage tables vaddress

def pagingMachine : Machine Fault Tables PagingCall where
  step tables
    | .map vaddress paddress order flags =>
        pgaMap tables vaddress paddress order flags
    | .unmap vaddress order => pgaUnmap tables vaddress order

def mapCallsFrom (vaddress paddress : BitVec 64) :
    (entry : BitVec 64) → (i count : Nat) → List PageCall
  | _, _, 0 => []
  | entry, i, count + 1 =>
      let entry := ((paddress + pageOffset i) &&& ~~~flagMask) +
        (entry &&& flagMask)
      .map (vaddress + pageOffset i) entry ::
        mapCallsFrom vaddress paddress entry (i + 1) count

def unmapCallsFrom (vaddress : BitVec 64) : (i count : Nat) → List PageCall
  | _, 0 => []
  | i, count + 1 =>
      .unmap (vaddress + pageOffset i) ::
        unmapCallsFrom vaddress (i + 1) count

def PagingCall.pages : PagingCall → List PageCall
  | .map vaddress paddress order flags =>
      mapCallsFrom vaddress paddress (flagEntry flags) 0 (2 ^ order)
  | .unmap vaddress order => unmapCallsFrom vaddress 0 (2 ^ order)

theorem pgaMapFrom_eq_run (vaddress paddress entry : BitVec 64)
    (i count : Nat) (tables : Tables) :
    pgaMapFrom vaddress paddress entry i count tables =
      pageMachine.run tables
        (mapCallsFrom vaddress paddress entry i count) := by
  induction count generalizing entry i tables with
  | zero => rfl
  | succ count ih =>
      simp only [pgaMapFrom, mapCallsFrom, Machine.run, pageMachine, ih]
      cases mapPage tables (vaddress + pageOffset i)
        (((paddress + pageOffset i) &&& ~~~flagMask) +
          (entry &&& flagMask)) <;> rfl

theorem pgaUnmapFrom_eq_run (vaddress : BitVec 64) (i count : Nat)
    (tables : Tables) :
    pgaUnmapFrom vaddress i count tables =
      pageMachine.run tables (unmapCallsFrom vaddress i count) := by
  induction count generalizing i tables with
  | zero => rfl
  | succ count ih =>
      simp only [pgaUnmapFrom, unmapCallsFrom, Machine.run, pageMachine, ih]
      cases unmapPage tables (vaddress + pageOffset i) <;> rfl

theorem pagingMachine_step (tables : Tables) (call : PagingCall) :
    pagingMachine.step tables call = pageMachine.run tables call.pages := by
  cases call with
  | map vaddress paddress order flags => exact pgaMapFrom_eq_run _ _ _ _ _ _
  | unmap vaddress order => exact pgaUnmapFrom_eq_run _ _ _ _

/-- The page lies outside the recursive window, and `alloc_page` answers with
zero or a frame not in use. -/
def PageCall.Legal (tables : Tables) : PageCall → Prop
  | .map vaddress _ =>
      Outside vaddress ∧
        LegalReplies tables.inUse
          (missing tables.memory tables.root vaddress) tables.supply
  | .unmap vaddress => Outside vaddress

/-- Every table that the page needs is a frame without stale present entries. -/
def PageCall.Clean (tables : Tables) : PageCall → Prop
  | .map vaddress _ =>
      CleanReplies vaddress (missing tables.memory tables.root vaddress)
        tables.supply
  | .unmap _ => True

/-- Every page of the call meets `guard` in the state it is reached in. -/
def PagingCall.Pagewise (guard : Tables → PageCall → Prop) (tables : Tables)
    (call : PagingCall) : Prop :=
  pageMachine.Guarded guard tables call.pages

theorem pagingMachine_tree {tables : Tables} {call : PagingCall}
    (htree : Tree tables 0 0)
    (hguard : call.Pagewise
      (fun tables page => page.Legal tables ∧ page.Clean tables) tables) :
    ∃ after, pagingMachine.step tables call = .ok after ∧ Tree after 0 0 := by
  have hstep : ∀ (state : Tables) (page : PageCall), Tree state 0 0 →
      page.Legal state ∧ page.Clean state →
      ∃ next, pageMachine.step state page = .ok next ∧ Tree next 0 0 := by
    intro state page hstate hpage
    obtain ⟨hlegal, hclean⟩ := hpage
    cases page with
    | map vaddress entry =>
        exact mapPage_tree (hstate.weaken vaddress 0) hlegal.1 hlegal.2 hclean
          entry 0
    | unmap vaddress =>
        exact unmapPage_tree (hstate.weaken vaddress 0) hlegal 0
  rw [pagingMachine_step]
  exact Machine.run_completes hstep htree hguard

/-! The boot tables. -/

def pageAddress (frame : Frame) : BitVec 64 := frame.setWidth 64 <<< 12

/-- Four consecutive frames, each table pointing to the next from its first
entry; the last one maps the first 512 pages to themselves.  Nothing is known
of the rest of memory. -/
def bootMemory (rest : Memory) (pml4 : Frame) : Memory :=
  fun frame index =>
    if (frame - pml4).toNat < 3 then
      if index = 0 then pageAddress (frame + 1) ||| 0b11#64 else 0
    else if (frame - pml4).toNat = 3 then
      pageAddress (index.setWidth 40) ||| 0b11#64
    else
      rest frame index

def bootTables (rest : Memory) (pml4 : Frame) (supply : List Reply) :
    Tables where
  memory := pgaInit (bootMemory rest pml4) (pageAddress pml4)
  root := pml4
  supply := supply
  installed :=
    [(path 0 4, pml4 + 1), (path 0 3, pml4 + 2), (path 0 2, pml4 + 3)]
  mapped := fun page => page.take 3 == [0, 0, 0]

@[simp] theorem frameOf_pageAddress (frame : Frame) :
    frameOf (pageAddress frame) = frame := by
  apply BitVec.eq_of_getLsbD_eq
  intro bit hbit
  have hwide : 12 + bit < 64 := by omega
  have hlow : ¬ 12 + bit < 12 := by omega
  have hback : bit < 64 := by omega
  rw [frameOf, pageAddress, BitVec.getLsbD_extractLsb',
    BitVec.getLsbD_shiftLeft, BitVec.getLsbD_setWidth,
    Nat.add_sub_cancel_left]
  simp [hbit, hwide, hback]

section

variable {rest : Memory} {pml4 : Frame} {supply : List Reply}
  {address : BitVec 64}

/-- Each of the three upper tables has one entry besides the self-map. -/
theorem bootTables_read (houtside : Outside address) {level : Nat}
    (hge : 2 ≤ level) (hle : level ≤ 4) :
    (bootTables rest pml4 supply).memory
        (pml4 + BitVec.ofNat 40 (4 - level)) (tableIndex address level) =
      if tableIndex address level = 0 then
        pageAddress (pml4 + BitVec.ofNat 40 (4 - level) + 1) ||| 0b11#64
      else 0 := by
  have hdepth : (pml4 + BitVec.ofNat 40 (4 - level) - pml4).toNat =
      4 - level := by
    rw [BitVec.add_comm, BitVec.add_sub_cancel, BitVec.toNat_ofNat]
    exact Nat.mod_eq_of_lt (by omega)
  have hslot : pml4 + BitVec.ofNat 40 (4 - level) ≠ pml4 ∨
      tableIndex address level ≠ 511 := by
    cases Nat.eq_or_lt_of_le hle with
    | inl htop =>
        subst htop
        exact .inr houtside
    | inr hlt =>
        left
        intro hsame
        rw [hsame, BitVec.sub_self] at hdepth
        simp only [BitVec.toNat_ofNat] at hdepth
        omega
  simp only [bootTables, pgaInit, frameOf_pageAddress]
  rw [writeEntry_of_ne _ _ hslot, bootMemory, hdepth, if_pos (by omega)]

theorem bootTables_entry (houtside : Outside address) {level : Nat}
    (hge : 2 ≤ level) (hle : level ≤ 4) {entry : BitVec 64}
    (hentry : (bootTables rest pml4 supply).memory
      (pml4 + BitVec.ofNat 40 (4 - level)) (tableIndex address level) = entry)
    (hpresent : present entry = true) :
    tableIndex address level = 0 ∧
      frameOf entry = pml4 + BitVec.ofNat 40 (4 - level + 1) := by
  have hread := @bootTables_read rest pml4 supply address houtside level hge
    hle
  rw [hentry] at hread
  by_cases hindex : tableIndex address level = 0
  · rw [if_pos hindex] at hread
    refine ⟨hindex, ?_⟩
    rw [hread, frameOf_or_flags, frameOf_pageAddress, BitVec.add_assoc]
    congr 1
    rw [BitVec.ofNat_add]
    rfl
  · rw [if_neg hindex] at hread
    rw [hread] at hpresent
    cases hpresent

theorem bootTables_tableOf (houtside : Outside address) {depth level : Nat}
    (hdepth : level + depth = 4) (hpos : 1 ≤ level) {table : Frame}
    (htable : tableOf (bootTables rest pml4 supply).memory pml4 address level =
      some table) :
    table = pml4 + BitVec.ofNat 40 (4 - level) ∧
      path address (level + 1) = path 0 (level + 1) := by
  induction depth generalizing level table with
  | zero =>
      have htop : level = 4 := by omega
      subst htop
      rw [tableOf_top, Option.some.injEq] at htable
      refine ⟨?_, rfl⟩
      rw [← htable]
      simp
  | succ depth ih =>
      rw [tableOf_succ (by omega)] at htable
      obtain ⟨entry, hentry, hframe⟩ := Option.bind_eq_some_iff.mp htable
      obtain ⟨above, habove, hread⟩ := Option.map_eq_some_iff.mp hentry
      obtain ⟨hbase, hpath⟩ := ih (by omega) (by omega) habove
      cases hpresent : present entry with
      | false => simp [hpresent] at hframe
      | true =>
          rw [hpresent, if_pos rfl, Option.some.injEq] at hframe
          rw [hbase] at hread
          obtain ⟨hindex, hnext⟩ := bootTables_entry houtside (by omega)
            (by omega) hread hpresent
          have hzero : tableIndex 0 (level + 1) = 0 := by
            simp [tableIndex]
          refine ⟨?_, (path_succ (by omega)).mpr ⟨hpath, ?_⟩⟩
          · rw [← hframe, hnext]
            congr 2
            omega
          · rw [hindex, hzero]

theorem bootTables_tree (hpos : 0 < pml4.toNat)
    (hlt : pml4.toNat + 3 < 2 ^ 40) :
    Tree (bootTables rest pml4 supply) 0 0 where
  selfMapped := by
    have h := pgaInit_selfMapped (bootMemory rest pml4) (pageAddress pml4)
    rw [frameOf_pageAddress] at h
    exact h
  table := by
    intro address level houtside hge hle _ entry hentry hpresent
    obtain ⟨table, htable, hread⟩ := Option.map_eq_some_iff.mp hentry
    obtain ⟨hbase, hpath⟩ := bootTables_tableOf houtside
      (Nat.add_sub_cancel' hle) (by omega) htable
    rw [hbase] at hread
    obtain ⟨hindex, hframe⟩ := bootTables_entry houtside hge hle hread hpresent
    have hzero : tableIndex 0 level = 0 := by
      simp [tableIndex]
    rw [(path_succ hle).mpr ⟨hpath, hindex.trans hzero.symm⟩, hframe]
    have hcases : level = 4 ∨ level = 3 ∨ level = 2 := by omega
    rcases hcases with rfl | rfl | rfl <;> simp [bootTables]
  page := by
    intro address houtside _ hpresent
    obtain ⟨entry, hentry, -⟩ := hpresent
    obtain ⟨table, htable, -⟩ := Option.map_eq_some_iff.mp hentry
    obtain ⟨-, hpath⟩ := @bootTables_tableOf rest pml4 supply address houtside
      3 1 rfl (Nat.le_refl 1) table htable
    have htake : (path address 1).take 3 = path address 2 := rfl
    have hzero : path 0 2 = [0, 0, 0] := by decide
    simp only [bootTables]
    rw [htake, hpath, hzero]
    rfl
  distinct := by
    simp only [bootTables, List.map_cons, List.map_nil, List.nodup_cons,
      List.mem_cons, List.not_mem_nil, or_false, not_or, not_false_eq_true,
      List.nodup_nil, and_true]
    refine ⟨⟨?_, ?_⟩, ?_⟩ <;> bv_omega
  proper := by
    intro item hitem
    simp only [bootTables, List.mem_cons, List.not_mem_nil, or_false] at *
    rcases hitem with rfl | rfl | rfl <;> simp only <;>
      constructor <;> bv_omega

end

/-! The invariant, as the tables show it. -/

structure Tables.Sound (tables : Tables) : Prop where
  /-- A present entry above level one points to the frame `alloc_page` returned
  for it, and nothing else points there. -/
  table : ∀ address level, Outside address → 2 ≤ level → level ≤ 4 →
    ∀ entry, entryAt tables.memory tables.root address level = some entry →
      present entry = true →
      frameOf entry ≠ 0 ∧ frameOf entry ≠ tables.root ∧
      (path address level, frameOf entry) ∈ tables.installed ∧
      ∀ other otherLevel, Outside other → 2 ≤ otherLevel → otherLevel ≤ 4 →
        ∀ otherEntry,
          entryAt tables.memory tables.root other otherLevel =
            some otherEntry →
          present otherEntry = true → frameOf otherEntry = frameOf entry →
          path other otherLevel = path address level
  /-- A page translates only while it is mapped. -/
  page : ∀ address, Outside address →
    (walk tables.memory tables.root address).isSome →
    tables.mapped (path address 1) = true

theorem Tree.sound {tables : Tables} (htree : Tree tables 0 0) :
    tables.Sound where
  table := by
    intro address level houtside hge hle entry hentry hpresent
    have hsettled : ∀ {address other}, 1 ≤ other →
        ¬ Pending 0 0 address other := by
      intro address other hpos h
      have := h.1
      omega
    have hmem := htree.table address level houtside hge hle
      (hsettled (by omega)) entry hentry hpresent
    refine ⟨(htree.proper _ hmem).1, (htree.proper _ hmem).2, hmem, ?_⟩
    intro other otherLevel hother hotherGe hotherLe otherEntry hotherEntry
      hotherPresent hsame
    have hotherMem := htree.table other otherLevel hother hotherGe hotherLe
      (hsettled (by omega)) otherEntry hotherEntry hotherPresent
    have heq := List.inj_on_of_nodup_map htree.distinct hotherMem hmem hsame
    exact congrArg Prod.fst heq
  page := by
    intro address houtside hwalk
    apply htree.page address houtside
    · intro h
      have := h.1
      omega
    · unfold walk at hwalk
      split at hwalk
      · rw [Option.isSome_map] at hwalk
        exact (@tableOf_isSome_iff tables.memory tables.root address 0
          (by omega)).mp hwalk 1 (by omega) (by omega)
      · cases hwalk

/-- From the boot tables, a run in which `alloc_page` never fails and hands out
tables without stale present entries keeps the tree sound. -/
theorem run_tables_sound {rest : Memory} {pml4 : Frame} {supply : List Reply}
    (hpos : 0 < pml4.toNat) (hlt : pml4.toNat + 3 < 2 ^ 40)
    {calls : List PagingCall}
    (hguard : pagingMachine.Guarded
      (fun tables call => call.Pagewise
        (fun tables page => page.Legal tables ∧ page.Clean tables) tables)
      (bootTables rest pml4 supply) calls) :
    ∃ tables,
      pagingMachine.run (bootTables rest pml4 supply) calls = .ok tables ∧
        tables.Sound := by
  have hstep : ∀ tables call, Tree tables 0 0 →
      PagingCall.Pagewise
        (fun tables page => page.Legal tables ∧ page.Clean tables) tables
        call →
      ∃ next, pagingMachine.step tables call = .ok next ∧ Tree next 0 0 :=
    fun tables call htree hcall => pagingMachine_tree htree hcall
  obtain ⟨tables, hrun, htree⟩ := Machine.run_completes hstep
    (bootTables_tree hpos hlt) hguard
  exact ⟨tables, hrun, htree.sound⟩

/-- Three cleared frames are enough to map a page that no boot table covers. -/
theorem run_tables_sound_fresh :
    ∃ tables,
      pagingMachine.run
          (bootTables (fun _ _ => 0) 0x101
            [⟨0x300000, fun _ => 0⟩, ⟨0x301000, fun _ => 0⟩,
              ⟨0x302000, fun _ => 0⟩])
          [.map 0x8000000000 0xB8000 0 vpageNotWritable] = .ok tables ∧
        tables.Sound := by
  have hmissing : missing
      (bootTables (fun _ _ => 0) 0x101 []).memory 0x101 0x8000000000 = 3 := by
    decide +kernel
  have hblank : present 0 = false := by decide
  refine run_tables_sound (by decide) (by decide) ⟨⟨⟨?_, ?_⟩, ?_⟩, ?_⟩
  · refine ⟨by decide, ?_⟩
    exact (congrArg (fun count => LegalReplies _ count _) hmissing).mpr
      ⟨.inr (by decide), .inr (by decide), .inr (by decide), trivial⟩
  · exact (congrArg (fun count => CleanReplies _ count _) hmissing).mpr
      ⟨by decide, fun _ _ => hblank, by decide, fun _ _ => hblank, by decide,
        fun _ _ => hblank, trivial⟩
  · exact fun _ _ => trivial
  · exact fun _ _ => trivial

/-- Without memory the entries are made to point to frame zero. -/
theorem run_tables_frame_zero :
    pagingMachine.Guarded
        (fun tables call => call.Pagewise
          (fun tables page => page.Legal tables) tables)
        (bootTables (fun _ _ => 0) 0x101 [])
        [.map 0x8000000000 0xB8000 0 0] ∧
      Returns (pagingMachine.run (bootTables (fun _ _ => 0) 0x101 [])
        [.map 0x8000000000 0xB8000 0 0]) fun tables => ¬ tables.Sound := by
  constructor
  · refine ⟨⟨⟨by decide, ?_⟩, fun _ _ => trivial⟩, fun _ _ => trivial⟩
    cases missing (bootTables (fun _ _ => 0) 0x101 []).memory 0x101
        (0x8000000000 + pageOffset 0) with
    | zero => trivial
    | succ count => trivial
  · have hentry : Returns
        (pagingMachine.run (bootTables (fun _ _ => 0) 0x101 [])
          [.map 0x8000000000 0xB8000 0 0]) fun tables =>
        entryAt tables.memory tables.root 0x8000000000 4 = some 3#64 := by
      decide +kernel
    rw [returns_iff] at hentry ⊢
    obtain ⟨tables, hrun, hentry⟩ := hentry
    refine ⟨tables, hrun, ?_⟩
    intro hsound
    exact (hsound.table 0x8000000000 4 (by decide) (by omega) (by omega) _
      hentry rfl).1 rfl

end Synos.Paging

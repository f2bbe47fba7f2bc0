import Synos.Paging.Leaf

namespace Synos.Paging

open Synos.Data

/-! The access rights of a page: those its four entries grant together, against
those asked for when it was mapped. -/

structure Rights where
  user : Bool
  write : Bool
  noExecute : Bool
  noCache : Bool
  deriving DecidableEq

/-- User and write access need every entry, one entry is enough to forbid
execution, and the leaf entry alone disables the cache. -/
def effectiveRights (memory : Memory) (root : Frame) (address : BitVec 64) :
    Option Rights :=
  if canonical address then do
    let top ← entryAt memory root address 4
    let upper ← entryAt memory root address 3
    let lower ← entryAt memory root address 2
    let page ← entryAt memory root address 1
    if present page then
      some
        { user := top.getLsbD 2 && upper.getLsbD 2 && lower.getLsbD 2 &&
            page.getLsbD 2
          write := top.getLsbD 1 && upper.getLsbD 1 && lower.getLsbD 1 &&
            page.getLsbD 1
          noExecute := top.getLsbD 63 || upper.getLsbD 63 ||
            lower.getLsbD 63 || page.getLsbD 63
          noCache := page.getLsbD 4 }
    else
      none
  else
    none

def requestedRights (flags : BitVec 32) : Rights where
  user := flags &&& vpageUserAccess ≠ 0
  write := flags &&& vpageNotWritable = 0
  noExecute := flags &&& vpageNoExecute ≠ 0
  noCache := flags &&& vpageNoCache ≠ 0

/-! The last call that was about a page. -/

def PagingCall.covers : PagingCall → Path → Bool
  | .map vaddress _ order _, page | .unmap vaddress order, page =>
      (List.range (2 ^ order)).any fun i =>
        path (vaddress + pageOffset i) 1 == page

def PagingCall.flags? : PagingCall → Option (BitVec 32)
  | .map _ _ _ flags => some flags
  | .unmap _ _ => none

/-- The flags of the last `pga_map` for each page, forgotten by `pga_unmap`. -/
def PagingCall.record (last : Path → Option (BitVec 32))
    (call : PagingCall) : Path → Option (BitVec 32) :=
  fun page => if call.covers page then call.flags? else last page

def lastMap (calls : List PagingCall) : Path → Option (BitVec 32) :=
  calls.foldl PagingCall.record fun _ => none

/-- The entry a call writes for its page. -/
def PageCall.entry? : PageCall → Option (BitVec 64)
  | .map _ entry => some entry
  | .unmap _ => none

def PageCall.record (last : Path → Option (BitVec 64)) (call : PageCall) :
    Path → Option (BitVec 64) :=
  Function.update last (path call.target 1) call.entry?

def PagingCall.recordPages (last : Path → Option (BitVec 64))
    (call : PagingCall) : Path → Option (BitVec 64) :=
  call.pages.foldl PageCall.record last

theorem foldl_record_of_not_mem {calls : List PageCall} {page : Path}
    (hpage : ∀ call ∈ calls, path call.target 1 ≠ page)
    (last : Path → Option (BitVec 64)) :
    calls.foldl PageCall.record last page = last page := by
  induction calls generalizing last with
  | nil => rfl
  | cons call calls ih =>
      rw [List.foldl_cons,
        ih (fun other hother => hpage other (List.mem_cons_of_mem _ hother)),
        PageCall.record,
        Function.update_of_ne (hpage call List.mem_cons_self).symm]

theorem foldl_record_of_mem {calls : List PageCall} {page : Path}
    (hpage : ∃ call ∈ calls, path call.target 1 = page)
    (last : Path → Option (BitVec 64)) :
    ∃ call ∈ calls, path call.target 1 = page ∧
      calls.foldl PageCall.record last page = call.entry? := by
  induction calls generalizing last with
  | nil =>
      obtain ⟨call, hcall, -⟩ := hpage
      exact absurd hcall List.not_mem_nil
  | cons call calls ih =>
      by_cases hlater : ∃ call ∈ calls, path call.target 1 = page
      · obtain ⟨other, hother, hsame, hrecord⟩ := ih hlater (call.record last)
        exact ⟨other, List.mem_cons_of_mem _ hother, hsame, hrecord⟩
      · have hnone : ∀ other ∈ calls, path other.target 1 ≠ page :=
          fun other hother hsame => hlater ⟨other, hother, hsame⟩
        obtain ⟨first, hfirst, hsame⟩ := hpage
        cases List.mem_cons.mp hfirst with
        | inl heq =>
            subst heq
            refine ⟨first, List.mem_cons_self, hsame, ?_⟩
            rw [List.foldl_cons, foldl_record_of_not_mem hnone,
              PageCall.record, hsame, Function.update_self]
        | inr hmem => exact (hnone first hmem hsame).elim

theorem exists_page_iff {call : PagingCall} {page : Path} :
    (∃ single ∈ call.pages, path single.target 1 = page) ↔
      call.covers page = true := by
  have hrange : ∀ order i, i ∈ List.range' 0 (2 ^ order) ↔ i < 2 ^ order := by
    intro order i
    simp
  cases call <;>
    simp only [PagingCall.pages, PagingCall.covers, mapCallsFrom_eq,
      unmapCallsFrom_eq, List.mem_map, exists_exists_and_eq_and,
      PageCall.target, List.any_eq_true, List.mem_range, beq_iff_eq, hrange]

theorem page_entry_flags {call : PagingCall} {flags : BitVec 32}
    (hflags : call.flags? = some flags) {single : PageCall}
    (hsingle : single ∈ call.pages) :
    ∃ entry, single.entry? = some entry ∧
      entry &&& flagMask = flagEntry flags &&& flagMask := by
  cases call with
  | map vaddress paddress order mapFlags =>
      simp only [PagingCall.flags?, Option.some.injEq] at hflags
      subst hflags
      rw [PagingCall.pages, mapCallsFrom_eq] at hsingle
      obtain ⟨i, -, hsingle⟩ := List.mem_map.mp hsingle
      subst hsingle
      exact ⟨_, rfl, leafEntry_flags _ _ _⟩
  | unmap vaddress order => cases hflags

/-- The recorded entries carry the recorded flags. -/
def Agree (flags : Path → Option (BitVec 32))
    (entries : Path → Option (BitVec 64)) : Prop :=
  ∀ page requested, flags page = some requested →
    ∃ entry, entries page = some entry ∧
      entry &&& flagMask = flagEntry requested &&& flagMask

theorem Agree.record {flags : Path → Option (BitVec 32)}
    {entries : Path → Option (BitVec 64)} (hagree : Agree flags entries)
    (call : PagingCall) :
    Agree (call.record flags) (call.recordPages entries) := by
  intro page requested hflags
  rw [PagingCall.record] at hflags
  rw [PagingCall.recordPages]
  cases hcovers : call.covers page with
  | true =>
      rw [hcovers, if_pos rfl] at hflags
      obtain ⟨single, hsingle, -, hrecord⟩ :=
        foldl_record_of_mem (exists_page_iff.mpr hcovers) entries
      rw [hrecord]
      exact page_entry_flags hflags hsingle
  | false =>
      rw [hcovers, if_neg (by decide)] at hflags
      rw [foldl_record_of_not_mem]
      · exact hagree page requested hflags
      · intro single hsingle hpath
        rw [exists_page_iff.mp ⟨single, hsingle, hpath⟩] at hcovers
        cases hcovers

theorem Agree.foldl {flags : Path → Option (BitVec 32)}
    {entries : Path → Option (BitVec 64)} (hagree : Agree flags entries)
    (calls : List PagingCall) :
    Agree (calls.foldl PagingCall.record flags)
      (calls.foldl PagingCall.recordPages entries) := by
  induction calls generalizing flags entries with
  | nil => exact hagree
  | cons call calls ih => exact ih (hagree.record call)

/-! Zeroed tables hold nothing but what is installed in them. -/

/-- The next `count` answers of `alloc_page` are zeroed frames. -/
def ZeroedReplies : (count : Nat) → List Reply → Prop
  | 0, _ => True
  | _ + 1, [] => False
  | count + 1, reply :: supply =>
      (reply.address ≠ 0 ∧ ∃ frame, reply.address = pageAddress frame) ∧
      (∀ index, reply.contents index = 0) ∧
      ZeroedReplies count supply

theorem ZeroedReplies.clean {count : Nat} {supply : List Reply}
    (hzeroed : ZeroedReplies count supply) (address : BitVec 64) :
    CleanReplies address count supply := by
  induction count generalizing supply with
  | zero => trivial
  | succ count ih =>
      cases supply with
      | nil => exact hzeroed
      | cons reply supply =>
          obtain ⟨⟨haddress, -⟩, hcontents, hrest⟩ := hzeroed
          refine ⟨haddress, ?_, ih hrest⟩
          intro index _
          rw [hcontents]
          rfl

/-- Every entry above the leaves is writable, and grants user access to no
page. -/
def Flagged (memory : Memory) (root : Frame) : Prop :=
  ∀ address level, Outside address → 2 ≤ level → level ≤ 4 → ∀ entry,
    entryAt memory root address level = some entry → present entry = true →
    entry &&& flagMask = 3#64

theorem pageAddress_or_flags (frame : Frame) :
    (pageAddress frame ||| 3#64) &&& flagMask = 3#64 := by
  apply BitVec.eq_of_getLsbD_eq
  intro bit hbit
  rw [BitVec.getLsbD_and, BitVec.getLsbD_or, pageAddress,
    BitVec.getLsbD_shiftLeft, BitVec.getLsbD_setWidth, getLsbD_flagMask hbit]
  by_cases hlow : bit < 12
  · simp [hlow]
  · have hthree : (3#64).getLsbD bit = false := by
      rw [BitVec.getLsbD_ofNat]
      have htwo : 2 ≤ bit := by omega
      have hsmall : 3 < 2 ^ bit :=
        Nat.lt_of_lt_of_le (by decide)
          (Nat.pow_le_pow_right (by decide) htwo)
      simp [Nat.testBit_lt_two_pow hsmall]
    by_cases hhigh : 52 ≤ bit
    · have hframe : frame.getLsbD (bit - 12) = false :=
        BitVec.getLsbD_of_ge _ _ (by omega)
      simp [hthree, hframe]
    · simp [hlow, hhigh, hthree]

/-- What the chain of installations leaves when the tables are zeroed. -/
structure Grown (before after : Tables) (target : BitVec 64) (level : Nat) :
    Prop where
  installed : Installed before after target level
  root : after.root = before.root
  bare : ¬ EntryPresent after.memory after.root target level
  kept : ∀ address other, Outside address → 1 ≤ other → other ≤ 4 →
    EntryPresent before.memory before.root address other →
    entryAt after.memory before.root address other =
      entryAt before.memory before.root address other
  flagged : Flagged after.memory after.root
  zeroed : ZeroedReplies (level - 1) after.supply

section

variable {before tables : Tables} {target : BitVec 64} {level : Nat}

theorem Grown.installTable (hready : Grown before tables target level)
    (htarget : Outside target) (hge : 2 ≤ level) (hle : level ≤ 4) :
    ∃ after, installTable tables level target = .ok after ∧
      Grown before after target (level - 1) := by
  obtain ⟨table, reply, supply, htable, hsupply, hfresh, hcall, hnext⟩ :=
    hready.installed.install_eq htarget hge hle
  have htree := hready.installed.tree
  have hagree := @agreesOff_install tables target level table reply hfresh
  have hcount : level - 1 = (level - 2) + 1 := by omega
  have hzeroed := hready.zeroed
  rw [hcount, hsupply] at hzeroed
  obtain ⟨⟨-, frame, hframe⟩, hcontents, hzeroed⟩ := hzeroed
  have hsettled : ∀ address other, other ≤ 4 →
      EntryPresent tables.memory tables.root address other →
      ¬ Pending target level address other := by
    intro address other hother hpresent hpending
    obtain ⟨hother, hpath⟩ := hpending
    have htop := hpresent.upward hother hle
    apply hready.bare
    unfold EntryPresent at *
    rwa [← entryAt_congr hle hpath]
  -- the new table is empty
  have hempty : ∀ address, path address level = path target level →
      ¬ EntryPresent (tables.installMemory target level table reply)
        tables.root address (level - 1) := by
    rintro address hpath ⟨entry, hentry, hset⟩
    rw [htree.entryAt_below htarget (by omega) hle htable hfresh hpath,
      Option.some.injEq] at hentry
    rw [← hentry, hcontents] at hset
    cases hset
  refine ⟨_, hcall, hnext, hready.root, hempty target rfl, ?_, ?_, hzeroed⟩
  · intro address other houtside hpos hother hpresent
    have hold := hready.kept address other houtside hpos hother hpresent
    have hmiddle : EntryPresent tables.memory tables.root address other := by
      unfold EntryPresent at *
      rwa [hready.root, hold]
    rw [← hold, ← hready.root]
    exact htree.entryAt_of_agrees htarget (by omega) hle htable hagree houtside
      hpos hother (hsettled address other hother hmiddle)
  · intro address other houtside hotherGe hother entry hentry hpresent
    by_cases hpending : Pending target level address other
    · obtain ⟨hbelow, hpath⟩ := hpending
      cases Nat.eq_or_lt_of_le hbelow with
      | inl heq =>
          subst heq
          have hnew := htree.entryAt_install htarget (by omega) hle htable
            hfresh hpath
          have hsame := hnew.symm.trans hentry
          rw [Option.some.injEq] at hsame
          rw [← hsame, hframe]
          exact pageAddress_or_flags frame
      | inr hlt =>
          have hfound : EntryPresent
              (tables.installMemory target level table reply) tables.root
              address other := ⟨entry, hentry, hpresent⟩
          exact (hempty address hpath
            (hfound.upward (Nat.le_sub_one_of_lt hlt) (by omega))).elim
    · have hold := htree.entryAt_of_agrees htarget (by omega) hle htable
        hagree houtside (by omega) hother hpending
      exact hready.flagged address other houtside hotherGe hother entry
        (hold ▸ hentry) hpresent

theorem pageTableAlloc_grown (htree : Tree tables target 0)
    (htarget : Outside target)
    (hlegal : LegalReplies tables.inUse
      (missing tables.memory tables.root target) tables.supply)
    (hzeroed : ZeroedReplies
      (missing tables.memory tables.root target) tables.supply)
    (hflagged : Flagged tables.memory tables.root)
    (hmissing : presentAt tables.memory tables.root target 2 = false) :
    ∃ after, pageTableAlloc tables 2 target = .ok (true, after) ∧
      Grown tables after target 1 := by
  refine @pageTableAlloc_chain tables target
    (fun level middle => Grown tables middle target level) htree.selfMapped
    ?_ (fun _ _ hge hle hmiddle => hmiddle.installTable htarget hge hle)
    2 2 rfl (Nat.le_refl 2) hmissing
  intro level hge hle hmissing habove
  have hcount := missing_eq hge hle hmissing habove
  refine ⟨installed_ready htree hlegal (hzeroed.clean target) hge hle hmissing
    habove, rfl, ?_, fun _ _ _ _ _ _ => rfl, hflagged, hcount ▸ hzeroed⟩
  rw [← presentAt_iff, hmissing]
  decide

/-- `pga_map` of a page first adds the tables it lacks, which takes no present
entry away, and then rewrites its leaf entry. -/
theorem mapPage_grown (htree : Tree tables target 0)
    (htarget : Outside target)
    (hlegal : LegalReplies tables.inUse
      (missing tables.memory tables.root target) tables.supply)
    (hzeroed : ZeroedReplies
      (missing tables.memory tables.root target) tables.supply)
    (hflagged : Flagged tables.memory tables.root) (entry : BitVec 64) :
    ∃ middle after, mapPage tables target entry = .ok after ∧
      after.root = tables.root ∧ Flagged middle tables.root ∧
      (∀ address other, Outside address → 1 ≤ other → other ≤ 4 →
        EntryPresent tables.memory tables.root address other →
        entryAt middle tables.root address other =
          entryAt tables.memory tables.root address other) ∧
      Rewritten tables.root middle after.memory
        (fun address => path address 1 = path target 1) ∧
      entryAt after.memory tables.root target 1 = some entry := by
  unfold mapPage
  rw [@pageIspresent_eq tables target 2 htree.selfMapped 2 rfl (by omega)]
  cases hfound : presentAt tables.memory tables.root target 2 with
  | true =>
      obtain ⟨stored, hstored, hroot, hrewritten, hleaf⟩ := store_leaf
        htree.selfMapped (htree.unshared (Nat.zero_le 1)) htarget
        (tableOf_of_presentAt (by omega) hfound) entry
      simp only [if_true, hstored]
      exact ⟨tables.memory, _, rfl, hroot, hflagged, fun _ _ _ _ _ _ => rfl,
        hrewritten, hleaf⟩
  | false =>
      obtain ⟨middle, halloc, hmiddle⟩ := pageTableAlloc_grown htree htarget
        hlegal hzeroed hflagged hfound
      have hgrown := hmiddle.installed.tree
      obtain ⟨stored, hstored, hroot, hrewritten, hleaf⟩ := store_leaf
        hgrown.selfMapped (hgrown.unshared (Nat.le_refl 1)) htarget
        hmiddle.installed.table entry
      rw [hmiddle.root] at hroot hrewritten hleaf
      have hkept := hmiddle.flagged
      rw [hmiddle.root] at hkept
      simp only [Bool.false_eq_true, if_false, halloc, hstored]
      exact ⟨middle.memory, _, rfl, hroot, hkept, hmiddle.kept, hrewritten,
        hleaf⟩

end

theorem Rewritten.flagged {root : Frame} {before after : Memory}
    {touched : BitVec 64 → Prop}
    (hwrite : Rewritten root before after touched)
    (hflagged : Flagged before root) : Flagged after root := by
  intro address level houtside hge hle entry hentry hpresent
  rw [hwrite.kept address level houtside (by omega) hle (by omega)] at hentry
  exact hflagged address level houtside hge hle entry hentry hpresent

/-! Runs. -/

/-- Every table that the page needs is a zeroed frame. -/
def PageCall.Zeroed (tables : Tables) : PageCall → Prop
  | .map vaddress _ =>
      ZeroedReplies (missing tables.memory tables.root vaddress) tables.supply
  | .unmap _ => True

/-- The leaf entry of a page that is mapped is the one recorded for it. -/
structure Remembers (entries : Path → Option (BitVec 64)) (tables : Tables) :
    Prop where
  tree : Tree tables 0 0
  flagged : Flagged tables.memory tables.root
  leaf : ∀ address entry, Outside address →
    entries (path address 1) = some entry → present entry = true →
    entryAt tables.memory tables.root address 1 = some entry

theorem Remembers.map {entries : Path → Option (BitVec 64)} {tables : Tables}
    (hold : Remembers entries tables) {vaddress : BitVec 64}
    (entry : BitVec 64)
    (hlegal : PageCall.Legal tables (.map vaddress entry))
    (hzeroed : PageCall.Zeroed tables (.map vaddress entry)) :
    ∃ next, mapPage tables vaddress entry = .ok next ∧
      Remembers (PageCall.record entries (.map vaddress entry)) next := by
  have htree := hold.tree.weaken vaddress 0
  obtain ⟨houtside, hlegal⟩ := hlegal
  obtain ⟨next, hcall, hnext⟩ := mapPage_tree htree houtside hlegal
    (hzeroed.clean vaddress) entry 0
  obtain ⟨middle, after, hagain, hroot, hflagged, hkept, hwrite, hleaf⟩ :=
    mapPage_grown htree houtside hlegal hzeroed hold.flagged entry
  have hsame : next = after := Except.ok.inj (hcall.symm.trans hagain)
  subst hsame
  refine ⟨next, hcall, hnext, hroot ▸ hwrite.flagged hflagged, ?_⟩
  intro address recorded haddress hrecorded hpresent
  rw [hroot]
  by_cases hpath : path address 1 = path vaddress 1
  · rw [PageCall.record, PageCall.target, hpath, Function.update_self]
      at hrecorded
    rw [entryAt_congr (by omega) hpath, hleaf]
    exact hrecorded
  · rw [PageCall.record, PageCall.target, Function.update_of_ne hpath]
      at hrecorded
    have hbefore := hold.leaf address recorded haddress hrecorded hpresent
    rw [hwrite.kept address 1 haddress (Nat.le_refl 1) (by omega)
        (fun h => hpath h.2),
      hkept address 1 haddress (Nat.le_refl 1) (by omega)
        ⟨recorded, hbefore, hpresent⟩]
    exact hbefore

theorem Remembers.unmap {entries : Path → Option (BitVec 64)}
    {tables : Tables} (hold : Remembers entries tables)
    {vaddress : BitVec 64} (houtside : Outside vaddress) :
    ∃ next, unmapPage tables vaddress = .ok next ∧
      Remembers (PageCall.record entries (.unmap vaddress)) next := by
  have htree := hold.tree.weaken vaddress 0
  obtain ⟨next, hcall, hnext⟩ := unmapPage_tree htree houtside 0
  have hself := hold.tree.selfMapped
  have hunshared := hold.tree.unshared (Nat.zero_le 1)
  -- only the page itself may read differently afterwards
  have hother : ∃ after, unmapPage tables vaddress = .ok after ∧
      after.root = tables.root ∧
      Rewritten tables.root tables.memory after.memory
        (fun address => path address 1 = path vaddress 1) := by
    cases hfound : presentAt tables.memory tables.root vaddress 1 with
    | true =>
        have hbacked : Backed tables.memory tables.root vaddress :=
          ⟨houtside, fun level hge hle =>
            (presentAt_iff.mp hfound).upward (by omega) hle⟩
        obtain ⟨_, after, -, hstep, hroot, hwrite, -⟩ :=
          @pageMachine_step_rewrites tables hself hunshared (.unmap vaddress)
            hbacked
        exact ⟨after, hstep, hroot, hwrite⟩
    | false =>
        obtain ⟨after, hrun, hroot, hmemory⟩ :=
          @run_unmaps_absent tables hself [vaddress] (by
            intro page hpage
            rw [List.mem_singleton.mp hpage]
            exact hfound)
        obtain ⟨middle, hstep, hnil⟩ := Machine.run_cons_ok.mp hrun
        cases hnil
        exact ⟨_, hstep, hroot, hmemory ▸ Rewritten.refl hself hunshared _⟩
  obtain ⟨after, hagain, hroot, hwrite⟩ := hother
  have hsame : next = after := Except.ok.inj (hcall.symm.trans hagain)
  subst hsame
  refine ⟨next, hcall, hnext, hroot ▸ hwrite.flagged hold.flagged, ?_⟩
  intro address recorded haddress hrecorded hpresent
  by_cases hpath : path address 1 = path vaddress 1
  · rw [PageCall.record, PageCall.target, hpath, Function.update_self]
      at hrecorded
    cases hrecorded
  · rw [PageCall.record, PageCall.target, Function.update_of_ne hpath]
      at hrecorded
    rw [hroot, hwrite.kept address 1 haddress (Nat.le_refl 1) (by omega)
      (fun h => hpath h.2)]
    exact hold.leaf address recorded haddress hrecorded hpresent

theorem Remembers.call {entries : Path → Option (BitVec 64)} {tables : Tables}
    (hold : Remembers entries tables) {call : PagingCall}
    (hguard : call.Pagewise
      (fun tables page => page.Legal tables ∧ page.Zeroed tables) tables) :
    ∃ next, pagingMachine.step tables call = .ok next ∧
      Remembers (call.recordPages entries) next := by
  rw [pagingMachine_step]
  refine Machine.run_completes_record ?_ hold hguard
  intro entries state page hstate hpage
  obtain ⟨hlegal, hzeroed⟩ := hpage
  cases page with
  | map vaddress entry => exact hstate.map entry hlegal hzeroed
  | unmap vaddress => exact hstate.unmap hlegal

theorem bootTables_flagged (rest : Memory) (pml4 : Frame)
    (supply : List Reply) :
    Flagged (bootTables rest pml4 supply).memory pml4 := by
  intro address level houtside hge hle entry hentry hpresent
  obtain ⟨table, htable, hread⟩ := Option.map_eq_some_iff.mp hentry
  obtain ⟨hbase, -⟩ := bootTables_tableOf houtside (Nat.add_sub_cancel' hle)
    (by omega) htable
  rw [hbase, bootTables_read houtside hge hle] at hread
  split at hread
  · rw [← hread]
    exact pageAddress_or_flags _
  · rw [← hread] at hpresent
    cases hpresent

theorem bootTables_remembers {rest : Memory} {pml4 : Frame}
    (supply : List Reply) (hpos : 0 < pml4.toNat)
    (hlt : pml4.toNat + 3 < 2 ^ 40) :
    Remembers (fun _ => none) (bootTables rest pml4 supply) where
  tree := bootTables_tree hpos hlt
  flagged := bootTables_flagged rest pml4 supply
  leaf := by
    intro address entry _ hentry
    cases hentry

theorem getLsbD_of_flags {entry value : BitVec 64}
    (hflags : entry &&& flagMask = value &&& flagMask) {bit : Nat}
    (hbit : bit < 64) (hflag : bit < 12 ∨ 52 ≤ bit) :
    entry.getLsbD bit = value.getLsbD bit := by
  have hsame := congrArg (fun word => word.getLsbD bit) hflags
  simpa only [BitVec.getLsbD_and, getLsbD_flagMask hbit,
    decide_eq_true hflag, Bool.and_true] using hsame

/-- The tables add nothing to what the leaf entry grants, except that they
withhold user access. -/
theorem Remembers.effectiveRights {entries : Path → Option (BitVec 64)}
    {tables : Tables} (hold : Remembers entries tables)
    {address : BitVec 64} (hcanonical : canonical address)
    (houtside : Outside address) {entry : BitVec 64}
    (hentry : entries (path address 1) = some entry)
    (hpresent : present entry = true) :
    effectiveRights tables.memory tables.root address =
      some ⟨false, entry.getLsbD 1, entry.getLsbD 63, entry.getLsbD 4⟩ := by
  have hleaf := hold.leaf address entry houtside hentry hpresent
  have habove : ∀ level, 2 ≤ level → level ≤ 4 →
      ∃ table, entryAt tables.memory tables.root address level = some table ∧
        table.getLsbD 1 = true ∧ table.getLsbD 2 = false ∧
        table.getLsbD 63 = false := by
    intro level hge hle
    have hfound : EntryPresent tables.memory tables.root address 1 :=
      ⟨entry, hleaf, hpresent⟩
    obtain ⟨table, htable, htablePresent⟩ := hfound.upward (by omega) hle
    have hflags := hold.flagged address level houtside hge hle table htable
      htablePresent
    rw [show (3#64) = 3#64 &&& flagMask by decide] at hflags
    exact ⟨table, htable, getLsbD_of_flags hflags (by decide) (by decide),
      getLsbD_of_flags hflags (by decide) (by decide),
      getLsbD_of_flags hflags (by decide) (by decide)⟩
  obtain ⟨top, htop, htopWrite, htopUser, htopExecute⟩ :=
    habove 4 (by omega) (by omega)
  obtain ⟨upper, hupper, hupperWrite, -, hupperExecute⟩ :=
    habove 3 (by omega) (by omega)
  obtain ⟨lower, hlower, hlowerWrite, -, hlowerExecute⟩ :=
    habove 2 (by omega) (by omega)
  rw [Paging.effectiveRights, if_pos hcanonical]
  simp only [htop, hupper, hlower, hleaf, Option.bind_eq_bind,
    Option.bind_some, hpresent, if_true, htopWrite, htopUser, htopExecute,
    hupperWrite, hupperExecute, hlowerWrite, hlowerExecute, Bool.false_and,
    Bool.true_and, Bool.false_or]

theorem flagEntry_noCache (flags : BitVec 32) :
    (flagEntry flags).getLsbD 4 = false := by
  simp only [flagEntry, BitVec.getLsbD_or, BitVec.natCast_eq_ofNat,
    getLsbD_ofNat_ite_zero, getLsbD_ite_zero]
  simp

/-- Every run from the boot tables completes, and its leaf entries are the
recorded ones. -/
theorem run_remembers {rest : Memory} {pml4 : Frame} {supply : List Reply}
    (hpos : 0 < pml4.toNat) (hlt : pml4.toNat + 3 < 2 ^ 40)
    {calls : List PagingCall}
    (hguard : pagingMachine.Guarded
      (fun tables call => call.Pagewise
        (fun tables page => page.Legal tables ∧ page.Zeroed tables) tables)
      (bootTables rest pml4 supply) calls) :
    ∃ tables,
      pagingMachine.run (bootTables rest pml4 supply) calls = .ok tables ∧
      Remembers (calls.foldl PagingCall.recordPages fun _ => none) tables := by
  have hstep : ∀ entries tables call, Remembers entries tables →
      PagingCall.Pagewise
        (fun tables page => page.Legal tables ∧ page.Zeroed tables) tables
        call →
      ∃ next, pagingMachine.step tables call = .ok next ∧
        Remembers (call.recordPages entries) next :=
    fun entries tables call hstate hcall => hstate.call hcall
  exact Machine.run_completes_record hstep
    (bootTables_remembers supply hpos hlt) hguard

theorem lastMap_entry {calls : List PagingCall} {page : Path}
    {flags : BitVec 32} (hlast : lastMap calls page = some flags)
    (hpresent : flags &&& vpageNotPresent = 0) :
    ∃ entry,
      calls.foldl PagingCall.recordPages (fun _ => none) page = some entry ∧
      present entry = true ∧
      ∀ bit < 64, bit < 12 ∨ 52 ≤ bit →
        entry.getLsbD bit = (flagEntry flags).getLsbD bit := by
  have hempty : Agree (fun _ => none) (fun _ => none) := by
    intro page requested h
    cases h
  obtain ⟨entry, hentry, hflags⟩ := hempty.foldl calls page flags hlast
  refine ⟨entry, hentry, ?_,
    fun bit hbit hflag => getLsbD_of_flags hflags hbit hflag⟩
  rw [present, getLsbD_of_flags hflags (by decide) (by decide)]
  exact (requestedBits_flagEntry flags).present.trans (decide_eq_true hpresent)

/-- In every run from the boot tables, a mapped page has the rights its last
`pga_map` asked for exactly when neither user access nor an uncached page was
asked for. -/
theorem run_rights_iff {rest : Memory} {pml4 : Frame} {supply : List Reply}
    (hpos : 0 < pml4.toNat) (hlt : pml4.toNat + 3 < 2 ^ 40)
    {calls : List PagingCall}
    (hguard : pagingMachine.Guarded
      (fun tables call => call.Pagewise
        (fun tables page => page.Legal tables ∧ page.Zeroed tables) tables)
      (bootTables rest pml4 supply) calls) :
    ∃ tables,
      pagingMachine.run (bootTables rest pml4 supply) calls = .ok tables ∧
      ∀ address flags, canonical address → Outside address →
        lastMap calls (path address 1) = some flags →
        flags &&& vpageNotPresent = 0 →
        (effectiveRights tables.memory tables.root address =
            some (requestedRights flags) ↔
          flags &&& vpageUserAccess = 0 ∧ flags &&& vpageNoCache = 0) := by
  obtain ⟨tables, hrun, hremembers⟩ := run_remembers hpos hlt hguard
  refine ⟨tables, hrun, ?_⟩
  intro address flags hcanonical houtside hlast hpresent
  obtain ⟨entry, hentry, hfound, hbit⟩ := lastMap_entry hlast hpresent
  have hbits := requestedBits_flagEntry flags
  rw [hremembers.effectiveRights hcanonical houtside hentry hfound,
    hbit 1 (by decide) (by decide), hbit 63 (by decide) (by decide),
    hbit 4 (by decide) (by decide), hbits.writable, hbits.noExecute,
    flagEntry_noCache, Option.some.injEq, requestedRights, Rights.mk.injEq]
  simp only [true_and]
  rw [eq_comm, @eq_comm _ false (decide _), decide_eq_false_iff_not,
    decide_eq_false_iff_not, Decidable.not_not, Decidable.not_not]

/-- Three zeroed frames for a page that no boot table covers. -/
theorem run_rights_iff_fresh :
    ∃ tables,
      pagingMachine.run
          (bootTables (fun _ _ => 0) 0x101
            [⟨0x300000, fun _ => 0⟩, ⟨0x301000, fun _ => 0⟩,
              ⟨0x302000, fun _ => 0⟩])
          [.map 0x8000000000 0xB8000 0 vpageNotWritable] = .ok tables ∧
      ∀ address flags, canonical address → Outside address →
        lastMap [.map 0x8000000000 0xB8000 0 vpageNotWritable]
          (path address 1) = some flags →
        flags &&& vpageNotPresent = 0 →
        (effectiveRights tables.memory tables.root address =
            some (requestedRights flags) ↔
          flags &&& vpageUserAccess = 0 ∧ flags &&& vpageNoCache = 0) := by
  have hmissing : missing
      (bootTables (fun _ _ => 0) 0x101 []).memory 0x101 0x8000000000 = 3 := by
    decide +kernel
  refine run_rights_iff (by decide) (by decide) ⟨⟨⟨?_, ?_⟩, ?_⟩, ?_⟩
  · refine ⟨by decide, ?_⟩
    exact (congrArg (fun count => LegalReplies _ count _) hmissing).mpr
      ⟨.inr (by decide), .inr (by decide), .inr (by decide), trivial⟩
  · exact (congrArg (fun count => ZeroedReplies count _) hmissing).mpr
      ⟨⟨by decide, 0x300, by decide⟩, fun _ => rfl,
        ⟨by decide, 0x301, by decide⟩, fun _ => rfl,
        ⟨by decide, 0x302, by decide⟩, fun _ => rfl, trivial⟩
  · exact fun _ _ => trivial
  · exact fun _ _ => trivial

/-- A page mapped for the user stays closed to the user, and one mapped without
cache is cached. -/
theorem run_rights_withheld :
    pagingMachine.Guarded
        (fun tables call => call.Pagewise
          (fun tables page => page.Legal tables ∧ page.Zeroed tables) tables)
        (bootTables (fun _ _ => 0) 0x101 [])
        [.map 0x1000 0x5000 0 (vpageUserAccess ||| vpageNoCache)] ∧
      lastMap [.map 0x1000 0x5000 0 (vpageUserAccess ||| vpageNoCache)]
        (path 0x1000 1) = some (vpageUserAccess ||| vpageNoCache) ∧
      requestedRights (vpageUserAccess ||| vpageNoCache) =
        ⟨true, true, false, true⟩ ∧
      Returns
        (pagingMachine.run (bootTables (fun _ _ => 0) 0x101 [])
          [.map 0x1000 0x5000 0 (vpageUserAccess ||| vpageNoCache)])
        fun tables =>
          effectiveRights tables.memory tables.root 0x1000 =
            some ⟨false, true, false, false⟩ := by
  have hmissing : missing
      (bootTables (fun _ _ => 0) 0x101 []).memory 0x101 0x1000 = 0 := by
    decide +kernel
  refine ⟨⟨⟨⟨?_, ?_⟩, ?_⟩, ?_⟩, by decide +kernel, by decide,
    by decide +kernel⟩
  · refine ⟨by decide, ?_⟩
    exact (congrArg (fun count => LegalReplies _ count _) hmissing).mpr trivial
  · exact (congrArg (fun count => ZeroedReplies count []) hmissing).mpr trivial
  · exact fun _ _ => trivial
  · exact fun _ _ => trivial

end Synos.Paging

import Synos.Page.Fresh
import Synos.Page.Chain
import Synos.Paging.Address
import Synos.Paging.Boot
import Synos.Paging.Frames
import Synos.Paging.PageInfo

namespace Synos.Kernel

open Synos.Paging
open Synos.Data (Fault Machine)

/-! The pages that the kernel asks for: `alloc_page` names a frame, `vpage_map`
puts it at the next free address, and the caller reads and writes its words
there. -/

structure PageSpace where
  tables : Tables
  nextFreeVpage : BitVec 64

def fnfpFrom (tables : Tables) :
    (addr : BitVec 64) → (fuel : Nat) → Except Fault (BitVec 64)
  | _, 0 => .error .endlessLoop
  | addr, fuel + 1 =>
      match pageIspresent tables addr 1 with
      | .error fault => .error fault
      | .ok false => .ok addr
      | .ok true => fnfpFrom tables (addr + 4096#64) fuel

/-- After `2 ^ 52` pages the search is back where it began. -/
def fnfp (tables : Tables) (nfp : BitVec 64) : Except Fault (BitVec 64) :=
  fnfpFrom tables nfp (2 ^ 52)

/-- `vpage_init`, once `pga_init` has left the tables as they are. -/
def vpageInit (tables : Tables) : Except Fault PageSpace :=
  match pgaMap tables 0 0 0 (vpageNotWritable ||| vpageNoExecute) with
  | .error fault => .error fault
  | .ok tables =>
      match fnfp tables 0x100000 with
      | .error fault => .error fault
      | .ok next => .ok ⟨tables, next⟩

def vpageMap (space : PageSpace) (paddress : BitVec 64) (flags : BitVec 32) :
    Except Fault (BitVec 64 × PageSpace) :=
  match pgaMap space.tables space.nextFreeVpage paddress 0 flags with
  | .error fault => .error fault
  | .ok tables =>
      match fnfp tables space.nextFreeVpage with
      | .error fault => .error fault
      | .ok next => .ok (space.nextFreeVpage, ⟨tables, next⟩)

def vpageUnmap (space : PageSpace) (vaddress : BitVec 64) :
    Except Fault PageSpace :=
  (pgaUnmap space.tables vaddress 0).map fun tables =>
    { space with tables := tables }

def getFreePageRaw (space : PageSpace) : Except Fault (BitVec 64 × PageSpace) :=
  let (pageAddress, tables) := allocPage space.tables
  if pageAddress = 0 then
    .ok (0, { space with tables := tables })
  else
    vpageMap { space with tables := tables } pageAddress 0

/-- `memset` of the first `count` words of a page to zero. -/
def clearWords (tables : Tables) (page : BitVec 64) :
    (count : Nat) → Except Fault Tables
  | 0 => .ok tables
  | count + 1 =>
      match clearWords tables page count with
      | .error fault => .error fault
      | .ok tables => store tables (wordAddress page (BitVec.ofNat 9 count)) 0

/-- `get_free_page` clears what it was given, the null pointer as well. -/
def getFreePage (space : PageSpace) : Except Fault (BitVec 64 × PageSpace) :=
  match getFreePageRaw space with
  | .error fault => .error fault
  | .ok (mem, space) =>
      match clearWords space.tables mem 512 with
      | .error fault => .error fault
      | .ok tables => .ok (mem, { space with tables := tables })

/-- `return_free_page`, over `free_page`. -/
def returnFreePage {Regions : Type} (freePage : Regions → BitVec 64 →
    Except Fault Regions) (regions : Regions) (space : PageSpace)
    (address : BitVec 64) : Except Fault (Regions × PageSpace) :=
  match pgaGetPhysAddr space.tables address with
  | .error fault => .error fault
  | .ok paddress =>
      match freePage regions paddress with
      | .error fault => .error fault
      | .ok regions =>
          (vpageUnmap space address).map fun space => (regions, space)

/-! Callers. -/

/-- A page that was handed out, and the frame `alloc_page` named for it. -/
structure PageGrant where
  page : BitVec 64
  frame : Frame

/-- The last two fields are history: the pages handed out and not unmapped
since, and the last value written to each of their words. -/
structure PageSession where
  space : PageSpace
  grants : List PageGrant
  written : BitVec 64 → BitVec 9 → Option (BitVec 64)

inductive PageRequest
  | raw
  | cleared
  | write (page : BitVec 64) (word : BitVec 9) (value : BitVec 64)
  | unmap (page : BitVec 64)

/-- Record what a request for a page was answered. -/
def PageSession.hand (session : PageSession) (space : PageSpace)
    (page : BitVec 64) (contents : Option (BitVec 64)) : PageSession :=
  if page = 0 then { session with space := space }
  else
    { space := space
      grants := ⟨page, frameOf (allocPage session.space.tables).1⟩ ::
        session.grants
      written := Function.update session.written page fun _ => contents }

def pageRequests : Machine Fault PageSession PageRequest where
  step session
    | .raw => (getFreePageRaw session.space).map fun (page, space) =>
        session.hand space page none
    | .cleared => (getFreePage session.space).map fun (page, space) =>
        session.hand space page (some 0)
    | .write page word value =>
        (store session.space.tables (wordAddress page word) value).map
          fun tables =>
            { session with
              space := { session.space with tables := tables }
              written := Function.update session.written page
                (Function.update (session.written page) word (some value)) }
    | .unmap page => (vpageUnmap session.space page).map fun space =>
        { session with
          space := space
          grants := session.grants.filter fun grant => grant.page ≠ page }

/-- While there is memory, there is enough of it for the page that is asked for
and for the tables on the way to it.  Writes and unmappings are of pages that
were handed out. -/
def PageRequest.Legal (session : PageSession) : PageRequest → Prop
  | .raw | .cleared =>
      session.space.tables.supply = [] ∨
        missing session.space.tables.memory session.space.tables.root
          session.space.nextFreeVpage < session.space.tables.supply.length
  | .write page _ _ | .unmap page => page ∈ session.grants.map PageGrant.page

/-! What is kept. -/

/-- The leaf entry of the page leads to the frame. -/
def LeafAt (tables : Tables) (page : BitVec 64) (frame : Frame) : Prop :=
  ∃ entry, entryAt tables.memory tables.root page 1 = some entry ∧
    present entry = true ∧ frameOf entry = frame

/-- A whole page between the first 2 MiB and the end of the lower half. -/
structure Handable (page : BitVec 64) : Prop where
  aligned : 4096 ∣ page.toNat
  above : 0x200000 ≤ page.toNat
  fits : page.toNat + 4096 ≤ lowHalf

/-- The pages that are mapped are the first 512 and those of `grants`, and each
of these has a frame that nothing else uses. -/
structure Granted (tables : Tables) (grants : List PageGrant) : Prop where
  tree : Tree tables 0 0
  mapped : ∀ address, Outside address →
    tables.mapped (path address 1) = true →
      path address 2 = path 0 2 ∨
        ∃ grant ∈ grants, path address 1 = path grant.page 1
  first : LeafAt tables 0 0
  leaf : ∀ grant ∈ grants, LeafAt tables grant.page grant.frame
  handable : ∀ grant ∈ grants, Handable grant.page
  pages : (grants.map PageGrant.page).Nodup
  frames : (grants.map PageGrant.frame).Nodup
  apart : ∀ grant ∈ grants,
    grant.frame ≠ 0 ∧ grant.frame ∉ tables.inUse
  unused : 0 ∉ tables.inUse
  stock : Stock (grants.map PageGrant.frame ++ tables.inUse) tables.supply

section

variable {tables : Tables} {grants : List PageGrant} {page : BitVec 64}
  {frame : Frame}

theorem LeafAt.entryPresent (hleaf : LeafAt tables page frame) :
    EntryPresent tables.memory tables.root page 1 := by
  obtain ⟨entry, hentry, hpresent, -⟩ := hleaf
  exact ⟨entry, hentry, hpresent⟩

theorem LeafAt.walk (hleaf : LeafAt tables page frame)
    (haligned : 4096 ∣ page.toNat) (hfits : page.toNat + 4096 ≤ lowHalf)
    (word : BitVec 9) :
    walk tables.memory tables.root (wordAddress page word) =
      some (frame, (wordAddress page word).extractLsb' 0 12) := by
  obtain ⟨entry, hentry, hpresent, rfl⟩ := hleaf
  obtain ⟨hpath, hcanonical, -⟩ := wordAddress_word haligned hfits word
  apply walk_of_leaf hcanonical _ hpresent
  rw [entryAt_congr (by omega) hpath]
  exact hentry

theorem LeafAt.load (hleaf : LeafAt tables page frame)
    (haligned : 4096 ∣ page.toNat) (hfits : page.toNat + 4096 ≤ lowHalf)
    (word : BitVec 9) :
    load tables (wordAddress page word) = .ok (tables.memory frame word) := by
  obtain ⟨-, -, hplace⟩ := wordAddress_word haligned hfits word
  rw [Paging.load, hleaf.walk haligned hfits word]
  simp only [hplace]

theorem LeafAt.store (hleaf : LeafAt tables page frame)
    (haligned : 4096 ∣ page.toNat) (hfits : page.toNat + 4096 ≤ lowHalf)
    (word : BitVec 9) (value : BitVec 64) :
    store tables (wordAddress page word) value =
      .ok { tables with
        memory := writeEntry tables.memory frame word value } := by
  obtain ⟨-, -, hplace⟩ := wordAddress_word haligned hfits word
  rw [Paging.store, hleaf.walk haligned hfits word]
  simp only [hplace]

theorem Handable.lt (hpage : Handable page) : page.toNat < lowHalf := by
  have := hpage.fits
  omega

theorem Handable.outside (hpage : Handable page) : Outside page :=
  outside_of_lt hpage.lt

theorem Handable.path_ne (hpage : Handable page) {address : BitVec 64}
    (hfirst : path address 2 = path 0 2) : path page 2 ≠ path address 2 := by
  intro hsame
  have hindex : ∀ level, 2 ≤ level → level ≤ 4 →
      page.toNat / 2 ^ (12 + 9 * (level - 1)) % 512 = 0 := by
    intro level hge hle
    rw [← toNat_tableIndex,
      path_eq_iff.mp (hsame.trans hfirst) level hge hle]
    simp [tableIndex]
  have htwo := hindex 2 (by omega) (by omega)
  have hthree := hindex 3 (by omega) (by omega)
  have hfour := hindex 4 (by omega) (by omega)
  have habove := hpage.above
  have hlow := hpage.lt
  simp only [Nat.reduceSub, Nat.reduceMul, Nat.reduceAdd, Nat.reducePow,
    lowHalf] at *
  omega

/-! Writes to frames that are not tables. -/

theorem LeafAt.rewrite (hleaf : LeafAt tables page frame)
    (htree : Tree tables 0 0) (houtside : Outside page) {memory : Memory}
    (hsame : ∀ table ∈ tables.inUse, memory table = tables.memory table) :
    LeafAt { tables with memory := memory } page frame := by
  obtain ⟨entry, hentry, hrest⟩ := hleaf
  refine ⟨entry, ?_, hrest⟩
  rw [← hentry]
  exact htree.entryAt_of_apart hsame houtside (Nat.le_refl 1) (by omega)

theorem Granted.rewrite (hgranted : Granted tables grants) {memory : Memory}
    (hsame : ∀ table ∈ tables.inUse, memory table = tables.memory table) :
    Granted { tables with memory := memory } grants where
  tree := hgranted.tree.of_apart hsame
  mapped := hgranted.mapped
  first := hgranted.first.rewrite hgranted.tree (by decide) hsame
  leaf := fun grant hgrant =>
    (hgranted.leaf grant hgrant).rewrite hgranted.tree
      (hgranted.handable grant hgrant).outside hsame
  handable := hgranted.handable
  pages := hgranted.pages
  frames := hgranted.frames
  apart := hgranted.apart
  unused := hgranted.unused
  stock := hgranted.stock

theorem clearWords_eq (htree : Tree tables 0 0)
    (hleaf : LeafAt tables page frame) (haligned : 4096 ∣ page.toNat)
    (hfits : page.toNat + 4096 ≤ lowHalf) (hframe : frame ∉ tables.inUse)
    {count : Nat} (hcount : count ≤ 512) :
    ∃ memory, clearWords tables page count =
        .ok { tables with memory := memory } ∧
      (∀ other, other ≠ frame → memory other = tables.memory other) ∧
      ∀ word : BitVec 9, word.toNat < count → memory frame word = 0 := by
  induction count with
  | zero =>
      refine ⟨tables.memory, rfl, fun _ _ => rfl, ?_⟩
      intro word hword
      exact absurd hword (Nat.not_lt_zero _)
  | succ count ih =>
      obtain ⟨memory, hclear, hother, hzero⟩ := ih (by omega)
      have hsame : ∀ table ∈ tables.inUse,
          memory table = tables.memory table := by
        intro table htable
        exact hother table fun heq => hframe (heq ▸ htable)
      have hstored := (hleaf.rewrite htree
        (outside_of_lt (by omega)) hsame).store haligned hfits
        (BitVec.ofNat 9 count) 0
      refine ⟨_, by simp only [clearWords, hclear]; exact hstored, ?_, ?_⟩
      · intro other hne
        rw [← hother other hne]
        exact Function.update_of_ne hne _ _
      · intro word hword
        by_cases hlast : word = BitVec.ofNat 9 count
        · rw [hlast]
          exact writeEntry_self _ _ _ _
        · change writeEntry memory frame (BitVec.ofNat 9 count) 0 frame word = 0
          rw [writeEntry_of_ne _ _ (.inr hlast)]
          apply hzero
          have hne : word.toNat ≠ count := by
            rintro rfl
            apply hlast
            simp
          omega

end

/-! The search for the next free page. -/

section

variable {tables : Tables} {grants : List PageGrant} {page : BitVec 64}
  {frame : Frame}

theorem fnfpFrom_skip (htree : Tree tables 0 0) {addr : BitVec 64}
    {count fuel : Nat}
    (hskip : ∀ i < count, EntryPresent tables.memory tables.root
      (addr + 4096#64 * BitVec.ofNat 64 i) 1)
    (hstop : ¬ EntryPresent tables.memory tables.root
      (addr + 4096#64 * BitVec.ofNat 64 count) 1) (hfuel : count < fuel) :
    fnfpFrom tables addr fuel =
      .ok (addr + 4096#64 * BitVec.ofNat 64 count) := by
  induction count generalizing addr fuel with
  | zero =>
      obtain ⟨fuel, rfl⟩ := Nat.exists_eq_add_of_lt hfuel
      have hhere : addr + 4096#64 * BitVec.ofNat 64 0 = addr := by simp
      rw [hhere] at hstop ⊢
      rw [← presentAt_iff, Bool.not_eq_true] at hstop
      rw [Nat.zero_add, fnfpFrom,
        @pageIspresent_eq tables addr 1 htree.selfMapped 3 rfl (by omega),
        hstop]
  | succ count ih =>
      obtain ⟨fuel, rfl⟩ := Nat.exists_eq_add_of_lt hfuel
      have hshift : ∀ i, addr + 4096#64 * BitVec.ofNat 64 (i + 1) =
          addr + 4096#64 + 4096#64 * BitVec.ofNat 64 i := by
        intro i
        apply BitVec.eq_of_toNat_eq
        simp only [BitVec.toNat_add, BitVec.toNat_mul, BitVec.toNat_ofNat]
        omega
      have hhere := hskip 0 (Nat.succ_pos count)
      have hzero : addr + 4096#64 * BitVec.ofNat 64 0 = addr := by simp
      rw [hzero] at hhere
      rw [fnfpFrom,
        @pageIspresent_eq tables addr 1 htree.selfMapped 3 rfl (by omega),
        presentAt_iff.mpr hhere, hshift]
      apply ih
      · intro i hi
        rw [← hshift]
        exact hskip (i + 1) (by omega)
      · rw [← hshift]
        exact hstop
      · omega

theorem fnfp_skip (htree : Tree tables 0 0) {addr : BitVec 64} {count : Nat}
    (hskip : ∀ i < count, EntryPresent tables.memory tables.root
      (addr + 4096#64 * BitVec.ofNat 64 i) 1)
    (hstop : ¬ EntryPresent tables.memory tables.root
      (addr + 4096#64 * BitVec.ofNat 64 count) 1) (hcount : count < 2 ^ 52) :
    fnfp tables addr = .ok (addr + 4096#64 * BitVec.ofNat 64 count) :=
  fnfpFrom_skip htree hskip hstop hcount

theorem Granted.absent (hgranted : Granted tables grants)
    (hpage : Handable page)
    (hbeyond : ∀ grant ∈ grants, grant.page.toNat < page.toNat) :
    ¬ EntryPresent tables.memory tables.root page 1 := by
  intro hpresent
  have hmapped := hgranted.tree.page page hpage.outside
    (not_pending_zero (Nat.le_refl 1)) hpresent
  rcases hgranted.mapped page hpage.outside hmapped with hfirst | hgrant
  · exact hpage.path_ne rfl hfirst
  · obtain ⟨grant, hgrant, hpath⟩ := hgrant
    have hother := hgranted.handable grant hgrant
    rw [path_eq_iff_page hpage.lt hother.lt] at hpath
    have hlt := hbeyond grant hgrant
    have haligned := hpage.aligned
    have hwhole := hother.aligned
    omega

end

/-! Pages that come and go. -/

section

variable {tables after : Tables} {grants : List PageGrant} {page : BitVec 64}
  {frame : Frame}

theorem frameOf_leafEntry (paddress entry : BitVec 64) :
    frameOf (leafEntry paddress entry 0) = frameOf paddress := by
  have hzero : paddress + pageOffset 0 = paddress := by simp [pageOffset]
  apply BitVec.eq_of_getLsbD_eq
  intro bit hbit
  have hframe : ¬ 52 ≤ 12 + bit := by omega
  rw [frameOf, frameOf, BitVec.getLsbD_extractLsb', BitVec.getLsbD_extractLsb',
    getLsbD_leafEntry, getLsbD_flagMask (by omega), hzero]
  simp [hframe]

theorem present_leafEntry (paddress : BitVec 64) {entry : BitVec 64}
    (hpresent : present entry = true) :
    present (leafEntry paddress entry 0) = true := by
  rw [present, getLsbD_leafEntry, getLsbD_flagMask (by decide)]
  exact hpresent

/-- Mapping a page adds a grant: the frame is one that nothing uses, and so are
the frames of the tables. -/
theorem Granted.map (hgranted : Granted tables grants) {entry : BitVec 64}
    (hpresent : present entry = true) (hframe : frameOf entry = frame)
    (hnew : frame ≠ 0 ∧ frame ∉ tables.inUse ∧
      frame ∉ grants.map PageGrant.frame)
    (hstock : Stock (frame :: grants.map PageGrant.frame ++ tables.inUse)
      tables.supply)
    (hpage : Handable page)
    (hbeyond : ∀ grant ∈ grants, grant.page.toNat < page.toNat)
    (hmaps : Maps tables after page entry) :
    Granted after (⟨page, frame⟩ :: grants) where
  tree := hmaps.tree
  mapped := by
    intro address houtside hmapped
    rw [hmaps.mapped_eq] at hmapped
    by_cases hpath : path address 1 = path page 1
    · exact .inr ⟨_, .head _, hpath⟩
    · rw [Function.update_of_ne hpath] at hmapped
      rcases hgranted.mapped address houtside hmapped with hfirst | hgrant
      · exact .inl hfirst
      · obtain ⟨grant, hgrant, hsame⟩ := hgrant
        exact .inr ⟨grant, .tail _ hgrant, hsame⟩
  first := by
    obtain ⟨first, hfirst, hrest⟩ := hgranted.first
    refine ⟨first, ?_, hrest⟩
    rw [← hfirst]
    apply hmaps.keeps 0 (by decide)
    · intro hpath
      exact hpage.path_ne rfl (path_mono hpath (by omega)).symm
    · exact hgranted.first.entryPresent
  leaf := by
    rw [List.forall_mem_cons]
    refine ⟨⟨entry, hmaps.leaf_eq, hpresent, hframe⟩, ?_⟩
    intro grant hgrant
    obtain ⟨leaf, hleaf, hrest⟩ := hgranted.leaf grant hgrant
    have hother := hgranted.handable grant hgrant
    refine ⟨leaf, ?_, hrest⟩
    rw [← hleaf]
    apply hmaps.keeps grant.page hother.outside
    · intro hpath
      rw [path_eq_iff_page hother.lt hpage.lt] at hpath
      have hlt := hbeyond grant hgrant
      have haligned := hpage.aligned
      have hwhole := hother.aligned
      omega
    · exact (hgranted.leaf grant hgrant).entryPresent
  handable := List.forall_mem_cons.mpr ⟨hpage, hgranted.handable⟩
  pages := by
    rw [List.map_cons, List.nodup_cons]
    refine ⟨?_, hgranted.pages⟩
    intro hmem
    obtain ⟨grant, hgrant, hsame⟩ := List.mem_map.mp hmem
    have hlt := hbeyond grant hgrant
    simp only at hsame
    rw [hsame] at hlt
    exact Nat.lt_irrefl _ hlt
  frames := List.nodup_cons.mpr ⟨hnew.2.2, hgranted.frames⟩
  apart := by
    obtain ⟨used, hconsumed, -⟩ := hmaps.consumed
    have hfresh : ∀ other, other ∈ frame :: grants.map PageGrant.frame →
        other ∉ framesOf used := by
      intro other hother hused
      have hsupply : other ∈ framesOf tables.supply := by
        rw [hconsumed.supply_eq, framesOf, List.map_append]
        exact List.mem_append_left _ hused
      exact (hstock.apart other hsupply).2 (List.mem_append_left _ hother)
    rw [List.forall_mem_cons]
    constructor
    · refine ⟨hnew.1, ?_⟩
      intro hmem
      rcases hconsumed.inUse frame hmem with hold | hused
      · exact hnew.2.1 hold
      · exact hfresh frame (.head _) hused
    · intro grant hgrant
      refine ⟨(hgranted.apart grant hgrant).1, ?_⟩
      intro hmem
      rcases hconsumed.inUse grant.frame hmem with hold | hused
      · exact (hgranted.apart grant hgrant).2 hold
      · exact hfresh grant.frame
          (.tail _ (List.mem_map_of_mem hgrant)) hused
  unused := by
    obtain ⟨used, hconsumed, -⟩ := hmaps.consumed
    intro hmem
    rcases hconsumed.inUse 0 hmem with hold | hused
    · exact hgranted.unused hold
    · have hsupply : (0 : Frame) ∈ framesOf tables.supply := by
        rw [hconsumed.supply_eq, framesOf, List.map_append]
        exact List.mem_append_left _ hused
      exact (hstock.apart 0 hsupply).1 rfl
  stock := by
    obtain ⟨used, hconsumed, -⟩ := hmaps.consumed
    apply (hconsumed.supply_eq ▸ hstock).drop
    intro other hother
    rw [List.map_cons, List.mem_append] at hother
    rcases hother with hgrant | htable
    · exact .inl (List.mem_append_left _ hgrant)
    · rcases hconsumed.inUse other htable with hold | hused
      · exact .inl (List.mem_append_right _ hold)
      · exact .inr hused

end

end Synos.Kernel

import Synos.Boot.Multiboot
import Synos.Data.Walk
import Mathlib.Data.List.Forall2
import Mathlib.Data.List.Nodup

namespace Synos.Boot

open Synos.Data

/-! The chain of regions against the memory map it is made from. -/

/-- An entry of the map; `rest` is what it has beyond the known fields. -/
structure MmapEntry where
  addr : BitVec 64
  len : BitVec 64
  type : BitVec 32
  rest : List UInt8
  fits : 20 + rest.length < 2 ^ 32

def MmapEntry.size (entry : MmapEntry) : BitVec 32 :=
  BitVec.ofNat 32 (20 + entry.rest.length)

def MmapEntry.bytes (entry : MmapEntry) : List UInt8 :=
  encode .little entry.size ++ (encode .little entry.addr ++
    (encode .little entry.len ++ (encode .little entry.type ++ entry.rest)))

def mmapBytes (entries : List MmapEntry) : List UInt8 :=
  entries.flatMap MmapEntry.bytes

/-- The boot loader has left a map with these entries. -/
structure HasMap (memory : Memory) (mbinf : MultibootInfo)
    (entries : List MmapEntry) : Prop where
  flag : mbinf.flags &&& multibootInfoMemMap ≠ 0
  length : mbinf.mmapLength.toNat = (mmapBytes entries).length
  buffer : Placed memory mbinf.mmapAddr.toNat (mmapBytes entries)

/-- `kmalloc` answers with a new block each time. -/
structure FreshBlocks (block : Nat → Nat) : Prop where
  ne_zero : ∀ k, block k ≠ 0
  injective : Function.Injective block

def KnownType (type : BitVec 32) : Prop := 1 ≤ type.toNat ∧ type.toNat ≤ 5

instance (type : BitVec 32) : Decidable (KnownType type) :=
  inferInstanceAs (Decidable (_ ∧ _))

section

variable {memory : Memory} {heap heap0 : RegionHeap} {block : Nat → Nat}
  {region other : Nat} {change : MemRegion → MemRegion} {entry : MmapEntry}
  {entries : List MmapEntry}

theorem MmapEntry.size_toNat (entry : MmapEntry) :
    entry.size.toNat = 20 + entry.rest.length := by
  rw [MmapEntry.size, BitVec.toNat_ofNat, Nat.mod_eq_of_lt entry.fits]

theorem MmapEntry.length_bytes (entry : MmapEntry) :
    entry.bytes.length = entry.size.toNat + 4 := by
  rw [entry.size_toNat]
  simp only [MmapEntry.bytes, List.length_append, length_encode]
  omega

theorem length_le_mmapBytes (entries : List MmapEntry) :
    entries.length ≤ (mmapBytes entries).length := by
  induction entries with
  | nil => exact Nat.le_refl _
  | cons entry entries ih =>
      have hentry := entry.length_bytes
      rw [mmapBytes] at ih
      rw [mmapBytes, List.flatMap_cons, List.length_append, List.length_cons]
      omega

theorem attribOf_available {type : BitVec 32} {attrib : BitVec 8}
    (hknown : KnownType type) :
    attribOf type attrib &&& memRegionAvailable ≠ 0 ↔
      type = multibootMemoryAvailable := by
  obtain ⟨hlow, hhigh⟩ := hknown
  obtain htype | htype | htype | htype | htype : type = 1 ∨ type = 2 ∨
      type = 3 ∨ type = 4 ∨ type = 5 := by bv_omega
  all_goals
    subst htype
    simp [attribOf, multibootMemoryAvailable, multibootMemoryReserved,
      multibootMemoryAcpiReclaimable, multibootMemoryNvs,
      multibootMemoryBadram, memRegionAvailable, memRegionMapped,
      memRegionRead, memRegionWrite, memRegionProtected, memRegionPreserve,
      memRegionBad]

theorem attribOf_unknown {type : BitVec 32} (hunknown : ¬ KnownType type)
    (attrib : BitVec 8) : attribOf type attrib = attrib := by
  have hne : ∀ known : BitVec 32, KnownType known → type ≠ known := by
    rintro known hknown rfl
    exact hunknown hknown
  rw [attribOf, if_neg (hne _ (by decide)), if_neg (hne _ (by decide)),
    if_neg (hne _ (by decide)), if_neg (hne _ (by decide)),
    if_neg (hne _ (by decide))]

theorem attribOf_available_iff {type : BitVec 32} {attrib : BitVec 8} :
    (attribOf type attrib &&& memRegionAvailable ≠ 0 ↔
        type = multibootMemoryAvailable) ↔
      KnownType type ∨ attrib &&& memRegionAvailable = 0 := by
  by_cases hknown : KnownType type
  · exact iff_of_true (attribOf_available hknown) (.inl hknown)
  · have hne : type ≠ multibootMemoryAvailable := by
      rintro rfl
      exact hknown (by decide)
    rw [attribOf_unknown hknown]
    simp only [hne, hknown, iff_false, false_or, not_not]

/-! ### The blocks -/

@[simp] theorem RegionHeap.modify_same :
    heap.modify region change region = change (heap region) :=
  Function.update_self _ _ _

theorem RegionHeap.modify_other (hne : other ≠ region) :
    heap.modify region change other = heap other :=
  Function.update_of_ne hne _ _

theorem RegionHeap.modify_field {Value : Type} (field : MemRegion → Value)
    (change : MemRegion → MemRegion)
    (hfield : ∀ region, field (change region) = field region) :
    field (heap.modify region change other) = field (heap other) := by
  by_cases heq : other = region
  · subst heq
    rw [modify_same, hfield]
  · rw [modify_other heq]

/-- The region holds the entry; the type may have left the attributes alone. -/
structure Filled (attrib : BitVec 8) (entry : MmapEntry)
    (region : MemRegion) : Prop where
  start : region.start = entry.addr
  size : region.size = entry.len
  attrib : region.attrib = attribOf entry.type attrib

/-- The chain after the entries `done`, where `heap0` is what there was before.
The blocks that follow are still untouched. -/
structure Built (block : Nat → Nat) (heap0 heap : RegionHeap)
    (done : List MmapEntry) : Prop where
  filled : ∀ k entry, done[k]? = some entry →
    Filled (heap0 (block k)).attrib entry (heap (block k))
  next : ∀ k, k + 1 < done.length → (heap (block k)).next = block (k + 1)
  last : (heap (block (done.length - 1))).next = 0
  count : (heap (block 0)).chainLength = BitVec.ofNat 32 done.length
  ahead : ∀ k, done.length ≤ k →
    (heap (block k)).attrib = (heap0 (block k)).attrib

/-- The chain with the region of the next entry in it, which is empty yet. -/
structure Ready (block : Nat → Nat) (heap0 heap : RegionHeap)
    (done : List MmapEntry) : Prop where
  filled : ∀ k entry, done[k]? = some entry →
    Filled (heap0 (block k)).attrib entry (heap (block k))
  next : ∀ k, k < done.length → (heap (block k)).next = block (k + 1)
  last : (heap (block done.length)).next = 0
  count : (heap (block 0)).chainLength = BitVec.ofNat 32 done.length
  ahead : ∀ k, done.length ≤ k →
    (heap (block k)).attrib = (heap0 (block k)).attrib

theorem Filled.modify {attrib : BitVec 8}
    (hfilled : Filled attrib entry (heap other))
    (change : MemRegion → MemRegion)
    (hstart : ∀ region, (change region).start = region.start)
    (hsize : ∀ region, (change region).size = region.size)
    (hattrib : ∀ region, (change region).attrib = region.attrib) :
    Filled attrib entry (heap.modify region change other) where
  start := (RegionHeap.modify_field _ _ hstart).trans hfilled.start
  size := (RegionHeap.modify_field _ _ hsize).trans hfilled.size
  attrib := (RegionHeap.modify_field _ _ hattrib).trans hfilled.attrib

/-- `X64.mmap` with no entry in it. -/
theorem ready_nil :
    Ready block heap0 (heap0.modify (block 0) clearRegion) [] where
  filled _ _ hentry := by cases hentry
  next k hlt := by cases hlt
  last := by
    rw [List.length_nil, RegionHeap.modify_same]
    rfl
  count := by
    rw [RegionHeap.modify_same]
    rfl
  ahead _ _ := RegionHeap.modify_field MemRegion.attrib clearRegion fun _ => rfl

theorem FreshBlocks.ne (hfresh : FreshBlocks block) {k l : Nat} (hne : k ≠ l) :
    block k ≠ block l :=
  fun heq => hne (hfresh.injective heq)

theorem Built.ready {done : List MmapEntry} (hfresh : FreshBlocks block)
    (hbuilt : Built block heap0 heap done) (hpos : 0 < done.length) :
    Ready block heap0 (addRegion heap (block (done.length - 1))
      (block done.length)) done where
  filled k entry hentry :=
    ((hbuilt.filled k entry hentry).modify (linkRegion _) (fun _ => rfl)
      (fun _ => rfl) fun _ => rfl).modify clearRegion (fun _ => rfl)
      (fun _ => rfl) fun _ => rfl
  next k hlt := by
    rw [addRegion, RegionHeap.modify_other (hfresh.ne (by omega))]
    by_cases hlast : k = done.length - 1
    · subst hlast
      rw [RegionHeap.modify_same, Nat.sub_add_cancel hpos]
      rfl
    · rw [RegionHeap.modify_other (hfresh.ne hlast),
        hbuilt.next k (by omega)]
  last := by
    rw [addRegion, RegionHeap.modify_same]
    rfl
  count := by
    rw [addRegion, RegionHeap.modify_other (hfresh.ne (by omega))]
    exact (RegionHeap.modify_field MemRegion.chainLength (linkRegion _)
      fun _ => rfl).trans hbuilt.count
  ahead k hle :=
    ((RegionHeap.modify_field MemRegion.attrib clearRegion
      fun _ => rfl).trans (RegionHeap.modify_field MemRegion.attrib
        (linkRegion _) fun _ => rfl)).trans (hbuilt.ahead k hle)

theorem fillRegion_filled {ent : Nat}
    (hplaced : Placed memory ent entry.bytes) {node : MemRegion} :
    Filled node.attrib entry (fillRegion memory ent node) := by
  simp only [MmapEntry.bytes, placed_append, length_encode, Nat.reduceDiv,
    Nat.add_assoc, Nat.reduceAdd] at hplaced
  obtain ⟨-, haddr, hlen, htype, -⟩ := hplaced
  refine ⟨haddr.load_eq (by decide), hlen.load_eq (by decide), ?_⟩
  have htypeEq : load 32 memory (ent + 20) = entry.type :=
    htype.load_eq (by decide)
  rw [fillRegion, htypeEq]

theorem fillRegion_next (ent : Nat) (node : MemRegion) :
    (fillRegion memory ent node).next = node.next := by
  rw [fillRegion]

theorem fillRegion_chainLength (ent : Nat) (node : MemRegion) :
    (fillRegion memory ent node).chainLength = node.chainLength := by
  rw [fillRegion]

theorem Ready.built {done : List MmapEntry} (hfresh : FreshBlocks block)
    (hready : Ready block heap0 heap done) {ent : Nat}
    (hplaced : Placed memory ent entry.bytes) :
    Built block heap0 ((heap.modify (block done.length)
      (fillRegion memory ent)).modify (block 0) countRegion)
      (done ++ [entry]) where
  filled k other hother := by
    refine Filled.modify ?_ countRegion (fun _ => rfl) (fun _ => rfl)
      fun _ => rfl
    rw [List.getElem?_append] at hother
    split at hother
    · next hlt =>
        rw [RegionHeap.modify_other (hfresh.ne (by omega))]
        exact hready.filled k other hother
    · next hge =>
        obtain ⟨hzero, rfl⟩ : k - done.length = 0 ∧ entry = other := by
          simpa [List.getElem?_singleton] using hother
        obtain rfl : k = done.length := by omega
        rw [RegionHeap.modify_same, ← hready.ahead _ (Nat.le_refl _)]
        exact fillRegion_filled hplaced
  next k hlt := by
    rw [List.length_append, List.length_singleton] at hlt
    rw [RegionHeap.modify_field MemRegion.next countRegion (fun _ => rfl),
      RegionHeap.modify_field MemRegion.next (fillRegion memory ent)
        (fillRegion_next ent)]
    exact hready.next k (by omega)
  last := by
    rw [List.length_append, List.length_singleton, Nat.add_sub_cancel,
      RegionHeap.modify_field MemRegion.next countRegion (fun _ => rfl),
      RegionHeap.modify_field MemRegion.next (fillRegion memory ent)
        (fillRegion_next ent)]
    exact hready.last
  count := by
    have hfill := @RegionHeap.modify_field heap (block done.length) (block 0)
      _ MemRegion.chainLength (fillRegion memory ent) (fillRegion_chainLength ent)
    rw [RegionHeap.modify_same, List.length_append, List.length_singleton,
      BitVec.ofNat_add, ← hready.count, ← hfill]
    generalize heap.modify (block done.length) _ (block 0) = node
    rfl
  ahead k hle := by
    rw [List.length_append, List.length_singleton] at hle
    rw [RegionHeap.modify_field MemRegion.attrib countRegion (fun _ => rfl),
      RegionHeap.modify_other (hfresh.ne (by omega))]
    exact hready.ahead k (by omega)

theorem mmap_cons {ent : Nat} {rest : List MmapEntry}
    (hplaced : Placed memory ent (mmapBytes (entry :: rest))) :
    load 32 memory ent = entry.size ∧ Placed memory ent entry.bytes ∧
      Placed memory (ent + entry.size.toNat + 4) (mmapBytes rest) := by
  rw [mmapBytes, List.flatMap_cons, placed_append, entry.length_bytes,
    ← Nat.add_assoc] at hplaced
  have hsize := hplaced.1
  rw [MmapEntry.bytes, placed_append] at hsize
  exact ⟨hsize.1.load_eq (by decide), hplaced⟩

theorem length_mmapBytes_cons (rest : List MmapEntry) :
    (mmapBytes (entry :: rest)).length =
      entry.size.toNat + 4 + (mmapBytes rest).length := by
  rw [mmapBytes, List.flatMap_cons, List.length_append, entry.length_bytes,
    mmapBytes]

theorem mapLoop_built (hfresh : FreshBlocks block) {done rest : List MmapEntry}
    {fuel ent stop : Nat} (hbuilt : Built block heap0 heap done)
    (hpos : 0 < done.length) (hplaced : Placed memory ent (mmapBytes rest))
    (hstop : ent + (mmapBytes rest).length = stop) (hspace : stop < wordSize)
    (hfuel : rest.length < fuel) :
    ∃ last, mapLoop memory block (block 0) stop fuel ent
        (block (done.length - 1)) done.length heap = .ok last ∧
      Built block heap0 last (done ++ rest) := by
  induction rest generalizing fuel ent done heap with
  | nil =>
      obtain ⟨fuel, rfl⟩ : ∃ rest, fuel = rest + 1 := ⟨fuel - 1, by omega⟩
      have hend : stop ≤ ent := by
        rw [← hstop]
        exact Nat.le_refl _
      rw [mapLoop, if_pos hend, List.append_nil]
      exact ⟨heap, rfl, hbuilt⟩
  | cons entry rest ih =>
      obtain ⟨fuel, rfl⟩ : ∃ rest, fuel = rest + 1 := ⟨fuel - 1, by omega⟩
      obtain ⟨hsize, hentry, hrest⟩ := mmap_cons hplaced
      rw [length_mmapBytes_cons] at hstop
      have hmore : ¬ stop ≤ ent := by omega
      have hnext : word (ent + entry.size.toNat + 4) =
          ent + entry.size.toNat + 4 := word_of_lt (by omega)
      obtain ⟨last, hloop, hlast⟩ := ih
        ((hbuilt.ready hfresh hpos).built hfresh hentry) (by simp) hrest
        (by omega) (Nat.lt_of_succ_lt_succ hfuel)
      rw [List.length_append, List.length_singleton,
        Nat.add_sub_cancel] at hloop
      rw [mapLoop, if_neg hmore, if_neg (hfresh.ne_zero _),
        if_neg (hfresh.ne_zero _), hsize, hnext]
      rw [List.append_assoc] at hlast
      exact ⟨last, hloop, hlast⟩

/-- With an entry at the least, each entry gets a region. -/
theorem initMmap_built {mbinf : MultibootInfo} (hfresh : FreshBlocks block)
    (hmap : HasMap memory mbinf entries) (hsome : entries ≠ []) :
    ∃ last, initMmap memory block mbinf heap0 = .ok (block 0, last) ∧
      Built block heap0 last entries := by
  cases entries with
  | nil => exact absurd rfl hsome
  | cons entry rest =>
      have hlength := hmap.length
      have hplaced := hmap.buffer
      have haddr := mbinf.mmapAddr.isLt
      have hsmall := mbinf.mmapLength.isLt
      have hfew := length_le_mmapBytes rest
      obtain ⟨hsize, hentry, hrest⟩ := mmap_cons hplaced
      rw [length_mmapBytes_cons] at hlength
      have hmore : ¬ mbinf.mmapAddr.toNat + mbinf.mmapLength.toNat ≤
          mbinf.mmapAddr.toNat := by omega
      have hspace : mbinf.mmapAddr.toNat + mbinf.mmapLength.toNat <
          wordSize := by
        simp only [wordSize]
        omega
      have hnext : word (mbinf.mmapAddr.toNat + entry.size.toNat + 4) =
          mbinf.mmapAddr.toNat + entry.size.toNat + 4 :=
        word_of_lt (by omega)
      obtain ⟨last, hloop, hlast⟩ := mapLoop_built hfresh
        (ready_nil.built hfresh hentry) (by simp) hrest (by omega) hspace
        (show rest.length < mbinf.mmapLength.toNat by omega)
      refine ⟨last, ?_, hlast⟩
      rw [List.nil_append, List.length_singleton, List.length_nil,
        Nat.sub_self] at hloop
      rw [initMmap, if_pos hmap.flag, if_neg (hfresh.ne_zero _), mapLoop,
        if_neg hmore, if_pos rfl, hsize, hnext]
      beta_reduce
      rw [hloop]

theorem initMmap_nil {mbinf : MultibootInfo} (hfresh : FreshBlocks block)
    (hmap : HasMap memory mbinf []) :
    initMmap memory block mbinf heap0 =
      .ok (block 0, heap0.modify (block 0) clearRegion) := by
  have hlength : mbinf.mmapLength.toNat = 0 := hmap.length
  rw [initMmap, if_pos hmap.flag, if_neg (hfresh.ne_zero _), hlength, mapLoop,
    if_pos (by omega)]

/-- The chain that is handed to the kernel, by whether the map is empty. -/
def Chain (block : Nat → Nat) (heap0 heap : RegionHeap) :
    List MmapEntry → Prop
  | [] => (heap (block 0)).next = 0
  | entry :: rest => Built block heap0 heap (entry :: rest)

theorem mbootInit_chain {answer : Nat → Nat} {mbp : BitVec 32}
    {x64 : BootInfo} (hanswer : ∀ call, answer call ≠ 0)
    (hfresh : FreshBlocks block)
    (hmap : HasMap memory (readInfo memory mbp.toNat) entries) :
    ∃ boot, mbootInit memory answer block multibootBootloaderMagic mbp x64
        heap0 = .ok boot ∧ boot.1.mmap = block 0 ∧
      Chain block heap0 boot.2 entries := by
  obtain ⟨found, hfound⟩ : ∃ found, initSymbols memory answer
      (readInfo memory mbp.toNat) x64 = .ok found := by
    rw [initSymbols]
    split
    · obtain ⟨symbols, hsearch⟩ := @tabSearch_ok memory
        ⟨(readInfo memory mbp.toNat).elfSecAddr.toNat,
          (readInfo memory mbp.toNat).elfSecNum⟩ answer hanswer x64.symbols
      simp only [hsearch]
      exact ⟨_, rfl⟩
    · exact ⟨_, rfl⟩
  obtain ⟨last, hlast, hchain⟩ : ∃ last, initMmap memory block
      (readInfo memory mbp.toNat) heap0 = .ok (block 0, last) ∧
        Chain block heap0 last entries := by
    cases entries with
    | nil =>
        refine ⟨_, initMmap_nil hfresh hmap, ?_⟩
        rw [Chain, RegionHeap.modify_same]
        rfl
    | cons entry rest => exact initMmap_built hfresh hmap (by simp)
  simp only [mbootInit, ne_eq, not_true_eq_false, if_false, hfound, hlast]
  exact ⟨_, rfl, rfl, hchain⟩

/-! ### The exact chain -/

/-- The region says of the entry what it should. -/
structure Describes (region : MemRegion) (entry : MmapEntry) : Prop where
  start : region.start = entry.addr
  size : region.size = entry.len
  available : region.attrib &&& memRegionAvailable ≠ 0 ↔
    entry.type = multibootMemoryAvailable

/-- One region for each entry, in the order of the map. -/
structure ExactChain (entries : List MmapEntry) (mmap : Nat)
    (heap : RegionHeap) : Prop where
  regions : ∃ nodes, Linked (fun node => (heap node).next) mmap nodes ∧
    List.Forall₂ (fun node entry => Describes (heap node) entry) nodes entries
  length : entries ≠ [] → (heap mmap).chainLength.toNat = entries.length

/-- What `getMEMID` is to say of the map. -/
structure Reports (entries : List MmapEntry) (mem : MemId) : Prop where
  count : mem.nEntries.toNat = entries.length
  total : mem.totalSize.toNat = (entries.map fun entry => entry.len.toNat).sum

theorem Filled.describes_iff {attrib : BitVec 8} {node : MemRegion}
    (hfilled : Filled attrib entry node) :
    Describes node entry ↔
      KnownType entry.type ∨ attrib &&& memRegionAvailable = 0 := by
  rw [← attribOf_available_iff, ← hfilled.attrib]
  exact ⟨fun hdescribes => hdescribes.available,
    fun havailable => ⟨hfilled.start, hfilled.size, havailable⟩⟩

theorem Built.linked (hbuilt : Built block heap0 heap entries)
    (hfresh : FreshBlocks block) (hsome : entries ≠ []) :
    Linked (fun node => (heap node).next) (block 0)
      ((List.range' 0 entries.length).map block) := by
  obtain ⟨count, hcount⟩ :=
    Nat.exists_eq_succ_of_ne_zero (List.length_pos_iff.mpr hsome).ne'
  have hlast := hbuilt.last
  rw [hcount] at hlast ⊢
  refine linked_range hfresh.ne_zero ?_ ?_
  · intro k _ hlt
    exact hbuilt.next k (by omega)
  · rwa [Nat.zero_add]

theorem forall₂_blocks_iff {related : Nat → MmapEntry → Prop} :
    List.Forall₂ related ((List.range' 0 entries.length).map block) entries ↔
      ∀ k entry, entries[k]? = some entry → related (block k) entry := by
  rw [List.forall₂_iff_get]
  simp only [List.length_map, List.length_range', List.get_eq_getElem,
    List.getElem_map, List.getElem_range', Nat.zero_add, Nat.one_mul, true_and]
  constructor
  · intro hall k entry hentry
    obtain ⟨hlt, rfl⟩ := List.getElem?_eq_some_iff.mp hentry
    exact hall k hlt hlt
  · intro hall k hlt _
    exact hall k _ (List.getElem?_eq_getElem hlt)

theorem totalLoop_eq {nodes : List Nat} {start : Nat} {total : BitVec 64}
    (hlinked : Linked (fun node => (heap node).next) start nodes)
    (hsizes : List.Forall₂ (fun node entry => (heap node).size = entry.len)
      nodes entries) :
    totalLoop heap entries.length start total =
      .ok (total + BitVec.ofNat 64
        (entries.map fun entry => entry.len.toNat).sum) := by
  induction hsizes generalizing start total with
  | nil => simp [totalLoop]
  | @cons node entry nodes entries hsize hsizes ih =>
      obtain ⟨rfl, hne, hrest⟩ := hlinked
      rw [List.length_cons, totalLoop, if_neg hne, ih hrest, hsize,
        List.map_cons, List.sum_cons, BitVec.ofNat_add, BitVec.ofNat_toNat,
        BitVec.setWidth_eq, BitVec.add_assoc]

theorem Built.reports_iff (hbuilt : Built block heap0 heap entries)
    (hfresh : FreshBlocks block) (hsome : entries ≠ [])
    (hsmall : entries.length < 2 ^ 32) {x64 : BootInfo}
    (hmmap : x64.mmap = block 0) {mem : MemId} :
    Returns (getMemId x64 heap mem) (Reports entries) ↔
      (entries.map fun entry => entry.len.toNat).sum < 2 ^ 64 := by
  have hcount : (heap (block 0)).chainLength.toNat = entries.length := by
    rw [hbuilt.count, BitVec.toNat_ofNat, Nat.mod_eq_of_lt hsmall]
  have hsizes : List.Forall₂ (fun node entry => (heap node).size = entry.len)
      ((List.range' 0 entries.length).map block) entries :=
    forall₂_blocks_iff.mpr fun k entry hentry =>
      (hbuilt.filled k entry hentry).size
  rw [getMemId, hmmap, if_neg (hfresh.ne_zero 0), hcount,
    totalLoop_eq (hbuilt.linked hfresh hsome) hsizes, BitVec.zero_add,
    returns_ok]
  constructor
  · rintro ⟨-, htotal⟩
    rw [← htotal]
    exact BitVec.isLt _
  · intro hlt
    refine ⟨?_, ?_⟩
    · rw [BitVec.toNat_setWidth, hcount]
      exact Nat.mod_eq_of_lt (by omega)
    · exact (BitVec.toNat_ofNat _ _).trans (Nat.mod_eq_of_lt hlt)

/-- A chain that was built is exact when no region of an unknown type has got
the attribute from what its block held before. -/
theorem Built.exactChain_iff (hbuilt : Built block heap0 heap entries)
    (hfresh : FreshBlocks block) (hsome : entries ≠ [])
    (hsmall : entries.length < 2 ^ 32) :
    ExactChain entries (block 0) heap ↔
      ∀ k entry, entries[k]? = some entry → KnownType entry.type ∨
        (heap0 (block k)).attrib &&& memRegionAvailable = 0 := by
  have hlinked := hbuilt.linked hfresh hsome
  constructor
  · rintro ⟨⟨nodes, hnodes, hdescribe⟩, -⟩ k entry hentry
    obtain rfl := hnodes.unique hlinked
    exact (hbuilt.filled k entry hentry).describes_iff.mp
      (forall₂_blocks_iff.mp hdescribe k entry hentry)
  · intro hknown
    refine ⟨⟨_, hlinked, forall₂_blocks_iff.mpr ?_⟩, ?_⟩
    · intro k entry hentry
      exact (hbuilt.filled k entry hentry).describes_iff.mpr
        (hknown k entry hentry)
    · intro _
      rw [hbuilt.count, BitVec.toNat_ofNat, Nat.mod_eq_of_lt hsmall]

/-- The chain and the report are exact for every map that is not empty, in which
each region of an unknown type meets a block without the attribute and the
lengths do not add up to more than 64 bits hold. -/
theorem mbootInit_exact_iff {answer : Nat → Nat} {mbp : BitVec 32}
    {x64 : BootInfo} {mem : MemId} (hanswer : ∀ call, answer call ≠ 0)
    (hfresh : FreshBlocks block)
    (hmap : HasMap memory (readInfo memory mbp.toNat) entries) :
    Returns (mbootInit memory answer block multibootBootloaderMagic mbp x64
        heap0) (fun boot => ExactChain entries boot.1.mmap boot.2 ∧
          Returns (getMemId boot.1 boot.2 mem) (Reports entries)) ↔
      entries ≠ [] ∧
        (∀ k entry, entries[k]? = some entry → KnownType entry.type ∨
          (heap0 (block k)).attrib &&& memRegionAvailable = 0) ∧
        (entries.map fun entry => entry.len.toNat).sum < 2 ^ 64 := by
  obtain ⟨boot, hboot, hmmap, hchain⟩ :=
    @mbootInit_chain memory heap0 block entries answer mbp x64 hanswer hfresh
      hmap
  rw [hboot, returns_ok]
  cases entries with
  | nil =>
      refine iff_of_false ?_ (fun hsome => hsome.1 rfl)
      rintro ⟨⟨⟨nodes, hlinked, hdescribe⟩, -⟩, -⟩
      cases hdescribe
      exact hfresh.ne_zero 0 (hmmap.symm.trans hlinked)
  | cons entry rest =>
      have hsome : entry :: rest ≠ [] := by simp
      have hsmall : (entry :: rest).length < 2 ^ 32 := by
        have hlength := hmap.length
        have hbytes := length_le_mmapBytes (entry :: rest)
        have hfits := (readInfo memory mbp.toNat).mmapLength.isLt
        omega
      rw [hmmap, hchain.exactChain_iff hfresh hsome hsmall,
        hchain.reports_iff hfresh hsome hsmall hmmap]
      exact ⟨fun hboth => ⟨hsome, hboth⟩, fun hall => hall.2⟩

end

/-- A multiboot information with a memory map right behind the fields that are
looked at, and no section headers. -/
def infoWith (entries : List MmapEntry) : Memory :=
  image 0x9000 (encode .little multibootInfoMemMap ++ List.replicate 40 0 ++
    encode .little (BitVec.ofNat 32 (mmapBytes entries).length) ++
    encode .little 0x9034#32 ++ mmapBytes entries)

def availableEntry : MmapEntry := ⟨0x100000, 0x7F00000, 1, [], by decide⟩

/-- A type that the kernel does not know. -/
def persistentEntry : MmapEntry := ⟨0x100000000, 0x1000, 7, [0, 0], by decide⟩

def noBootInfo : BootInfo :=
  ⟨noSymbols, ⟨0, 0⟩, ⟨.framebufferTypeLength, 0, 0, 0⟩, 0⟩

/-- Blocks that something else has been in. -/
def usedHeap : RegionHeap := fun _ => ⟨0, 0, 0xFF, 0, 0xFFFFFFFF, 8, 1⟩

def sampleBlock (k : Nat) : Nat := 0x300000 + 0x50 * k

theorem sampleBlock_fresh : FreshBlocks sampleBlock where
  ne_zero k := by
    rw [sampleBlock]
    omega
  injective k l heq := by
    simp only [sampleBlock] at heq
    omega

/-- Memory of an unknown type becomes available. -/
theorem mbootInit_not_exact :
    (∀ call, sampleAnswer call ≠ 0) ∧ FreshBlocks sampleBlock ∧
      HasMap (infoWith [persistentEntry])
        (readInfo (infoWith [persistentEntry]) (0x9000#32).toNat)
        [persistentEntry] ∧
      ¬ Returns (mbootInit (infoWith [persistentEntry]) sampleAnswer
          sampleBlock multibootBootloaderMagic 0x9000 noBootInfo usedHeap)
        (fun boot => ExactChain [persistentEntry] boot.1.mmap boot.2 ∧
          Returns (getMemId boot.1 boot.2 ⟨true, 0, 0⟩)
            (Reports [persistentEntry])) := by
  refine ⟨sampleAnswer_ne_zero, sampleBlock_fresh,
    ⟨by decide +kernel, by decide +kernel, by decide +kernel⟩, ?_⟩
  intro hreturns
  obtain ⟨boot, hboot, hexact, -⟩ := returns_iff.mp hreturns
  obtain ⟨nodes, hlinked, hdescribe⟩ := hexact.regions
  cases hdescribe with
  | cons hhead htail =>
      obtain ⟨rfl, -, -⟩ := hlinked
      have hattrib : (mbootInit (infoWith [persistentEntry]) sampleAnswer
          sampleBlock multibootBootloaderMagic 0x9000 noBootInfo
          usedHeap).map (fun boot => (boot.2 boot.1.mmap).attrib) =
            .ok 0xFF := by
        decide +kernel
      rw [hboot] at hattrib
      have hbyte : (boot.2 boot.1.mmap).attrib = 0xFF := Except.ok.inj hattrib
      have havailable := hhead.available
      rw [hbyte] at havailable
      exact absurd (havailable.mp (by decide)) (by decide)

theorem mbootInit_exact_available :
    Returns (mbootInit (infoWith [availableEntry]) sampleAnswer sampleBlock
        multibootBootloaderMagic 0x9000 noBootInfo usedHeap)
        (fun boot => ExactChain [availableEntry] boot.1.mmap boot.2 ∧
          Returns (getMemId boot.1 boot.2 ⟨true, 0, 0⟩)
            (Reports [availableEntry])) ↔
      [availableEntry] ≠ [] ∧
        (∀ k entry, [availableEntry][k]? = some entry →
          KnownType entry.type ∨
            (usedHeap (sampleBlock k)).attrib &&& memRegionAvailable = 0) ∧
        ([availableEntry].map fun entry => entry.len.toNat).sum < 2 ^ 64 :=
  mbootInit_exact_iff sampleAnswer_ne_zero sampleBlock_fresh
    ⟨by decide +kernel, by decide +kernel, by decide +kernel⟩

end Synos.Boot

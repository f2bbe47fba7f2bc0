import Synos.Mm.Wipe

namespace Synos.Mm

open Synos.Data
open Synos.Paging (virtPageSize)

/-! `kfree`.  The address is compared with `p + sizeof(mpointer_t)`, which lies
`sizeof(mpointer_t)` pointers behind `p`, so what is found, if anything, is never
the pointer of the block. -/

structure Block (headers : List Header) (address : Nat) where
  front : List Header
  header : Header
  back : List Header
  before : List Segment
  kept : Segment
  after : List Segment
  headers_eq : headers = front ++ header :: back
  segments_eq : header.segments = before ++ kept :: after
  allocated : kept.free = false
  positive : 0 < kept.length
  address_eq : address = header.start + spans before + mpointerSize

def Header.blocks (header : Header) : List (Nat × Segment) :=
  header.pointers.filter (fun pointer => !pointer.2.free)

/-- The block is free again, and no other; nothing else of the memory but the
header's own words is written, and no two neighbours are free. -/
structure Block.Released {headers : List Header} {address : Nat}
    (block : Block headers address) (kernel freed : Kernel)
    (segments : List Segment) : Prop where
  spans : spans segments = spans block.header.segments
  holds : freed.Holds
    (block.front ++ ⟨block.header.base, segments⟩ :: block.back)
  blocks : Header.blocks ⟨block.header.base, segments⟩ =
    block.header.blocks.filter
      (fun pointer => decide (pointer.1 + mpointerSize ≠ address))
  coalesced : segments.IsChain
    (fun segment next => ¬ (segment.free = true ∧ next.free = true))
  bytes : ∀ place, freed.memory place ≠ kernel.memory place →
    (address ≤ place ∧ place < address + block.kept.length) ∨
    (block.header.base + 8 ≤ place ∧ place < block.header.base + 16) ∨
    ∃ pointer ∈ block.header.pointers,
      pointer.1 ≤ place ∧ place < pointer.1 + mpointerSize

/-- `kfree` frees the block at the address; where there is none, it changes
nothing. -/
def Frees (headers : List Header) (address : Nat) (kernel freed : Kernel) :
    Prop :=
  (∀ block : Block headers address,
    ∃ segments, block.Released kernel freed segments) ∧
  (IsEmpty (Block headers address) → freed = kernel)

def Header.Contains (header : Header) (address : Nat) : Prop :=
  header.base < address ∧ address < wordAdd header.base header.size

section

variable {kernel : Kernel} {front back : List Header} {header : Header}
  {memory : Memory} {address p : Nat}

theorem Header.Contains.bounds (hcontains : header.Contains address) :
    header.base < address ∧ address < header.base + header.size ∧
      address < wordSize := by
  obtain ⟨hlow, hhigh⟩ := hcontains
  have hlt := word_lt (header.base + header.size)
  have hle : word (header.base + header.size) ≤ header.base + header.size :=
    Nat.mod_le _ _
  rw [wordAdd] at hhigh
  omega

theorem Kernel.Holds.search_contains
    (hholds : kernel.Holds (front ++ header :: back))
    (hcontains : header.Contains address) :
    ∃ last, searchList (headerNext kernel.memory)
      (fun h => decide (h < address ∧
        address < wordAdd h (headerSize kernel.memory h)))
      wordSize 0 kernel.headerStart = .ok (header.base, last) := by
  refine hholds.search_some ?_ ?_
  · intro other hother
    have hapart := hholds.apart_of_mem (.inl hother)
    have hsize := (hholds.stored other (by simp [hother])).size
    have hbounds := hcontains.bounds
    rw [decide_eq_false_iff_not, hsize]
    intro hother
    have hother := Header.Contains.bounds hother
    simp only [Header.Apart] at hapart
    omega
  · rw [decide_eq_true_eq, (hholds.stored header (by simp)).size]
    exact hcontains

theorem pointerAhead_eq_iff (hpage : virtPageSize ≤ header.base)
    (hinside : header.base + header.size ≤ wordSize)
    (hcontains : header.Contains address)
    (hp : p ∈ header.pointers.map Prod.fst) :
    pointerAhead p = address ↔ p + mpointerSize * mpointerSize = address := by
  have hbounds := hcontains.bounds
  have hspace := (Header.Chained.spaced hinside).inside p hp
  simp only [pointerAhead, wordAdd, word, wordSize, mpointerSize,
    virtPageSize] at *
  omega

theorem kfree_found (henabled : kernel.mmuEnabled = true)
    (hholds : kernel.Holds (front ++ header :: back))
    (hpage : virtPageSize ≤ header.base)
    (hcontains : header.Contains address)
    (hp : p ∈ header.pointers.map Prod.fst)
    (hahead : p + mpointerSize * mpointerSize = address) :
    kfree kernel address = kfreeFrom kernel header.base p address := by
  have hmem : header ∈ front ++ header :: back := by simp
  have hinside := hholds.inside header hmem
  have hchained := (hholds.stored header hmem).toChained
  obtain ⟨last, hheader⟩ := hholds.search_contains hcontains
  obtain ⟨before, found, after, hnodes, hfound, hbefore⟩ :=
    @exists_first _ (header.pointers.map Prod.fst)
      (fun p => pointerAhead p = address) _
      ⟨p, hp, (pointerAhead_eq_iff hpage hinside hcontains hp).mpr hahead⟩
  have hmemFound : found ∈ header.pointers.map Prod.fst := by
    rw [hnodes]
    simp
  have hsame : found = p := by
    have haheadFound :=
      (pointerAhead_eq_iff hpage hinside hcontains hmemFound).mp hfound
    omega
  subst hsame
  have hchain := hchained.chain
  have hcount := Header.pointers_length_lt hinside
  rw [hnodes] at hchain hcount
  have hpointer := @searchList_of_found _
    (fun p => decide (pointerAhead p = address)) wordSize 0 _ before after
    found hchain
    (by rw [List.length_append] at hcount; omega)
    (fun node hnode => by simpa using hbefore node hnode)
    (decide_eq_true hfound)
  rw [kfree, if_neg (by simp [henabled])]
  simp only [hheader, hchained.start_eq hinside, hpointer]
  rw [if_neg (hholds.base_ne_zero hmem), if_neg hchain.of_append.1]

theorem kfree_missed {headers : List Header}
    (henabled : kernel.mmuEnabled = true) (hholds : kernel.Holds headers)
    (hpage : ∀ header ∈ headers, virtPageSize ≤ header.base)
    (hmissed : ∀ header ∈ headers, header.Contains address →
      ∀ p ∈ header.pointers.map Prod.fst,
        p + mpointerSize * mpointerSize ≠ address) :
    kfree kernel address = .ok kernel := by
  by_cases hsome : ∃ header ∈ headers, header.Contains address
  · obtain ⟨header, hmem, hcontains⟩ := hsome
    obtain ⟨front, back, rfl⟩ := List.append_of_mem hmem
    have hinside := hholds.inside header hmem
    have hchained := (hholds.stored header hmem).toChained
    obtain ⟨last, hheader⟩ := hholds.search_contains hcontains
    have hpointer := @searchList_of_none _
      (fun p => decide (pointerAhead p = address)) wordSize 0 _ _
      hchained.chain (Header.pointers_length_lt hinside)
      (fun p hp => by
        rw [decide_eq_false_iff_not,
          pointerAhead_eq_iff (hpage header hmem) hinside hcontains hp]
        exact hmissed header hmem hcontains p hp)
    rw [kfree, if_neg (by simp [henabled])]
    simp only [hheader, hchained.start_eq hinside, hpointer]
    exact if_neg (hholds.base_ne_zero hmem)
  · have hheader := @Kernel.Holds.search_none _ _ hholds
      (fun h => decide (h < address ∧
        address < wordAdd h (headerSize kernel.memory h)))
      (fun other hother => by
        rw [decide_eq_false_iff_not, (hholds.stored other hother).size]
        exact fun hcontains => hsome ⟨other, hother, hcontains⟩)
    rw [kfree, if_neg (by simp [henabled])]
    simp only [hheader, if_true]

/-- Behind an address that is found the size does not wrap around, or the header
is wiped. -/
theorem kfree_found_eq_iff (henabled : kernel.mmuEnabled = true)
    (hholds : kernel.Holds (front ++ header :: back))
    (hpage : virtPageSize ≤ header.base)
    (hcontains : header.Contains address)
    (hp : p ∈ header.pointers.map Prod.fst)
    (hahead : p + mpointerSize * mpointerSize = address) :
    kfree kernel address = .ok kernel ↔
      header.Idle kernel.memory address p := by
  have hmem : header ∈ front ++ header :: back := by simp
  have hinside := hholds.inside header hmem
  have hstored := hholds.stored header hmem
  have haddress := hcontains.bounds.2.2
  rw [kfree_found henabled hholds hpage hcontains hp hahead]
  by_cases hbehind : pointerNext kernel.memory p = 0 ∨
      address ≤ pointerNext kernel.memory p
  · exact ⟨Header.idle_of_kfreeFrom hinside hstored hp haddress hahead hbehind,
      Header.Idle.kfreeFrom hinside hstored hp haddress hbehind⟩
  obtain ⟨hnull, hwraps⟩ := not_or.mp hbehind
  obtain ⟨pointer, hpointer, rfl⟩ := List.mem_map.mp hp
  have hnext := (hstored.toChained.next hpointer).resolve_left hnull
  constructor
  · intro hcall
    obtain ⟨freed, hfreed, hwiped⟩ := kfreeFrom_wraps hinside
      hstored.toChained hp haddress (by omega) (Nat.lt_of_not_le hwraps)
    rw [hcall] at hfreed
    cases hfreed
    have hsize := hstored.size
    have hge := hstored.toChained.size_ge
    simp only [mheaderSize, mpointerSize] at hge
    omega
  · rintro ⟨hsize, -, -⟩
    rw [hstored.sizes pointer hpointer] at hsize
    have hle := pointer.2.size_le
    simp only [wordSub, word, wordSize, mpointerSize] at *
    omega

theorem kfree_eq_iff {headers : List Header}
    (henabled : kernel.mmuEnabled = true) (hholds : kernel.Holds headers)
    (hpage : ∀ header ∈ headers, virtPageSize ≤ header.base) :
    kfree kernel address = .ok kernel ↔
      ∀ header ∈ headers, header.Contains address →
        ∀ p ∈ header.pointers.map Prod.fst,
          p + mpointerSize * mpointerSize = address →
          header.Idle kernel.memory address p := by
  constructor
  · intro hcall header hmem hcontains p hp hahead
    obtain ⟨front, back, rfl⟩ := List.append_of_mem hmem
    exact (kfree_found_eq_iff henabled hholds (hpage header hmem) hcontains hp
      hahead).mp hcall
  · intro hidle
    by_cases hfound : ∃ header ∈ headers, header.Contains address ∧
        ∃ p ∈ header.pointers.map Prod.fst,
          p + mpointerSize * mpointerSize = address
    · obtain ⟨header, hmem, hcontains, p, hp, hahead⟩ := hfound
      obtain ⟨front, back, rfl⟩ := List.append_of_mem hmem
      exact (kfree_found_eq_iff henabled hholds (hpage header hmem) hcontains
        hp hahead).mpr (hidle header hmem hcontains p hp hahead)
    · refine kfree_missed henabled hholds hpage ?_
      intro header hmem hcontains p hp hahead
      exact hfound ⟨header, hmem, hcontains, p, hp, hahead⟩

end

namespace Block

variable {kernel : Kernel} {headers : List Header} {address : Nat}

def pointer (block : Block headers address) : Nat :=
  block.header.start + spans block.before

theorem pointer_mem (block : Block headers address) :
    (block.pointer, block.kept) ∈ block.header.pointers := by
  rw [Header.pointers, block.segments_eq, mem_placed_append]
  exact .inr (.inl rfl)

theorem header_mem (block : Block headers address) :
    block.header ∈ headers := by
  obtain ⟨front, header, back, before, kept, after, rfl, -, -, -, -⟩ := block
  simp

theorem header_unique (block : Block headers address)
    (hholds : kernel.Holds headers) {header : Header}
    (hmem : header ∈ headers) (hcontains : header.Contains address) :
    header = block.header := by
  have hbounds := hcontains.bounds
  have hextent := Header.pointer_bounds block.pointer_mem
  have haddress := block.address_eq
  have hpositive := block.positive
  simp only [pointer] at hextent
  refine (hholds.apart_or_eq block.header_mem hmem).resolve_right ?_
  intro hapart
  simp only [Header.Apart] at hapart
  omega

theorem not_released_self (block : Block headers address)
    (hholds : kernel.Holds headers) (segments : List Segment) :
    ¬ block.Released kernel kernel segments := by
  intro hreleased
  have hchained := (hholds.stored _ block.header_mem).toChained
  have hafter := (hreleased.holds.stored ⟨block.header.base, segments⟩
    (by simp)).toChained
  have hnodes := hchained.chain.unique hafter.chain
  have hmem : block.pointer ∈
      (Header.pointers ⟨block.header.base, segments⟩).map Prod.fst := by
    rw [← hnodes]
    exact List.mem_map.mpr ⟨_, block.pointer_mem, rfl⟩
  obtain ⟨⟨place, segment⟩, hpointer, rfl⟩ := List.mem_map.mp hmem
  have hallocated : segment.free = false := by
    have hsize : segment.size = block.kept.size :=
      (hafter.sizes _ hpointer).symm.trans
        (hchained.sizes (block.pointer, block.kept) block.pointer_mem)
    cases hfree : segment.free with
    | false => rfl
    | true =>
        have hpositive := segment.positive hfree
        simp only [Segment.size, hfree, block.allocated, if_true,
          Bool.false_eq_true, if_false] at hsize
        omega
  have hblock : (block.pointer, segment) ∈
      Header.blocks ⟨block.header.base, segments⟩ := by
    simp [Header.blocks, hpointer, hallocated]
  rw [hreleased.blocks, List.mem_filter, decide_eq_true_eq] at hblock
  exact hblock.2 block.address_eq.symm

/-- `kfree` does not free any block: the pointer that it looks for lies
`mpointerSize * mpointerSize` bytes below the address. -/
theorem not_frees (block : Block headers address)
    (henabled : kernel.mmuEnabled = true) (hholds : kernel.Holds headers)
    (hpage : ∀ header ∈ headers, virtPageSize ≤ header.base) :
    ¬ Returns (kfree kernel address) (Frees headers address kernel) := by
  rw [returns_iff]
  rintro ⟨freed, hcall, hfrees, -⟩
  obtain ⟨segments, hreleased⟩ := hfrees block
  by_cases hfound : ∃ header ∈ headers, header.Contains address ∧
      ∃ p ∈ header.pointers.map Prod.fst,
        p + mpointerSize * mpointerSize = address
  · obtain ⟨header, hmem, hcontains, p, hp, hahead⟩ := hfound
    obtain rfl := block.header_unique hholds hmem hcontains
    have hinside := hholds.inside _ hmem
    have hstored := hholds.stored _ hmem
    have hown : block.pointer ∈ block.header.pointers.map Prod.fst :=
      List.mem_map.mpr ⟨_, block.pointer_mem, rfl⟩
    have haddress : address = block.pointer + mpointerSize := block.address_eq
    have hbelow : p < block.pointer := by
      simp only [mpointerSize] at hahead haddress
      omega
    obtain ⟨hnext, hle⟩ := (Header.Chained.spaced hinside).next_le
      hstored.toChained.chain hp hown hbelow
    obtain ⟨wiped, hwiped, hzero⟩ := kfreeFrom_wraps hinside
      hstored.toChained hp hcontains.bounds.2.2 hnext
      (by simp only [mpointerSize] at haddress; omega)
    rw [block.headers_eq] at hholds
    rw [kfree_found henabled hholds (hpage _ hmem) hcontains hp hahead,
      hwiped] at hcall
    cases hcall
    have hsize := (hreleased.holds.stored ⟨block.header.base, segments⟩
      (by simp)).size
    rw [hzero, Header.size] at hsize
    simp only [mheaderSize] at hsize
    omega
  · have hkept : kfree kernel address = .ok kernel := by
      refine kfree_missed henabled hholds hpage ?_
      intro header hmem hcontains p hp hahead
      exact hfound ⟨header, hmem, hcontains, p, hp, hahead⟩
    rw [hkept] at hcall
    cases hcall
    exact block.not_released_self hholds segments hreleased

end Block

/-- `kfree` does what it should exactly when there is no block to free and no
pointer `mpointerSize * mpointerSize` bytes below the address, or one for which
everything is there already. -/
theorem kfree_frees_iff {kernel : Kernel} {headers : List Header}
    {address : Nat} (henabled : kernel.mmuEnabled = true)
    (hholds : kernel.Holds headers)
    (haligned : ∀ header ∈ headers, virtPageSize ∣ header.base) :
    Returns (kfree kernel address) (Frees headers address kernel) ↔
      IsEmpty (Block headers address) ∧
        ∀ header ∈ headers, header.Contains address →
          ∀ p ∈ header.pointers.map Prod.fst,
            p + mpointerSize * mpointerSize = address →
            header.Idle kernel.memory address p := by
  have hpage : ∀ header ∈ headers, virtPageSize ≤ header.base :=
    fun header hmem =>
      Nat.le_of_dvd (Nat.pos_of_ne_zero (hholds.base_ne_zero hmem))
        (haligned header hmem)
  rw [← kfree_eq_iff henabled hholds hpage]
  constructor
  · intro hfrees
    have hempty : IsEmpty (Block headers address) :=
      ⟨fun block => block.not_frees henabled hholds hpage hfrees⟩
    obtain ⟨freed, hcall, -, hsame⟩ := returns_iff.mp hfrees
    rw [hsame hempty] at hcall
    exact ⟨hempty, hcall⟩
  · rintro ⟨hempty, hcall⟩
    rw [returns_iff]
    exact ⟨kernel, hcall, fun block => hempty.elim block, fun _ => rfl⟩

/-- An address inside the free part of a new heap. -/
theorem kfree_frees_inside :
    ∃ started, mmInit bootKernel 0x10000 = .ok started ∧
      (firstHeader 0x10000).Contains 0x10030 ∧
      Returns (kfree started 0x10030)
        (Frees [firstHeader 0x10000] 0x10030 started) := by
  obtain ⟨started, hstarted, henabled, hholds⟩ :=
    @mmInit_holds bootKernel 0x10000 (by decide) (by decide)
  have hcontains : (firstHeader 0x10000).Contains 0x10030 := by
    simp only [Header.Contains, firstHeader_size]
    decide
  refine ⟨started, hstarted, hcontains,
    (kfree_frees_iff henabled hholds (by decide)).mpr ⟨⟨fun block => ?_⟩, ?_⟩⟩
  · have hheader := List.mem_singleton.mp block.header_mem
    have hkept : block.kept ∈ block.header.segments := by
      rw [block.segments_eq]
      simp
    have hused := block.allocated
    rw [hheader] at hkept
    rw [List.mem_singleton.mp hkept] at hused
    cases hused
  · intro header hheader _ p hp haddress
    obtain rfl := List.mem_singleton.mp hheader
    have hfirst : p = 0x10018 := List.mem_singleton.mp hp
    rw [hfirst] at haddress
    cases haddress

/-- The first block of a new heap, which `kfree` leaves allocated. -/
theorem kfree_keeps_block :
    ∃ started, mmInit bootKernel 0x10000 = .ok started ∧
      ∃ served, ∃ headers : List Header,
        kmalloc 0 (fun _ => 0) started 100 = .ok (served, 0x10028) ∧
        served.mmuEnabled = true ∧ served.Holds headers ∧
        Nonempty (Block headers 0x10028) ∧
        ¬ Returns (kfree served 0x10028) (Frees headers 0x10028 served) := by
  obtain ⟨started, hstarted, henabled, hholds⟩ :=
    @mmInit_holds bootKernel 0x10000 (by decide) (by decide)
  let fit : FirstFit [firstHeader 0x10000] 100 := {
    front := []
    header := firstHeader 0x10000
    back := []
    before := []
    chosen := .available 4056 (by decide)
    after := []
    headers_eq := rfl
    segments_eq := rfl
    front_full := by simp
    before_short := by simp
    free := rfl
    fits := by decide }
  obtain ⟨served, hcall, hserved, -⟩ :=
    kmalloc_fit 0 (fun _ => 0) henabled hholds (by decide) fit
  let block : Block fit.served 0x10028 := {
    front := []
    header := ⟨0x10000, carve 4056 100⟩
    back := []
    before := []
    kept := .allocated 100
    after := [.available 3940 (by decide)]
    headers_eq := by simp [fit, FirstFit.served, firstHeader, Segment.available]
    segments_eq := rfl
    allocated := rfl
    positive := by decide
    address_eq := by decide }
  refine ⟨started, hstarted, _, fit.served, hcall, henabled, hserved, ⟨block⟩,
    block.not_frees henabled hserved ?_⟩
  intro header hmem
  simp only [FirstFit.served, fit, List.nil_append,
    List.mem_singleton] at hmem
  rw [hmem]
  decide

end Synos.Mm

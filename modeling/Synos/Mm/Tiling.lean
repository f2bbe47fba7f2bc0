import Synos.Mm.Heap

namespace Synos.Mm

open Synos.Data
open Synos.Paging (virtPageSize)

/-! The heap as lists: every header is a list of segments, cut out of its pages
one behind the other, and the memory holds their pointers. -/

structure Segment where
  length : Nat
  free : Bool
  positive : free = true → 0 < length

namespace Segment

def allocated (length : Nat) : Segment where
  length := length
  free := false
  positive := by simp

def available (length : Nat) (hpositive : 0 < length) : Segment where
  length := length
  free := true
  positive := fun _ => hpositive

def size (segment : Segment) : Nat :=
  if segment.free then segment.length else 0

def span (segment : Segment) : Nat := mpointerSize + segment.length

@[simp] theorem allocated_size (length : Nat) :
    (allocated length).size = 0 := rfl

@[simp] theorem available_size (length : Nat) (hpositive : 0 < length) :
    (available length hpositive).size = length := rfl

theorem size_le (segment : Segment) : segment.size ≤ segment.length := by
  rw [size]
  split
  · exact Nat.le_refl _
  · exact Nat.zero_le _

end Segment

def spans (segments : List Segment) : Nat :=
  (segments.map Segment.span).sum

@[simp] theorem spans_nil : spans [] = 0 := rfl

@[simp] theorem spans_cons (segment : Segment) (rest : List Segment) :
    spans (segment :: rest) = mpointerSize + segment.length + spans rest := by
  simp [spans, Segment.span]

@[simp] theorem spans_append (first second : List Segment) :
    spans (first ++ second) = spans first + spans second := by
  simp [spans]

/-- The segments with the addresses of their pointers, from `p` on. -/
def placed : (p : Nat) → List Segment → List (Nat × Segment)
  | _, [] => []
  | p, segment :: rest =>
      (p, segment) :: placed (p + mpointerSize + segment.length) rest

theorem placed_append (p : Nat) (first second : List Segment) :
    placed p (first ++ second) =
      placed p first ++ placed (p + spans first) second := by
  induction first generalizing p with
  | nil => rfl
  | cons segment rest ih =>
      simp only [List.cons_append, placed, ih, spans_cons]
      congr 3
      omega

@[simp] theorem placed_length (p : Nat) (segments : List Segment) :
    (placed p segments).length = segments.length := by
  induction segments generalizing p with
  | nil => rfl
  | cons segment rest ih => simp [placed, ih]

theorem placed_snd (p : Nat) (segments : List Segment) :
    (placed p segments).map Prod.snd = segments := by
  induction segments generalizing p with
  | nil => rfl
  | cons segment rest ih => simp [placed, ih]

theorem placed_bounds {p : Nat} {segments : List Segment}
    {pointer : Nat × Segment} (hpointer : pointer ∈ placed p segments) :
    p ≤ pointer.1 ∧
      pointer.1 + mpointerSize + pointer.2.length ≤ p + spans segments := by
  induction segments generalizing p with
  | nil => cases hpointer
  | cons segment rest ih =>
      rw [spans_cons]
      cases hpointer with
      | head =>
          refine ⟨Nat.le_refl _, ?_⟩
          simp only
          omega
      | tail _ htail =>
          have hrest := ih htail
          omega

theorem placed_disjoint {p : Nat} {segments : List Segment}
    {pointer other : Nat × Segment} (hpointer : pointer ∈ placed p segments)
    (hother : other ∈ placed p segments) :
    pointer = other ∨
      pointer.1 + mpointerSize + pointer.2.length ≤ other.1 ∨
        other.1 + mpointerSize + other.2.length ≤ pointer.1 := by
  induction segments generalizing p with
  | nil => cases hpointer
  | cons segment rest ih =>
      cases hpointer with
      | head =>
          cases hother with
          | head => exact .inl rfl
          | tail _ hother => exact .inr (.inl (placed_bounds hother).1)
      | tail _ hpointer =>
          cases hother with
          | head => exact .inr (.inr (placed_bounds hpointer).1)
          | tail _ hother => exact ih hpointer hother

theorem exists_of_mem_placed {p : Nat} {segments : List Segment}
    {pointer : Nat × Segment} (hpointer : pointer ∈ placed p segments) :
    ∃ before after, segments = before ++ pointer.2 :: after ∧
      pointer.1 = p + spans before := by
  induction segments generalizing p with
  | nil => cases hpointer
  | cons segment rest ih =>
      cases hpointer with
      | head => exact ⟨[], rest, rfl, rfl⟩
      | tail _ htail =>
          obtain ⟨before, after, hrest, hplace⟩ := ih htail
          refine ⟨segment :: before, after, ?_, ?_⟩
          · rw [hrest, List.cons_append]
          · rw [hplace, spans_cons]
            omega

theorem length_le_spans (segments : List Segment) :
    mpointerSize * segments.length ≤ spans segments := by
  induction segments with
  | nil => simp
  | cons segment rest ih =>
      rw [spans_cons, List.length_cons, Nat.mul_succ]
      omega

theorem mem_placed_append {p : Nat} {before after : List Segment}
    {segment : Segment} {pointer : Nat × Segment} :
    pointer ∈ placed p (before ++ segment :: after) ↔
      pointer ∈ placed p before ∨ pointer = (p + spans before, segment) ∨
        pointer ∈ placed
          (p + spans before + mpointerSize + segment.length) after := by
  rw [placed_append, placed, List.mem_append, List.mem_cons]

theorem foldl_max_le_iff (sizes : List Nat) (start bound : Nat) :
    sizes.foldl max start ≤ bound ↔
      start ≤ bound ∧ ∀ size ∈ sizes, size ≤ bound := by
  induction sizes generalizing start with
  | nil => simp
  | cons size rest ih =>
      rw [List.foldl_cons, ih, Nat.max_le, and_assoc, List.forall_mem_cons]

structure Header where
  base : Nat
  segments : List Segment

namespace Header

def size (header : Header) : Nat := mheaderSize + spans header.segments

def start (header : Header) : Nat := header.base + mheaderSize

def sizeMax (header : Header) : Nat :=
  (header.segments.map Segment.size).foldl max 0

def pointers (header : Header) : List (Nat × Segment) :=
  placed header.start header.segments

structure Chained (memory : Memory) (header : Header) : Prop where
  chain : Linked (pointerNext memory) header.start
    (header.pointers.map Prod.fst)
  sizes : ∀ pointer ∈ header.pointers,
    pointerSize memory pointer.1 = pointer.2.size

structure Stored (memory : Memory) (header : Header) : Prop extends
    Chained memory header where
  size : headerSize memory header.base = header.size
  sizeMax : headerSizeMax memory header.base = header.sizeMax

def Apart (header other : Header) : Prop :=
  header.base + header.size ≤ other.base ∨
    other.base + other.size ≤ header.base

variable {header : Header} {memory : Memory}

theorem pointer_bounds {pointer : Nat × Segment}
    (hpointer : pointer ∈ header.pointers) :
    header.base + mheaderSize ≤ pointer.1 ∧
      pointer.1 + mpointerSize + pointer.2.length ≤
        header.base + header.size := by
  have hbounds := placed_bounds hpointer
  simp only [start, size] at *
  omega

theorem sizeMax_le_iff {bound : Nat} :
    header.sizeMax ≤ bound ↔
      ∀ segment ∈ header.segments, segment.size ≤ bound := by
  rw [sizeMax, foldl_max_le_iff]
  simp

theorem sizeMax_le : header.sizeMax ≤ spans header.segments := by
  rw [sizeMax_le_iff]
  intro segment hsegment
  obtain ⟨before, after, hsegments⟩ := List.append_of_mem hsegment
  have hsize := segment.size_le
  rw [hsegments, spans_append, spans_cons]
  omega

theorem exists_of_le_sizeMax {bytes : Nat} (hbytes : 0 < bytes)
    (hfits : bytes ≤ header.sizeMax) :
    ∃ segment ∈ header.segments, bytes ≤ segment.size := by
  by_contra hnone
  have hmax : header.sizeMax ≤ bytes - 1 := by
    rw [sizeMax_le_iff]
    intro segment hsegment
    have hless : ¬ bytes ≤ segment.size :=
      fun hle => hnone ⟨segment, hsegment, hle⟩
    omega
  omega

theorem pointers_length : header.pointers.length = header.segments.length :=
  placed_length _ _

theorem pointers_length_lt (hinside : header.base + header.size ≤ wordSize) :
    (header.pointers.map Prod.fst).length < wordSize := by
  have hspans := length_le_spans header.segments
  simp only [size, mheaderSize, mpointerSize] at hinside hspans
  rw [List.length_map, pointers_length]
  omega

theorem Chained.size_ge (hchained : header.Chained memory) :
    mheaderSize + mpointerSize ≤ header.size := by
  obtain ⟨base, segments⟩ := header
  cases segments with
  | nil =>
      have hstart : base + mheaderSize = 0 := hchained.chain
      simp [mheaderSize] at hstart
  | cons segment rest =>
      simp only [size, spans_cons]
      omega

theorem Chained.congr {other : Memory} (hchained : header.Chained memory)
    (hinside : header.base + header.size ≤ wordSize)
    (hagrees : Agrees memory other header.start
      (header.base + header.size)) : header.Chained other := by
  have hword : ∀ pointer ∈ header.pointers, ∀ offset ≤ 8,
      load64 other (pointer.1 + offset) =
        load64 memory (pointer.1 + offset) := by
    intro pointer hpointer offset hoffset
    have hbounds := pointer_bounds hpointer
    simp only [mpointerSize] at hbounds
    refine load64_congr (by omega) (hagrees.mono ?_ (by omega))
    rw [start]
    omega
  constructor
  · refine hchained.chain.congr ?_
    intro node hnode
    obtain ⟨pointer, hpointer, rfl⟩ := List.mem_map.mp hnode
    exact hword pointer hpointer 8 (Nat.le_refl 8)
  · intro pointer hpointer
    exact (hword pointer hpointer 0 (by omega)).trans
      (hchained.sizes pointer hpointer)

theorem Stored.congr {other : Memory} (hstored : header.Stored memory)
    (hinside : header.base + header.size ≤ wordSize)
    (hagrees : Agrees memory other header.base
      (header.base + header.size)) : header.Stored other := by
  have hsize := hstored.toChained.size_ge
  simp only [mheaderSize, mpointerSize] at hsize
  refine ⟨hstored.toChained.congr hinside (hagrees.mono ?_ (Nat.le_refl _)),
    ?_, ?_⟩
  · rw [start]
    omega
  · exact (load64_congr (by omega) (hagrees.mono (by omega) (by omega))).trans
      hstored.size
  · exact (load64_congr (by omega) (hagrees.mono (by omega) (by omega))).trans
      hstored.sizeMax

theorem Chained.start_eq (hchained : header.Chained memory)
    (hinside : header.base + header.size ≤ wordSize) :
    wordAdd header.base mheaderSize = header.start := by
  have hsize := hchained.size_ge
  simp only [mheaderSize, mpointerSize] at hsize
  rw [wordAdd_of_lt, start]
  rw [mheaderSize]
  omega

theorem Chained.findSizeMax (hchained : header.Chained memory)
    (hinside : header.base + header.size ≤ wordSize) :
    Mm.findSizeMax memory header.base = .ok header.sizeMax := by
  have hlargest : ∀ largest, ∀ pointer ∈ header.pointers,
      (if largest < pointerSize memory pointer.1 then
          pointerSize memory pointer.1 else largest) =
        max largest pointer.2.size := by
    intro largest pointer hpointer
    rw [hchained.sizes pointer hpointer, max_def_lt]
  rw [Mm.findSizeMax, hchained.start_eq hinside,
    foldList_eq hchained.chain (pointers_length_lt hinside), List.foldl_map,
    List.foldl_ext _ _ _ hlargest, sizeMax, List.foldl_map,
    ← placed_snd header.start header.segments, List.foldl_map]
  rfl

theorem Chained.updateSizeMax (kernel : Kernel)
    (hchained : header.Chained memory)
    (hinside : header.base + header.size ≤ wordSize) :
    Mm.updateSizeMax kernel memory header.base =
      .ok { kernel with
        memory := store64 memory (header.base + 8) header.sizeMax } := by
  rw [Mm.updateSizeMax, hchained.findSizeMax hinside]

theorem Chained.stored_store (hchained : header.Chained memory)
    (hinside : header.base + header.size ≤ wordSize)
    (hsize : headerSize memory header.base = header.size) :
    header.Stored (store64 memory (header.base + 8) header.sizeMax) := by
  have hge := hchained.size_ge
  have hmax := header.sizeMax_le
  simp only [mheaderSize, mpointerSize] at hge
  refine ⟨hchained.congr hinside (store64_agrees _ (by omega) (.inr ?_)), ?_, ?_⟩
  · simp only [start, mheaderSize]
    omega
  · exact (load64_store64_of_ne _ (by omega) (by omega) (by omega)).trans hsize
  · refine load64_store64 (by omega) ?_
    simp only [size, mheaderSize] at hinside
    omega

end Header

/-- The kernel's heap consists of these headers, each in pages of its own. -/
structure Kernel.Holds (kernel : Kernel) (headers : List Header) : Prop where
  list : Linked (headerNext kernel.memory) kernel.headerStart
    (headers.map Header.base)
  stored : ∀ header ∈ headers, header.Stored kernel.memory
  inside : ∀ header ∈ headers, header.base + header.size ≤ wordSize
  apart : headers.Pairwise Header.Apart

namespace Kernel.Holds

variable {kernel : Kernel} {headers front back : List Header}
  {header : Header} {served : Memory}

theorem base_ne_zero (hholds : kernel.Holds headers)
    (hheader : header ∈ headers) : header.base ≠ 0 := by
  obtain ⟨front, back, rfl⟩ := List.append_of_mem hheader
  have hlist := hholds.list
  rw [List.map_append, List.map_cons] at hlist
  exact hlist.of_append.1

theorem length_lt (hholds : kernel.Holds headers) :
    (headers.map Header.base).length < wordSize := by
  refine length_lt_of_nodup (by decide) ?_ ?_
  · rw [List.Nodup, List.pairwise_map]
    refine hholds.apart.imp_of_mem ?_
    intro first second hfirst hsecond hapart hsame
    have hgeFirst := (hholds.stored first hfirst).toChained.size_ge
    have hgeSecond := (hholds.stored second hsecond).toChained.size_ge
    simp only [Header.Apart, mheaderSize] at *
    omega
  · intro base hbase
    obtain ⟨header, hheader, rfl⟩ := List.mem_map.mp hbase
    have hge := (hholds.stored header hheader).toChained.size_ge
    have hinside := hholds.inside header hheader
    simp only [mheaderSize] at hge
    exact ⟨hholds.base_ne_zero hheader, by omega⟩

theorem apart_of_mem (hholds : kernel.Holds (front ++ header :: back))
    {other : Header} (hother : other ∈ front ∨ other ∈ back) :
    other.Apart header := by
  have hapart := hholds.apart
  rw [List.pairwise_append, List.pairwise_cons] at hapart
  obtain ⟨-, ⟨hbehind, -⟩, hfront⟩ := hapart
  rcases hother with hother | hother
  · exact hfront other hother header (.head _)
  · exact (hbehind other hother).symm

theorem search_none (hholds : kernel.Holds headers) {test : Nat → Bool}
    (hnone : ∀ other ∈ headers, test other.base = false) :
    searchList (headerNext kernel.memory) test wordSize 0
      kernel.headerStart =
        .ok (0, (headers.map Header.base).getLast?.getD 0) := by
  refine searchList_of_none hholds.list hholds.length_lt ?_
  intro base hbase
  obtain ⟨other, hother, rfl⟩ := List.mem_map.mp hbase
  exact hnone other hother

theorem apart_or_eq (hholds : kernel.Holds headers) {other : Header}
    (hheader : header ∈ headers) (hother : other ∈ headers) :
    other = header ∨ other.Apart header := by
  obtain ⟨front, back, rfl⟩ := List.append_of_mem hheader
  revert other
  rw [forall_mem_middle]
  exact ⟨.inl rfl, fun other hside => .inr (hholds.apart_of_mem hside)⟩

theorem update (hholds : kernel.Holds (front ++ header :: back))
    {segments : List Segment}
    (hspans : spans segments = spans header.segments)
    (hstored : Header.Stored served ⟨header.base, segments⟩)
    (hframe : ∀ place,
      (place < header.base + 8 ∨ header.base + 16 ≤ place) →
      (place < header.start ∨ header.base + header.size ≤ place) →
      served place = kernel.memory place) :
    Kernel.Holds { kernel with memory := served }
      (front ++ ⟨header.base, segments⟩ :: back) := by
  have hmem : header ∈ front ++ header :: back := by simp
  have hbeside : ∀ other, other ∈ front ∨ other ∈ back →
      other ∈ front ++ header :: back := by
    intro other hside
    rw [List.mem_append, List.mem_cons]
    exact hside.imp_right .inr
  have hsize : Header.size ⟨header.base, segments⟩ = header.size := by
    simp only [Header.size, hspans]
  have hge : ∀ other ∈ front ++ header :: back, 40 ≤ other.size :=
    fun other hother => (hholds.stored other hother).toChained.size_ge
  have hagrees : ∀ other, other ∈ front ∨ other ∈ back →
      Agrees kernel.memory served other.base (other.base + other.size) := by
    intro other hside place hstart hstop
    have hapart := hholds.apart_of_mem hside
    have hown := hge header hmem
    simp only [Header.Apart, Header.start, mheaderSize] at *
    exact hframe place (by omega) (by omega)
  have hlink : ∀ other ∈ front ++ header :: back,
      Agrees kernel.memory served (other.base + 16) (other.base + 24) := by
    refine forall_mem_middle.mpr ⟨?_, ?_⟩
    · intro place hlow hhigh
      refine hframe place (by omega) (.inl ?_)
      simp only [Header.start, mheaderSize]
      omega
    · intro other hside
      have hown := hge other (hbeside other hside)
      exact (hagrees other hside).mono (by omega) (by omega)
  constructor
  · have hbases : (front ++ ⟨header.base, segments⟩ :: back).map Header.base =
        (front ++ header :: back).map Header.base := by
      simp only [List.map_append, List.map_cons]
    rw [hbases]
    refine hholds.list.congr ?_
    intro base hbase
    obtain ⟨other, hother, rfl⟩ := List.mem_map.mp hbase
    have hown := hge other hother
    have hinside := hholds.inside other hother
    exact load64_congr (by omega) (hlink other hother)
  · refine forall_mem_middle.mpr ⟨hstored, ?_⟩
    intro other hside
    exact (hholds.stored other (hbeside other hside)).congr
      (hholds.inside other (hbeside other hside)) (hagrees other hside)
  · refine forall_mem_middle.mpr ⟨?_, ?_⟩
    · rw [hsize]
      exact hholds.inside header hmem
    · intro other hside
      exact hholds.inside other (hbeside other hside)
  · have hapart := hholds.apart
    rw [List.pairwise_append, List.pairwise_cons] at hapart ⊢
    obtain ⟨hfront, ⟨hbehind, hback⟩, hcross⟩ := hapart
    simp only [List.forall_mem_cons, Header.Apart, hsize] at hbehind hcross ⊢
    exact ⟨hfront, ⟨hbehind, hback⟩, hcross⟩

theorem search_some (hholds : kernel.Holds (front ++ header :: back))
    {test : Nat → Bool} (hfront : ∀ other ∈ front, test other.base = false)
    (htest : test header.base = true) :
    ∃ last, searchList (headerNext kernel.memory) test wordSize 0
      kernel.headerStart = .ok (header.base, last) := by
  have hlist := hholds.list
  have hcount := hholds.length_lt
  rw [List.map_append, List.map_cons] at hlist hcount
  refine ⟨_, searchList_of_found hlist ?_ ?_ htest⟩
  · rw [List.length_append] at hcount
    omega
  · intro base hbase
    obtain ⟨other, hother, rfl⟩ := List.mem_map.mp hbase
    exact hfront other hother

end Kernel.Holds

def firstHeader (heapPage : Nat) : Header where
  base := heapPage
  segments := [.available 4056 (by decide)]

@[simp] theorem firstHeader_size (heapPage : Nat) :
    (firstHeader heapPage).size = virtPageSize := by
  simp [firstHeader, Header.size, Segment.available, mheaderSize,
    mpointerSize, virtPageSize]

theorem firstHeader_stored {memory : Memory} {heapPage : Nat}
    (hsize : headerSize memory heapPage = virtPageSize)
    (hmax : headerSizeMax memory heapPage = 4056)
    (hopen : pointerSize memory (heapPage + 24) = 4056)
    (hlast : pointerNext memory (heapPage + 24) = 0) :
    (firstHeader heapPage).Stored memory := by
  refine ⟨⟨⟨rfl, ?_, hlast⟩, ?_⟩, ?_, ?_⟩
  · simp [Header.start, mheaderSize]
  · intro pointer hpointer
    rw [Header.pointers, firstHeader, placed, placed,
      List.mem_singleton] at hpointer
    rw [hpointer]
    exact hopen
  · rw [firstHeader_size]
    exact hsize
  · refine hmax.trans ?_
    simp [Header.sizeMax, firstHeader]

/-- The heap that `mm_init` builds in its page. -/
theorem mmInit_holds (kernel : Kernel) {heapPage : Nat} (hpage : heapPage ≠ 0)
    (hspace : heapPage + virtPageSize ≤ wordSize) :
    ∃ started, mmInit kernel heapPage = .ok started ∧
      started.mmuEnabled = true ∧ started.Holds [firstHeader heapPage] := by
  have hroom : heapPage + 4096 ≤ wordSize := hspace
  have hmax : wordSub (wordSub virtPageSize mheaderSize) mpointerSize = 4056 :=
    by decide
  have hstart : wordAdd heapPage mheaderSize = heapPage + 24 := by
    rw [mheaderSize, wordAdd_of_lt]
    omega
  refine ⟨_, if_neg hpage, rfl, ?_⟩
  simp only [memstckDisable, hmax, hstart]
  constructor
  · refine ⟨rfl, hpage, ?_⟩
    simp only [headerNext, firstHeader]
    rw [load64_store64_of_ne _ (by omega) (by omega) (by omega),
      load64_store64_of_ne _ (by omega) (by omega) (by omega),
      load64_store64 (by omega) (by decide)]
    rfl
  · simp only [List.mem_singleton]
    rintro header rfl
    refine firstHeader_stored ?_ ?_ ?_ ?_
    · simp only [headerSize]
      rw [load64_store64_of_ne _ (by omega) (by omega) (by omega),
        load64_store64_of_ne _ (by omega) (by omega) (by omega),
        load64_store64_of_ne _ (by omega) (by omega) (by omega),
        load64_store64_of_ne _ (by omega) (by omega) (by omega)]
      exact load64_store64 (by omega) (by decide)
    · simp only [headerSizeMax]
      rw [load64_store64_of_ne _ (by omega) (by omega) (by omega),
        load64_store64_of_ne _ (by omega) (by omega) (by omega),
        load64_store64_of_ne _ (by omega) (by omega) (by omega)]
      exact load64_store64 (by omega) (by decide)
    · simp only [pointerSize]
      rw [load64_store64_of_ne _ (by omega) (by omega) (by omega)]
      exact load64_store64 (by omega) (by decide)
    · exact load64_store64 (by omega) (by decide)
  · simp only [List.mem_singleton]
    rintro header rfl
    rw [firstHeader_size]
    exact hspace
  · exact List.pairwise_singleton _ _

def bootKernel : Kernel where
  memory := fun _ => 0
  headerStart := 0
  mmuEnabled := false
  memStackInit := false
  memStackEnable := true
  memStack := 0

end Synos.Mm

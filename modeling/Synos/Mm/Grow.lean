import Synos.Mm.Serve

namespace Synos.Mm

open Synos.Data
open Synos.Paging (virtPageSize)

/-! `kmalloc` when no header serves the request.  The first pointer of a new
header is given the size of all its pages, `mheaderSize + mpointerSize` more
than lies behind it. -/

structure FreshPages (headers : List Header) (grant order : Nat) : Prop where
  inside : grant + 2 ^ order * virtPageSize ≤ wordSize
  apart : ∀ header ∈ headers,
    header.base + header.size ≤ grant ∨
      grant + 2 ^ order * virtPageSize ≤ header.base

/-- `kmalloc` gives up and leaves the headers as they were, or adds a header in
the pages that it got and serves the request from it. -/
def Extends (headers : List Header) (grant order bytes : Nat)
    (result : Kernel × Nat) : Prop :=
  (result.2 = 0 ∧ result.1.Holds headers) ∨
    ∃ new before kept after,
      new = Header.mk grant (before ++ kept :: after) ∧
      new.size ≤ 2 ^ order * virtPageSize ∧
      result.1.Holds (headers ++ [new]) ∧
      kept.free = false ∧ bytes ≤ kept.length ∧
      result.2 = new.start + spans before + mpointerSize

section

variable {memory : Memory} {h order bytes : Nat}

theorem growSize_eq (hspace : 2 ^ order * virtPageSize < wordSize) :
    growSize order = 2 ^ order * virtPageSize :=
  word_of_lt hspace

/-- The size of the new header is written into its first pointer, too. -/
theorem addHeader_first (hspace : h + mheaderSize + mpointerSize ≤ wordSize) :
    pointerSize (addHeader memory h order) (h + mheaderSize) =
        growSize order ∧
      pointerNext (addHeader memory h order) (h + mheaderSize) = 0 := by
  simp only [mheaderSize, mpointerSize] at *
  have hstart : wordAdd h 24 = h + 24 := wordAdd_of_lt (by omega)
  have hgrow : growSize order < wordSize := word_lt _
  simp only [addHeader, mheaderSize, hstart, headerSize, pointerSize,
    pointerNext]
  constructor
  · rw [load64_store64_of_ne _ (by omega) (by omega) (by omega),
      load64_store64 (by omega) (load64_lt _ _),
      load64_store64_of_ne _ (by omega) (by omega) (by omega),
      load64_store64_of_ne _ (by omega) (by omega) (by omega)]
    exact load64_store64 (by omega) hgrow
  · exact load64_store64 (by omega) (by decide)

theorem Header.Chained.single {memory : Memory} {header : Header}
    (hchained : header.Chained memory)
    (hlast : pointerNext memory header.start = 0) :
    ∃ segment, header.segments = [segment] := by
  obtain ⟨base, segments⟩ := header
  have hchain := hchained.chain
  rcases segments with _ | ⟨segment, _ | ⟨second, rest⟩⟩
  · simp [Header.pointers, Header.start, placed, Linked, mheaderSize] at hchain
  · exact ⟨segment, rfl⟩
  · obtain ⟨-, -, hsecond, hne, -⟩ := hchain
    rw [hlast] at hsecond
    exact absurd hsecond.symm hne

theorem Header.Chained.second {memory : Memory} {header : Header}
    (hchained : header.Chained memory)
    (hmore : pointerNext memory header.start ≠ 0) :
    ∃ first second rest, header.segments = first :: second :: rest ∧
      pointerNext memory header.start =
        header.start + mpointerSize + first.length ∧
      pointerSize memory (header.start + mpointerSize + first.length) =
        second.size := by
  obtain ⟨base, segments⟩ := header
  obtain ⟨hchain, hsizes⟩ := hchained
  rcases segments with _ | ⟨first, _ | ⟨second, rest⟩⟩
  · simp [Header.pointers, Header.start, placed, Linked, mheaderSize] at hchain
  · obtain ⟨-, -, hlast⟩ := hchain
    exact absurd hlast hmore
  · obtain ⟨-, -, hsecond, -, -⟩ := hchain
    refine ⟨first, second, rest, rfl, hsecond, ?_⟩
    exact hsizes (_, second) (.tail _ (.head _))

theorem searchList_single {memory : Memory} {p room bytes found last : Nat}
    (hne : p ≠ 0) (hsize : pointerSize memory p = room)
    (hnext : pointerNext memory p = 0)
    (hsearch : searchList (pointerNext memory)
      (fun p => decide (bytes ≤ pointerSize memory p)) wordSize 0 p =
        .ok (found, last))
    (hfound : found ≠ 0) : bytes ≤ room ∧ found = p := by
  have hlinked : Linked (pointerNext memory) p [p] := ⟨rfl, hne, hnext⟩
  have hfits : bytes ≤ room := by
    by_contra hlong
    rw [searchList_of_none hlinked (by simp [wordSize])
      (by simp [hsize, Nat.lt_of_not_le hlong])] at hsearch
    cases hsearch
    exact hfound rfl
  refine ⟨hfits, ?_⟩
  rw [@searchList_of_found _ _ _ _ _ [] [] _ hlinked
    (by simp [wordSize]) (by simp) (by simp [hsize, hfits])] at hsearch
  cases hsearch
  rfl

/-- A request is served from the new header's first pointer, whose size is the
size of all pages; the words behind it are those that the split has written. -/
theorem kmallocFrom_first {kernel : Kernel} {memory : Memory}
    {grant room bytes : Nat} {result : Kernel × Nat}
    (hpages : virtPageSize ≤ room) (hspace : grant + room ≤ wordSize)
    (hsize : pointerSize memory (grant + mheaderSize) = room)
    (hnext : pointerNext memory (grant + mheaderSize) = 0)
    (hcall : kmallocFrom kernel memory grant bytes = .ok result) :
    bytes ≤ room ∧ result.2 = grant + mheaderSize + mpointerSize ∧
      ∃ split, splitPointer memory (grant + mheaderSize) bytes = .ok split ∧
        ∀ place, grant + mheaderSize + 8 ≤ place → place + 8 ≤ wordSize →
          load64 result.1.memory place = load64 split place := by
  obtain ⟨p, last, split, max, hsearch, hne, hsplit, rfl⟩ :=
    kmallocFrom_eq_ok hcall
  have hstart : wordAdd grant mheaderSize = grant + mheaderSize := by
    rw [wordAdd_of_lt]
    simp only [mheaderSize, virtPageSize] at *
    omega
  rw [hstart] at hsearch
  obtain ⟨hfits, rfl⟩ := searchList_single
    (by simp only [mheaderSize]; omega) hsize hnext hsearch hne
  have haddress : wordAdd (grant + mheaderSize) mpointerSize =
      grant + mheaderSize + mpointerSize := by
    rw [wordAdd_of_lt]
    simp only [mheaderSize, mpointerSize, virtPageSize] at *
    omega
  refine ⟨hfits, haddress, split, hsplit, ?_⟩
  intro place hplace hend
  simp only [mheaderSize, virtPageSize] at *
  rw [load64_store64_of_ne _ (by omega) hend (by omega),
    load64_store64_of_ne _ (by omega) hend (by omega)]

section

variable {memory split : Memory} {result : Kernel × Nat}
  {grant room bytes : Nat}

theorem splitPointer_first_cut
    (hpages : virtPageSize ≤ room) (hspace : grant + room ≤ wordSize)
    (hsize : pointerSize memory (grant + mheaderSize) = room)
    (hcut : mpointerSize < room - bytes)
    (hsplit : splitPointer memory (grant + mheaderSize) bytes = .ok split)
    (hread : ∀ place, grant + mheaderSize + 8 ≤ place → place + 8 ≤ wordSize →
      load64 result.1.memory place = load64 split place) :
    pointerNext result.1.memory (grant + mheaderSize) =
        wordAdd (grant + mheaderSize + mpointerSize) bytes ∧
      pointerNext result.1.memory (grant + mheaderSize) ≠ 0 ∧
      (grant + mheaderSize + mpointerSize + bytes + mpointerSize ≤ wordSize →
        pointerSize result.1.memory
            (grant + mheaderSize + mpointerSize + bytes) =
          room - bytes - mpointerSize) := by
  have hend : grant + mheaderSize + mpointerSize < wordSize := by
    simp only [mheaderSize, mpointerSize, virtPageSize] at *
    omega
  have hless : wordSub room bytes = room - bytes :=
    wordSub_of_le (by omega) (by rw [← hsize]; exact load64_lt _ _)
  obtain ⟨hnext, hne⟩ := splitPointer_next (Nat.le_of_lt hend)
    (by rw [hsize, hless]; exact hcut) hsplit
  have hlast : pointerNext result.1.memory (grant + mheaderSize) =
      pointerNext split (grant + mheaderSize) := by
    refine hread _ (Nat.le_refl _) ?_
    simp only [mpointerSize] at hend
    omega
  rw [hlast, hnext, wordAdd_of_lt hend]
  rw [wordAdd_of_lt hend] at hne
  refine ⟨rfl, hne, ?_⟩
  intro hroom
  obtain ⟨cut, hcall, -, hcutSize, -⟩ := splitPointer_cut
    (by rw [hsize]; exact hcut) hroom
  rw [hsplit] at hcall
  cases hcall
  rw [hsize] at hcutSize
  simp only [mpointerSize] at *
  exact (hread _ (by omega) (by omega)).trans hcutSize

theorem splitPointer_first_whole
    (hpages : virtPageSize ≤ room) (hspace : grant + room ≤ wordSize)
    (hsize : pointerSize memory (grant + mheaderSize) = room)
    (hnext : pointerNext memory (grant + mheaderSize) = 0)
    (hfits : bytes ≤ room) (hwhole : ¬ mpointerSize < room - bytes)
    (hsplit : splitPointer memory (grant + mheaderSize) bytes = .ok split)
    (hread : ∀ place, grant + mheaderSize + 8 ≤ place → place + 8 ≤ wordSize →
      load64 result.1.memory place = load64 split place) :
    pointerNext result.1.memory (grant + mheaderSize) = 0 := by
  rw [splitPointer_whole (by rw [hsize]; exact hfits)
    (by rw [hsize]; exact hwhole)] at hsplit
  cases hsplit
  refine (hread _ (Nat.le_refl _) ?_).trans hnext
  simp only [mheaderSize, virtPageSize] at *
  omega

end

theorem kmallocFrom_not_extends {kernel : Kernel} {memory : Memory}
    {headers : List Header} {grant order bytes : Nat} {result : Kernel × Nat}
    (hspace : grant + 2 ^ order * virtPageSize ≤ wordSize)
    (hsize : pointerSize memory (grant + mheaderSize) =
      2 ^ order * virtPageSize)
    (hnext : pointerNext memory (grant + mheaderSize) = 0)
    (hcall : kmallocFrom kernel memory grant bytes = .ok result) :
    ¬ Extends headers grant order bytes result := by
  have hpages : virtPageSize ≤ 2 ^ order * virtPageSize :=
    Nat.le_mul_of_pos_left _ (Nat.two_pow_pos order)
  obtain ⟨hfits, haddress, split, hsplit, hread⟩ :=
    kmallocFrom_first hpages hspace hsize hnext hcall
  rintro (⟨hnull, -⟩ | ⟨new, before, kept, after, rfl, hnew, hholds, -, hlong,
    -⟩)
  · rw [haddress] at hnull
    simp [mheaderSize] at hnull
  have hchained := (hholds.stored _
    (List.mem_append_right headers (List.mem_singleton.mpr rfl))).toChained
  generalize 2 ^ order * virtPageSize = room at *
  by_cases hroom : mpointerSize < room - bytes
  · obtain ⟨hcutNext, hne, hcutSize⟩ :=
      splitPointer_first_cut hpages hspace hsize hroom hsplit hread
    obtain ⟨first, second, rest, hsegments, hsecond, hsecondSize⟩ :=
      hchained.second hne
    have hextent : mheaderSize + spans (before ++ kept :: after) ≤ room := hnew
    simp only at hsegments
    rw [hsegments, spans_cons, spans_cons] at hextent
    simp only [Header.start] at hsecond hsecondSize
    rw [hcutNext] at hsecond
    have hfirst : first.length = bytes := by
      simp only [wordAdd, word, wordSize, mheaderSize, mpointerSize,
        virtPageSize] at *
      omega
    subst hfirst
    rw [hcutSize (by omega)] at hsecondSize
    have hle := second.size_le
    simp only [mheaderSize, mpointerSize] at *
    omega
  · obtain ⟨segment, hsegments⟩ := hchained.single
      (splitPointer_first_whole hpages hspace hsize hnext hfits hroom hsplit
        hread)
    have hkept : before = [] ∧ kept = segment ∧ after = [] := by
      rcases before with _ | ⟨other, before⟩
      · simpa using hsegments
      · simp at hsegments
    obtain ⟨rfl, rfl, rfl⟩ := hkept
    simp only [Header.size, List.nil_append, spans_cons, spans_nil,
      mheaderSize, mpointerSize] at hnew hroom
    omega

section

variable {kernel : Kernel} {front : List Header} {header : Header}
  {getFreePages : Nat → Nat}

theorem kmalloc_grow (memEnd : Nat)
    (henabled : kernel.mmuEnabled = true)
    (hholds : kernel.Holds (front ++ [header])) (hbytes : 0 < bytes)
    (hnone : ∀ other ∈ front ++ [header], other.sizeMax < bytes)
    (hgrant : getFreePages (growOrder bytes) < wordSize) :
    kmalloc memEnd getFreePages kernel bytes =
      if getFreePages (growOrder bytes) = 0 then .ok (kernel, 0)
      else
        kmallocFrom kernel
          (addHeader
            (store64 kernel.memory (header.base + 16)
              (getFreePages (growOrder bytes)))
            (getFreePages (growOrder bytes)) (growOrder bytes))
          (getFreePages (growOrder bytes)) bytes := by
  have hmem : header ∈ front ++ [header] := by simp
  have hge := (hholds.stored header hmem).toChained.size_ge
  have hinside := hholds.inside header hmem
  simp only [mheaderSize, mpointerSize] at hge
  have hlast : headerNext kernel.memory header.base = 0 := by
    have hlist := hholds.list
    rw [List.map_append, List.map_cons] at hlist
    exact hlist.of_append.2
  have hnew : headerNext (store64 kernel.memory (header.base + 16)
      (getFreePages (growOrder bytes))) header.base =
        getFreePages (growOrder bytes) := load64_store64 (by omega) hgrant
  have hsearch := @Kernel.Holds.search_none _ _ hholds
    (fun h => decide (bytes ≤ headerSizeMax kernel.memory h))
    (fun other hother => by
      rw [(hholds.stored other hother).sizeMax, decide_eq_false_iff_not,
        Nat.not_le]
      exact hnone other hother)
  rw [List.map_append, List.map_singleton, List.getLast?_append,
    List.getLast?_singleton] at hsearch
  simp only [Option.some_or, Option.getD_some] at hsearch
  rw [kmalloc, if_neg (by omega), if_neg (by simp [henabled])]
  simp only [hsearch, hnew]
  rw [if_neg (by simp), if_neg (hholds.base_ne_zero hmem)]
  split
  · rename_i hnull
    have hsame : store64 kernel.memory (header.base + 16) 0 =
        kernel.memory := by
      have hself := store64_self kernel.memory (header.base + 16)
      rw [← headerNext, hlast] at hself
      exact hself
    rw [hnull, hsame]
  · rfl

theorem kmalloc_not_extends (memEnd : Nat)
    (henabled : kernel.mmuEnabled = true)
    (hholds : kernel.Holds (front ++ [header])) (hbytes : 0 < bytes)
    (hnone : ∀ other ∈ front ++ [header], other.sizeMax < bytes)
    (hgrant : getFreePages (growOrder bytes) ≠ 0)
    (hspace : getFreePages (growOrder bytes) +
      2 ^ growOrder bytes * virtPageSize ≤ wordSize) :
    ¬ Returns (kmalloc memEnd getFreePages kernel bytes)
      (Extends (front ++ [header]) (getFreePages (growOrder bytes))
        (growOrder bytes) bytes) := by
  have hpages : virtPageSize ≤ 2 ^ growOrder bytes * virtPageSize :=
    Nat.le_mul_of_pos_left _ (Nat.two_pow_pos _)
  have hfits : mheaderSize + mpointerSize ≤ virtPageSize := by decide
  have hpositive : 0 < virtPageSize := by decide
  rw [kmalloc_grow memEnd henabled hholds hbytes hnone (by omega),
    if_neg hgrant, returns_iff]
  rintro ⟨result, hcall, hextends⟩
  obtain ⟨hsize, hnext⟩ := @addHeader_first
    (store64 kernel.memory (header.base + 16)
      (getFreePages (growOrder bytes)))
    (getFreePages (growOrder bytes)) (growOrder bytes) (by omega)
  rw [growSize_eq (by omega)] at hsize
  exact kmallocFrom_not_extends hspace hsize hnext hcall hextends

/-- The growth path does what it should exactly when it gets no pages. -/
theorem kmalloc_grows_iff (memEnd : Nat) {headers : List Header}
    (henabled : kernel.mmuEnabled = true) (hholds : kernel.Holds headers)
    (hnone : ∀ other ∈ headers, other.sizeMax < bytes)
    (hpages : getFreePages (growOrder bytes) = 0 ∨
      FreshPages headers (getFreePages (growOrder bytes)) (growOrder bytes)) :
    Returns (kmalloc memEnd getFreePages kernel bytes)
        (Extends headers (getFreePages (growOrder bytes)) (growOrder bytes)
          bytes) ↔
      bytes = 0 ∨ headers ≠ [] ∧ getFreePages (growOrder bytes) = 0 := by
  by_cases hbytes : bytes = 0
  · subst hbytes
    simp only [true_or, iff_true]
    exact .inl ⟨rfl, hholds⟩
  simp only [hbytes, false_or]
  rcases List.eq_nil_or_concat headers with rfl | ⟨front, header, rfl⟩
  · have hstart : kernel.headerStart = 0 := hholds.list
    simp only [ne_eq, not_true_eq_false, false_and, iff_false]
    rw [kmalloc, if_neg hbytes, if_neg (by simp [henabled])]
    simp [hstart, wordSize, searchList, Returns]
  rw [List.concat_eq_append] at *
  constructor
  · intro hreturns
    refine ⟨by simp, ?_⟩
    rcases hpages with hnull | hfresh
    · exact hnull
    · by_contra hgrant
      exact kmalloc_not_extends memEnd henabled hholds (by omega) hnone hgrant
        hfresh.inside hreturns
  · rintro ⟨-, hnull⟩
    rw [kmalloc_grow memEnd henabled hholds (by omega) hnone
      (by rw [hnull]; decide), if_pos hnull]
    exact .inl ⟨rfl, hholds⟩

theorem kmalloc_grows_refused :
    ∃ started, mmInit bootKernel 0x10000 = .ok started ∧
      Returns (kmalloc 0 (fun _ => 0) started 5000)
        (Extends [firstHeader 0x10000] 0 1 5000) := by
  obtain ⟨started, hstarted, henabled, hholds⟩ :=
    @mmInit_holds bootKernel 0x10000 (by decide) (by decide)
  have hgrows := (@kmalloc_grows_iff 5000 started (fun _ => 0) 0 _ henabled
    hholds (by decide) (.inl rfl)).mpr (.inr ⟨by simp, rfl⟩)
  exact ⟨started, hstarted, hgrows⟩

/-- Two fresh pages for 5000 bytes: the remainder reaches 40 bytes beyond. -/
theorem kmalloc_grows_beyond :
    ∃ started, mmInit bootKernel 0x10000 = .ok started ∧
      started.mmuEnabled = true ∧ started.Holds [firstHeader 0x10000] ∧
      (∀ other ∈ [firstHeader 0x10000], other.sizeMax < 5000) ∧
      growOrder 5000 = 1 ∧ FreshPages [firstHeader 0x10000] 0x20000 1 ∧
      ¬ Returns (kmalloc 0 (fun _ => 0x20000) started 5000)
        (Extends [firstHeader 0x10000] 0x20000 1 5000) := by
  obtain ⟨started, hstarted, henabled, hholds⟩ :=
    @mmInit_holds bootKernel 0x10000 (by decide) (by decide)
  have hnone : ∀ other ∈ [firstHeader 0x10000], other.sizeMax < 5000 := by
    decide
  have hrefuted := @kmalloc_not_extends 5000 started [] (firstHeader 0x10000)
    (fun _ => 0x20000) 0 henabled hholds (by decide) hnone (by decide)
    (by decide)
  refine ⟨started, hstarted, henabled, hholds, hnone, by decide, ?_, hrefuted⟩
  constructor
  · decide
  · decide

end

end

end Synos.Mm

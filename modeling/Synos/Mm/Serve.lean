import Synos.Mm.Tiling

namespace Synos.Mm

open Synos.Data

/-! `kmalloc` from a header that is there already: the first free segment that is
long enough is cut in two, or handed out whole. -/

def carve (length bytes : Nat) : List Segment :=
  if hroom : mpointerSize < length - bytes then
    [.allocated bytes, .available (length - bytes - mpointerSize) (by omega)]
  else [.allocated length]

theorem spans_carve {length bytes : Nat} (hfits : bytes ≤ length) :
    spans (carve length bytes) = mpointerSize + length := by
  rw [carve]
  split
  · simp only [Segment.allocated, Segment.available, spans_cons, spans_nil]
    omega
  · simp only [Segment.allocated, spans_cons, spans_nil]
    omega

/-- The new pointer lies `bytes` behind the old one's end, and nothing but the
two pointers is written. -/
theorem splitPointer_cut {memory : Memory} {p bytes : Nat}
    (hroom : mpointerSize < pointerSize memory p - bytes)
    (hspace : p + mpointerSize + bytes + mpointerSize ≤ wordSize) :
    ∃ split, splitPointer memory p bytes = .ok split ∧
      pointerNext split p = p + mpointerSize + bytes ∧
      pointerSize split (p + mpointerSize + bytes) =
        pointerSize memory p - bytes - mpointerSize ∧
      pointerNext split (p + mpointerSize + bytes) = pointerNext memory p ∧
      ∀ place, (place < p ∨ p + mpointerSize ≤ place) →
        (place < p + mpointerSize + bytes ∨
          p + mpointerSize + bytes + mpointerSize ≤ place) →
        split place = memory place := by
  have hsize := load64_lt memory p
  simp only [pointerSize, pointerNext, mpointerSize] at *
  have haddress : wordAdd p 16 = p + 16 := wordAdd_of_lt (by omega)
  have hnew : wordAdd (p + 16) bytes = p + 16 + bytes :=
    wordAdd_of_lt (by omega)
  have hless : wordSub (load64 memory p) bytes = load64 memory p - bytes :=
    wordSub_of_le (by omega) hsize
  have hlinked : load64 (store64 memory (p + 16 + bytes + 8)
      (load64 memory (p + 8))) p = load64 memory p :=
    load64_store64_of_ne _ (by omega) (by omega) (by omega)
  have hrest : wordSub (load64 memory p - bytes) 16 =
      load64 memory p - bytes - 16 := wordSub_of_le (by omega) (by omega)
  refine ⟨store64 (store64 (store64 memory (p + 16 + bytes + 8)
      (load64 memory (p + 8))) (p + 16 + bytes)
      (load64 memory p - bytes - 16)) (p + 8) (p + 16 + bytes),
    ?_, ?_, ?_, ?_, ?_⟩
  · rw [splitPointer]
    simp only [pointerSize, pointerNext, mpointerSize, haddress, hnew, hless,
      hlinked, hrest]
    rw [if_pos hroom, if_neg (by omega)]
  · exact load64_store64 (by omega) (by omega)
  · rw [load64_store64_of_ne _ (by omega) (by omega) (by omega)]
    exact load64_store64 (by omega) (by omega)
  · rw [load64_store64_of_ne _ (by omega) (by omega) (by omega),
      load64_store64_of_ne _ (by omega) (by omega) (by omega)]
    exact load64_store64 (by omega) (load64_lt memory (p + 8))
  · intro place hold hcut
    rw [store64, storeBytes_outside _ (by omega) (by omega),
      store64, storeBytes_outside _ (by omega) (by omega),
      store64, storeBytes_outside _ (by omega) (by omega)]

theorem splitPointer_taken {memory : Memory} {p bytes : Nat}
    (hroom : mpointerSize < pointerSize memory p - bytes)
    (hspace : p + mpointerSize + bytes + mpointerSize ≤ wordSize) :
    ∃ split, splitPointer memory p bytes = .ok split ∧
      pointerSize (store64 split p 0) p = 0 ∧
      pointerNext (store64 split p 0) p = p + mpointerSize + bytes ∧
      pointerSize (store64 split p 0) (p + mpointerSize + bytes) =
        pointerSize memory p - bytes - mpointerSize ∧
      pointerNext (store64 split p 0) (p + mpointerSize + bytes) =
        pointerNext memory p ∧
      ∀ place, (place < p ∨ p + mpointerSize ≤ place) →
        (place < p + mpointerSize + bytes ∨
          p + mpointerSize + bytes + mpointerSize ≤ place) →
        store64 split p 0 place = memory place := by
  obtain ⟨split, hsplit, hnext, hnewSize, hnewNext, hsame⟩ :=
    splitPointer_cut hroom hspace
  have hbehind : ∀ place, p + 8 ≤ place → place + 8 ≤ wordSize →
      load64 (store64 split p 0) place = load64 split place :=
    fun place hplace hend =>
      load64_store64_of_ne _ (by omega) hend (.inr hplace)
  simp only [mpointerSize, pointerSize, pointerNext] at *
  refine ⟨split, hsplit, load64_store64 (by omega) (by decide), ?_, ?_, ?_, ?_⟩
  · exact (hbehind _ (Nat.le_refl _) (by omega)).trans hnext
  · exact (hbehind _ (by omega) (by omega)).trans hnewSize
  · exact (hbehind _ (by omega) (by omega)).trans hnewNext
  · intro place hold hcut
    rw [store64, storeBytes_outside _ (by omega) (by omega)]
    exact hsame place hold hcut

/-- A cut writes the address of the new pointer into the old one, wherever the
new one comes to lie. -/
theorem splitPointer_next {memory split : Memory} {p bytes : Nat}
    (hspace : p + mpointerSize ≤ wordSize)
    (hroom : mpointerSize < wordSub (pointerSize memory p) bytes)
    (hsplit : splitPointer memory p bytes = .ok split) :
    pointerNext split p = wordAdd (wordAdd p mpointerSize) bytes ∧
      wordAdd (wordAdd p mpointerSize) bytes ≠ 0 := by
  rw [splitPointer] at hsplit
  simp only at hsplit
  rw [if_pos hroom] at hsplit
  split at hsplit
  · cases hsplit
  · rename_i hne
    cases hsplit
    simp only [mpointerSize] at hspace
    exact ⟨load64_store64 (by omega) (word_lt _), hne⟩

theorem splitPointer_whole {memory : Memory} {p bytes : Nat}
    (hfits : bytes ≤ pointerSize memory p)
    (hroom : ¬ mpointerSize < pointerSize memory p - bytes) :
    splitPointer memory p bytes = .ok memory := by
  rw [splitPointer, wordSub_of_le hfits (load64_lt memory p)]
  exact if_neg hroom

theorem kmallocFrom_eq_ok {kernel : Kernel} {memory : Memory} {h bytes : Nat}
    {result : Kernel × Nat}
    (hcall : kmallocFrom kernel memory h bytes = .ok result) :
    ∃ p last split max,
      searchList (pointerNext memory)
        (fun p => decide (bytes ≤ pointerSize memory p))
        wordSize 0 (wordAdd h mheaderSize) = .ok (p, last) ∧
      p ≠ 0 ∧ splitPointer memory p bytes = .ok split ∧
      result = ({ kernel with
        memory := store64 (store64 split p 0) (h + 8) max },
        wordAdd p mpointerSize) := by
  rw [kmallocFrom] at hcall
  split at hcall
  · cases hcall
  · rename_i p last hsearch
    split at hcall
    · cases hcall
    · rename_i hne
      split at hcall
      · cases hcall
      · rename_i split hsplit
        split at hcall
        · cases hcall
        · rename_i updated hupdated
          obtain ⟨max, rfl⟩ := updateSizeMax_eq_ok hupdated
          cases hcall
          exact ⟨p, last, split, max, hsearch, hne, hsplit, rfl⟩

section

variable {memory other : Memory} {base : Nat} {before after : List Segment}
  {chosen : Segment}

/-- The pointers in front of a segment and behind it are read where only the
segment was written. -/
theorem load64_beside {pointer : Nat × Segment} {offset : Nat}
    (hinside : base + mheaderSize + spans (before ++ chosen :: after) ≤
      wordSize)
    (hsame : ∀ place, place < base + mheaderSize + spans before ∨
      base + mheaderSize + spans before + mpointerSize + chosen.length ≤
        place → other place = memory place)
    (hpointer : pointer ∈ placed (base + mheaderSize) before ∨
      pointer ∈ placed (base + mheaderSize + spans before + mpointerSize +
        chosen.length) after)
    (hoffset : offset ≤ 8) :
    load64 other (pointer.1 + offset) = load64 memory (pointer.1 + offset) := by
  rw [spans_append, spans_cons] at hinside
  simp only [mpointerSize] at *
  rcases hpointer with hpointer | hpointer
  · have hbounds := placed_bounds hpointer
    simp only [mpointerSize] at hbounds
    refine load64_congr (by omega) ?_
    intro place hge hlt
    exact hsame place (.inl (by omega))
  · have hbounds := placed_bounds hpointer
    simp only [mpointerSize] at hbounds
    refine load64_congr (by omega) ?_
    intro place hge hlt
    exact hsame place (.inr (by omega))

theorem Header.Chained.size_beside {pointer : Nat × Segment}
    (hchained : Header.Chained memory ⟨base, before ++ chosen :: after⟩)
    (hinside : base + mheaderSize + spans (before ++ chosen :: after) ≤
      wordSize)
    (hsame : ∀ place, place < base + mheaderSize + spans before ∨
      base + mheaderSize + spans before + mpointerSize + chosen.length ≤
        place → other place = memory place)
    (hpointer : pointer ∈ placed (base + mheaderSize) before ∨
      pointer ∈ placed (base + mheaderSize + spans before + mpointerSize +
        chosen.length) after) :
    pointerSize other pointer.1 = pointer.2.size := by
  refine (load64_beside hinside hsame hpointer (Nat.zero_le 8)).trans
    (hchained.sizes pointer ?_)
  exact mem_placed_append.mpr (hpointer.imp_right .inr)

theorem Header.Chained.cut {kept rest : Segment}
    (hchained : Header.Chained memory ⟨base, before ++ chosen :: after⟩)
    (hinside : base + mheaderSize + spans (before ++ chosen :: after) ≤
      wordSize)
    (hlength : kept.length + mpointerSize + rest.length = chosen.length)
    (hsame : ∀ place, place < base + mheaderSize + spans before ∨
      base + mheaderSize + spans before + mpointerSize + chosen.length ≤
        place → other place = memory place)
    (hsize : pointerSize other (base + mheaderSize + spans before) =
      kept.size)
    (hnext : pointerNext other (base + mheaderSize + spans before) =
      base + mheaderSize + spans before + mpointerSize + kept.length)
    (hnewSize : pointerSize other (base + mheaderSize + spans before +
      mpointerSize + kept.length) = rest.size)
    (hnewNext : pointerNext other (base + mheaderSize + spans before +
      mpointerSize + kept.length) =
        pointerNext memory (base + mheaderSize + spans before)) :
    Header.Chained other ⟨base, before ++ kept :: rest :: after⟩ := by
  have hend : base + mheaderSize + spans before + mpointerSize +
      kept.length + mpointerSize + rest.length =
        base + mheaderSize + spans before + mpointerSize + chosen.length := by
    omega
  have hchain := hchained.chain
  simp only [Header.pointers, Header.start, placed_append, placed,
    List.map_append, List.map_cons] at hchain
  constructor
  · simp only [Header.pointers, Header.start, placed_append, placed,
      List.map_append, List.map_cons, hend]
    refine hchain.insert ?_ hnext ?_ hnewNext
    · intro node hnode
      rw [← List.map_append] at hnode
      obtain ⟨pointer, hpointer, rfl⟩ := List.mem_map.mp hnode
      exact load64_beside hinside hsame (List.mem_append.mp hpointer)
        (Nat.le_refl 8)
    · simp only [mheaderSize]
      omega
  · intro pointer hpointer
    simp only [Header.pointers, Header.start, placed_append, placed, hend,
      List.mem_append, List.mem_cons] at hpointer
    rcases hpointer with hpointer | rfl | rfl | hpointer
    · exact hchained.size_beside hinside hsame (.inl hpointer)
    · exact hsize
    · exact hnewSize
    · exact hchained.size_beside hinside hsame (.inr hpointer)

theorem Header.Chained.relabel {kept : Segment}
    (hchained : Header.Chained memory ⟨base, before ++ chosen :: after⟩)
    (hinside : base + mheaderSize + spans (before ++ chosen :: after) ≤
      wordSize)
    (hlength : kept.length = chosen.length)
    (hsame : ∀ place, place < base + mheaderSize + spans before ∨
      base + mheaderSize + spans before + mpointerSize + chosen.length ≤
        place → other place = memory place)
    (hsize : pointerSize other (base + mheaderSize + spans before) =
      kept.size)
    (hnext : pointerNext other (base + mheaderSize + spans before) =
      pointerNext memory (base + mheaderSize + spans before)) :
    Header.Chained other ⟨base, before ++ kept :: after⟩ := by
  have hchain := hchained.chain
  simp only [Header.pointers, Header.start, placed_append, placed,
    List.map_append, List.map_cons] at hchain
  constructor
  · simp only [Header.pointers, Header.start, placed_append, placed,
      List.map_append, List.map_cons, hlength]
    refine hchain.congr ?_
    intro node hnode
    rw [List.mem_append, List.mem_cons, List.mem_map, List.mem_map] at hnode
    rcases hnode with ⟨pointer, hpointer, rfl⟩ | rfl | ⟨pointer, hpointer, rfl⟩
    · exact load64_beside hinside hsame (.inl hpointer) (Nat.le_refl 8)
    · exact hnext
    · exact load64_beside hinside hsame (.inr hpointer) (Nat.le_refl 8)
  · intro pointer hpointer
    simp only [Header.pointers, Header.start, placed_append, placed, hlength,
      List.mem_append, List.mem_cons] at hpointer
    rcases hpointer with hpointer | rfl | hpointer
    · exact hchained.size_beside hinside hsame (.inl hpointer)
    · exact hsize
    · exact hchained.size_beside hinside hsame (.inr hpointer)

theorem Header.Chained.split {bytes : Nat}
    (hchained : Header.Chained memory ⟨base, before ++ chosen :: after⟩)
    (hinside : base + mheaderSize + spans (before ++ chosen :: after) ≤
      wordSize)
    (hfree : chosen.free = true) (hfits : bytes ≤ chosen.length) :
    ∃ split, splitPointer memory (base + mheaderSize + spans before) bytes =
        .ok split ∧
      Header.Chained
        (store64 split (base + mheaderSize + spans before) 0)
        ⟨base, before ++ carve chosen.length bytes ++ after⟩ ∧
      ∀ place, (place < base + mheaderSize + spans before ∨
          base + mheaderSize + spans before + mpointerSize ≤ place) →
        (place < base + mheaderSize + spans before + mpointerSize + bytes ∨
          base + mheaderSize + spans before + mpointerSize + chosen.length ≤
            place) →
        store64 split (base + mheaderSize + spans before) 0 place =
          memory place := by
  have hsize : pointerSize memory (base + mheaderSize + spans before) =
      chosen.length := by
    refine (hchained.sizes (base + mheaderSize + spans before, chosen) ?_).trans
      (if_pos hfree)
    exact mem_placed_append.mpr (.inr (.inl rfl))
  have hspans := hinside
  rw [spans_append, spans_cons] at hspans
  generalize hp : base + mheaderSize + spans before = p at *
  have hp8 : p + 8 ≤ wordSize := by
    simp only [mpointerSize] at hspans
    omega
  rw [carve]
  split
  · rename_i hroom
    obtain ⟨split, hsplit, htaken, hnext, hnewSize, hnewNext, hsame⟩ :=
      splitPointer_taken (by rw [hsize]; exact hroom) (by omega)
    rw [hsize] at hnewSize
    have hframe : ∀ place, (place < p ∨ p + mpointerSize ≤ place) →
        (place < p + mpointerSize + bytes ∨
          p + mpointerSize + chosen.length ≤ place) →
        store64 split p 0 place = memory place :=
      fun place hold hcut => hsame place hold (hcut.imp_right (by omega))
    refine ⟨split, hsplit, ?_, hframe⟩
    rw [List.append_assoc]
    subst hp
    refine hchained.cut hinside ?_ ?_ htaken hnext hnewSize hnewNext
    · simp only [Segment.allocated, Segment.available]
      omega
    · intro place hplace
      exact hframe place (by omega) (by omega)
  · rename_i hroom
    have hsplit : splitPointer memory p bytes = .ok memory :=
      splitPointer_whole (by rw [hsize]; exact hfits)
        (by rw [hsize]; exact hroom)
    simp only [mpointerSize, pointerSize] at *
    have hframe : ∀ place, (place < p ∨ p + 16 ≤ place) →
        store64 memory p 0 place = memory place :=
      fun place hold => storeBytes_outside _ hp8 (by omega)
    refine ⟨memory, hsplit, ?_, fun place hold _ => hframe place hold⟩
    rw [List.append_assoc]
    subst hp
    refine hchained.relabel hinside ?_ ?_ ?_ ?_
    · rfl
    · intro place hplace
      simp only [mpointerSize] at hplace
      exact hframe place (by omega)
    · exact load64_store64 hp8 (by decide)
    · exact load64_store64_of_ne _ hp8 (by omega) (by omega)

theorem Header.Chained.searchList_eq {bytes : Nat}
    (hchained : Header.Chained memory ⟨base, before ++ chosen :: after⟩)
    (hinside : base + mheaderSize + spans (before ++ chosen :: after) ≤
      wordSize)
    (hfree : chosen.free = true) (hfits : bytes ≤ chosen.length)
    (hfirst : ∀ segment ∈ before, segment.size < bytes) :
    searchList (pointerNext memory)
      (fun p => decide (bytes ≤ pointerSize memory p)) wordSize 0
      (base + mheaderSize) =
        .ok (base + mheaderSize + spans before,
          ((placed (base + mheaderSize) before).map Prod.fst).getLast?.getD 0)
      := by
  have hchain := hchained.chain
  simp only [Header.pointers, Header.start, placed_append, placed,
    List.map_append, List.map_cons] at hchain
  refine searchList_of_found hchain ?_ ?_ ?_
  · have hcount := length_le_spans before
    rw [spans_append, spans_cons] at hinside
    simp only [mheaderSize, mpointerSize] at hcount hinside
    rw [List.length_map, placed_length]
    omega
  · intro node hnode
    obtain ⟨pointer, hpointer, rfl⟩ := List.mem_map.mp hnode
    rw [hchained.sizes pointer (mem_placed_append.mpr (.inl hpointer)),
      decide_eq_false_iff_not, Nat.not_le]
    refine hfirst pointer.2 ?_
    rw [← placed_snd (base + mheaderSize) before]
    exact List.mem_map.mpr ⟨pointer, hpointer, rfl⟩
  · rw [hchained.sizes (base + mheaderSize + spans before, chosen)
      (mem_placed_append.mpr (.inr (.inl rfl))), decide_eq_true_eq,
      Segment.size, if_pos hfree]
    exact hfits

theorem kmallocFrom_serves (kernel : Kernel) {bytes : Nat}
    (hchained : Header.Chained memory ⟨base, before ++ chosen :: after⟩)
    (hsize : headerSize memory base =
      mheaderSize + spans (before ++ chosen :: after))
    (hinside : base + mheaderSize + spans (before ++ chosen :: after) ≤
      wordSize)
    (hbytes : 0 < bytes) (hfree : chosen.free = true)
    (hfits : bytes ≤ chosen.length)
    (hfirst : ∀ segment ∈ before, segment.size < bytes) :
    ∃ served,
      kmallocFrom kernel memory base bytes =
        .ok ({ kernel with memory := served },
          base + mheaderSize + spans before + mpointerSize) ∧
      Header.Stored served
        ⟨base, before ++ carve chosen.length bytes ++ after⟩ ∧
      ∀ place, (place < base + 8 ∨ base + 16 ≤ place) →
        (place < base + mheaderSize + spans before ∨
          base + mheaderSize + spans before + mpointerSize ≤ place) →
        (place < base + mheaderSize + spans before + mpointerSize + bytes ∨
          base + mheaderSize + spans before + mpointerSize + chosen.length ≤
            place) →
        served place = memory place := by
  obtain ⟨split, hsplit, hcarved, hframe⟩ := hchained.split hinside hfree hfits
  have hspans := hinside
  rw [spans_append, spans_cons] at hspans
  have hinside' : base + Header.size
      ⟨base, before ++ carve chosen.length bytes ++ after⟩ ≤ wordSize := by
    simp only [Header.size, spans_append, spans_carve hfits]
    omega
  have hsearch := hchained.searchList_eq hinside hfree hfits hfirst
  simp only [mheaderSize, mpointerSize] at *
  refine ⟨store64 (store64 split (base + 24 + spans before) 0) (base + 8)
    (Header.sizeMax ⟨base, before ++ carve chosen.length bytes ++ after⟩),
    ?_, ?_, ?_⟩
  · have hstart : wordAdd base 24 = base + 24 := wordAdd_of_lt (by omega)
    have haddress : wordAdd (base + 24 + spans before) 16 =
        base + 24 + spans before + 16 := wordAdd_of_lt (by omega)
    rw [kmallocFrom]
    simp only [mheaderSize, mpointerSize, hstart, hsearch, hsplit, haddress]
    rw [if_neg (by omega)]
    rw [hcarved.updateSizeMax kernel hinside']
  · refine hcarved.stored_store hinside' ?_
    have hheader : load64 (store64 split (base + 24 + spans before) 0) base =
        load64 memory base :=
      load64_congr (by omega)
        (fun place hge hlt => hframe place (by omega) (by omega))
    refine hheader.trans (hsize.trans ?_)
    simp only [Header.size, spans_append, spans_carve hfits, spans_cons,
      mheaderSize, mpointerSize]
    omega
  · intro place hmax hold hcut
    rw [store64, storeBytes_outside _ (by omega) hmax]
    exact hframe place hold hcut

end

/-- The first free segment of `bytes` bytes and more, in the first header that
has one. -/
structure FirstFit (headers : List Header) (bytes : Nat) where
  front : List Header
  header : Header
  back : List Header
  before : List Segment
  chosen : Segment
  after : List Segment
  headers_eq : headers = front ++ header :: back
  segments_eq : header.segments = before ++ chosen :: after
  front_full : ∀ other ∈ front, other.sizeMax < bytes
  before_short : ∀ segment ∈ before, segment.size < bytes
  free : chosen.free = true
  fits : bytes ≤ chosen.length

namespace FirstFit

variable {headers : List Header} {bytes : Nat}

def pointer (fit : FirstFit headers bytes) : Nat :=
  fit.header.base + mheaderSize + spans fit.before

def address (fit : FirstFit headers bytes) : Nat := fit.pointer + mpointerSize

/-- The heap in which the segment has been handed out. -/
def served (fit : FirstFit headers bytes) : List Header :=
  fit.front ++
    ⟨fit.header.base,
      fit.before ++ carve fit.chosen.length bytes ++ fit.after⟩ :: fit.back

theorem exists_of_le_sizeMax (hbytes : 0 < bytes)
    (hsome : ∃ header ∈ headers, bytes ≤ header.sizeMax) :
    Nonempty (FirstFit headers bytes) := by
  obtain ⟨front, header, back, hheaders, hheader, hfront⟩ := exists_first hsome
  obtain ⟨before, chosen, after, hsegments, hchosen, hbefore⟩ :=
    exists_first (Header.exists_of_le_sizeMax hbytes hheader)
  have hfree : chosen.free = true := by
    by_contra hallocated
    rw [Segment.size, if_neg hallocated] at hchosen
    omega
  have hfits : bytes ≤ chosen.length := by
    rw [Segment.size, if_pos hfree] at hchosen
    exact hchosen
  exact ⟨{
    front := front
    header := header
    back := back
    before := before
    chosen := chosen
    after := after
    headers_eq := hheaders
    segments_eq := hsegments
    front_full := fun other hother => Nat.lt_of_not_le (hfront other hother)
    before_short := fun segment hsegment =>
      Nat.lt_of_not_le (hbefore segment hsegment)
    free := hfree
    fits := hfits }⟩

theorem header_fits (fit : FirstFit headers bytes) :
    bytes ≤ fit.header.sizeMax := by
  have hmem : fit.chosen ∈ fit.header.segments := by
    rw [fit.segments_eq]
    simp
  have hle := Header.sizeMax_le_iff.mp (Nat.le_refl _) fit.chosen hmem
  rw [Segment.size, if_pos fit.free] at hle
  exact Nat.le_trans fit.fits hle

end FirstFit

theorem carve_head {length bytes : Nat} (hfits : bytes ≤ length) :
    ∃ kept rest, carve length bytes = kept :: rest ∧ bytes ≤ kept.length ∧
      kept.free = false ∧ rest.length ≤ 1 := by
  rw [carve]
  split
  · exact ⟨_, _, rfl, Nat.le_refl _, rfl, Nat.le_refl _⟩
  · exact ⟨_, _, rfl, hfits, rfl, Nat.zero_le _⟩

section

variable {kernel : Kernel} {headers : List Header} {bytes : Nat}

theorem kmalloc_fit (memEnd : Nat) (getFreePages : Nat → Nat)
    (henabled : kernel.mmuEnabled = true) (hholds : kernel.Holds headers)
    (hbytes : 0 < bytes) (fit : FirstFit headers bytes) :
    ∃ served,
      kmalloc memEnd getFreePages kernel bytes =
        .ok ({ kernel with memory := served }, fit.address) ∧
      Kernel.Holds { kernel with memory := served } fit.served ∧
      ∀ place,
        (place < fit.header.base + 8 ∨ fit.header.base + 16 ≤ place) →
        (place < fit.pointer ∨ fit.address ≤ place) →
        (place < fit.address + bytes ∨
          fit.address + fit.chosen.length ≤ place) →
        served place = kernel.memory place := by
  have hlimit := fit.header_fits
  obtain ⟨front, ⟨base, segments⟩, back, before, chosen, after, rfl, hsegments,
    hfront, hbefore, hfree, hfits⟩ := fit
  simp only [FirstFit.address, FirstFit.pointer, FirstFit.served] at *
  subst hsegments
  have hmem : (⟨base, before ++ chosen :: after⟩ : Header) ∈
      front ++ ⟨base, before ++ chosen :: after⟩ :: back := by simp
  have hstored := hholds.stored _ hmem
  have hinside := hholds.inside _ hmem
  simp only [Header.size, ← Nat.add_assoc] at hinside
  obtain ⟨last, hsearch⟩ := @Kernel.Holds.search_some _ _ _ _ hholds
    (fun h => decide (bytes ≤ headerSizeMax kernel.memory h))
    (fun other hother => by
      rw [(hholds.stored other (by simp [hother])).sizeMax,
        decide_eq_false_iff_not, Nat.not_le]
      exact hfront other hother)
    (by rw [hstored.sizeMax, decide_eq_true_eq]; exact hlimit)
  obtain ⟨served, hserved, hcarved, hframe⟩ :=
    kmallocFrom_serves kernel hstored.toChained hstored.size hinside hbytes
      hfree hfits hbefore
  refine ⟨served, ?_, ?_, hframe⟩
  · rw [kmalloc, if_neg (by omega), if_neg (by simp [henabled])]
    simp only [hsearch]
    rw [if_pos (hholds.base_ne_zero hmem), hserved]
  · refine hholds.update ?_ hcarved ?_
    · simp only [spans_append, spans_carve hfits, spans_cons]
      omega
    · intro place hmax hpages
      simp only [Header.start, Header.size, spans_append, spans_cons] at hpages
      exact hframe place hmax (by omega) (by omega)

/-- `kmalloc` from a header that is there already returns the first segment that
fits, and every header stays cut into segments. -/
theorem kmalloc_serves (memEnd : Nat) (getFreePages : Nat → Nat)
    (henabled : kernel.mmuEnabled = true) (hholds : kernel.Holds headers)
    (hbytes : 0 < bytes)
    (hsome : ∃ header ∈ headers, bytes ≤ header.sizeMax) :
    ∃ fit : FirstFit headers bytes, ∃ kept rest served,
      carve fit.chosen.length bytes = kept :: rest ∧ bytes ≤ kept.length ∧
      kept.free = false ∧ rest.length ≤ 1 ∧
      kmalloc memEnd getFreePages kernel bytes =
        .ok ({ kernel with memory := served }, fit.address) ∧
      Kernel.Holds { kernel with memory := served } fit.served ∧
      ∀ place,
        (place < fit.header.base + 8 ∨ fit.header.base + 16 ≤ place) →
        (place < fit.pointer ∨ fit.address ≤ place) →
        (place < fit.address + bytes ∨
          fit.address + fit.chosen.length ≤ place) →
        served place = kernel.memory place := by
  obtain ⟨fit⟩ := FirstFit.exists_of_le_sizeMax hbytes hsome
  obtain ⟨kept, rest, hcarve, hkept, hallocated, hrest⟩ := carve_head fit.fits
  obtain ⟨served, hcall, hserved, hframe⟩ :=
    kmalloc_fit memEnd getFreePages henabled hholds hbytes fit
  exact ⟨fit, kept, rest, served, hcarve, hkept, hallocated, hrest, hcall,
    hserved, hframe⟩

theorem kmalloc_serves_first :
    ∃ started, mmInit bootKernel 0x10000 = .ok started ∧
      ∃ fit : FirstFit [firstHeader 0x10000] 100, ∃ served,
        kmalloc 0 (fun _ => 0) started 100 =
          .ok ({ started with memory := served }, fit.address) ∧
        Kernel.Holds { started with memory := served } fit.served := by
  obtain ⟨started, hstarted, henabled, hholds⟩ :=
    @mmInit_holds bootKernel 0x10000 (by decide) (by decide)
  obtain ⟨fit, -, -, served, -, -, -, -, hcall, hserved, -⟩ :=
    kmalloc_serves 0 (fun _ => 0) henabled hholds (by decide : 0 < 100)
      ⟨firstHeader 0x10000, .head _, by decide⟩
  exact ⟨started, hstarted, fit, served, hcall, hserved⟩

end

end Synos.Mm

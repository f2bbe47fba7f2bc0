import Synos.Mm.Merge
import Synos.Mm.Serve

namespace Synos.Mm

open Synos.Data

/-! What `kfree` does for the pointer that it finds `sizeof(mpointer_t)` pointers
ahead of the address: the size that it computes, the bytes that it wipes and when
all of that is there already. -/

/-- What `kfree` writes for the pointer at `p` is there already. -/
structure Header.Idle (header : Header) (memory : Memory) (address p : Nat) :
    Prop where
  size : pointerSize memory p = wordSub (pointerNext memory p) address
  wiped : ∀ place, address ≤ place →
    place < address + pointerSize memory p → memory place = 0
  coalesced : Coalesced memory (header.pointers.map Prod.fst)

theorem placed_spaced {p : Nat} {segments : List Segment}
    (hspace : p + spans segments ≤ wordSize) :
    Spaced ((placed p segments).map Prod.fst) := by
  induction segments generalizing p with
  | nil => exact ⟨List.Pairwise.nil, by simp [placed]⟩
  | cons segment rest ih =>
      rw [spans_cons] at hspace
      obtain ⟨hapart, hinside⟩ := @ih (p + mpointerSize + segment.length)
        (by omega)
      simp only [placed, List.map_cons]
      refine ⟨List.pairwise_cons.mpr ⟨?_, hapart⟩, ?_⟩
      · intro other hother
        obtain ⟨pointer, hpointer, rfl⟩ := List.mem_map.mp hother
        have hbounds := placed_bounds hpointer
        omega
      · rw [List.forall_mem_cons]
        exact ⟨by omega, hinside⟩

section

variable {kernel : Kernel} {header : Header} {memory : Memory}
  {address p : Nat}

theorem Header.Chained.next (hchained : header.Chained memory)
    {pointer : Nat × Segment} (hpointer : pointer ∈ header.pointers) :
    pointerNext memory pointer.1 = 0 ∨
      pointerNext memory pointer.1 =
        pointer.1 + mpointerSize + pointer.2.length := by
  obtain ⟨base, segments⟩ := header
  obtain ⟨before, after, hsegments, hplace⟩ := exists_of_mem_placed hpointer
  simp only at hsegments
  subst hsegments
  have hchain := hchained.chain
  simp only [pointers, placed_append, placed, List.map_append,
    List.map_cons] at hchain
  have hrest := hchain.of_append.2
  rw [← hplace] at hrest
  cases after with
  | nil => exact .inl hrest
  | cons next after => exact .inr hrest.1

theorem Header.Chained.spaced
    (hinside : header.base + header.size ≤ wordSize) :
    Spaced (header.pointers.map Prod.fst) := by
  refine placed_spaced ?_
  simp only [start, size] at *
  omega

theorem Header.Chained.pointers_eq (hchained : header.Chained memory) :
    ∃ rest, header.pointers.map Prod.fst = header.start :: rest := by
  obtain ⟨base, segments⟩ := header
  cases segments with
  | nil =>
      have hstart : base + mheaderSize = 0 := hchained.chain
      simp [mheaderSize] at hstart
  | cons segment rest => exact ⟨_, rfl⟩

theorem Header.Chained.pointers_ne_nil (hchained : header.Chained memory) :
    header.pointers.map Prod.fst ≠ [] := by
  obtain ⟨rest, hnodes⟩ := hchained.pointers_eq
  rw [hnodes]
  exact List.cons_ne_nil _ _

theorem Header.start_le (hp : p ∈ header.pointers.map Prod.fst) :
    header.start ≤ p := by
  obtain ⟨pointer, hpointer, rfl⟩ := List.mem_map.mp hp
  exact (placed_bounds hpointer).1

/-- The words of the pointers lie behind the header's cached maximum. -/
theorem Header.load64_store_sizeMax
    (hinside : header.base + header.size ≤ wordSize)
    (hp : p ∈ header.pointers.map Prod.fst) {offset : Nat}
    (hoffset : offset ≤ 8) (max : Nat) :
    load64 (store64 memory (header.base + 8) max) (p + offset) =
      load64 memory (p + offset) := by
  have hfirst := Header.start_le hp
  have hlast := (Header.Chained.spaced hinside).inside p hp
  simp only [start, mheaderSize, mpointerSize] at hfirst hlast
  exact load64_store64_of_ne _ (by omega) (by omega) (by omega)

theorem wipe_apply (hspace : p + mpointerSize ≤ wordSize) (place : Nat) :
    wipe memory p address place =
      if place < wordSize ∧
          wordSub place address < wordSub (pointerNext memory p) address then 0
      else
        store64 memory p (wordSub (pointerNext memory p) address) place := by
  have hsize : pointerSize
      (store64 memory p (wordSub (pointerNext memory p) address)) p =
        wordSub (pointerNext memory p) address := by
    simp only [mpointerSize] at hspace
    exact load64_store64 (by omega) (word_lt _)
  simp only [wipe, hsize, setBytes]

/-- The next pointer lies below the address, so that the size wraps around: all
memory below the next pointer is wiped, the header with it. -/
theorem kfreeFrom_wraps
    (hinside : header.base + header.size ≤ wordSize)
    (hchained : header.Chained kernel.memory)
    (hp : p ∈ header.pointers.map Prod.fst) (haddress : address < wordSize)
    (hnext : p + mpointerSize ≤ pointerNext kernel.memory p)
    (hwraps : pointerNext kernel.memory p < address) :
    ∃ freed, kfreeFrom kernel header.base p address = .ok freed ∧
      headerSize freed.memory header.base = 0 := by
  have hspace := (Header.Chained.spaced hinside).inside p hp
  have hstart := Header.start_le hp
  have hwiped : ∀ place < pointerNext kernel.memory p,
      wipe kernel.memory p address place = 0 := by
    intro place hplace
    rw [wipe_apply hspace, if_pos]
    simp only [wordSub, word, wordSize] at *
    omega
  have hzero : ∀ place, place + 8 ≤ pointerNext kernel.memory p →
      load64 (wipe kernel.memory p address) place = 0 := fun place hplace =>
    load64_of_zero (by omega) (fun other _ hother => hwiped other (by omega))
  have hlinked : Linked (pointerNext (wipe kernel.memory p address))
      header.start [header.start] := by
    simp only [Header.start, mheaderSize, mpointerSize] at *
    exact ⟨rfl, by omega, hzero _ (by omega)⟩
  have hmerge := pointersMerge_coalesced hlinked (List.cons_ne_nil _ _)
    (by simp [wordSize]) (List.isChain_singleton _)
  obtain ⟨max, hmax⟩ : ∃ max,
      findSizeMax (wipe kernel.memory p address) header.base = .ok max := by
    rw [findSizeMax, hchained.start_eq hinside,
      foldList_eq hlinked (by simp [wordSize])]
    exact ⟨_, rfl⟩
  refine ⟨{ kernel with
    memory := store64 (wipe kernel.memory p address) (header.base + 8) max },
    ?_, ?_⟩
  · rw [kfreeFrom, hchained.start_eq hinside, hmerge]
    simp only
    rw [updateSizeMax, hmax]
  · simp only [headerSize]
    simp only [Header.start, mheaderSize, mpointerSize] at *
    rw [load64_store64_of_ne _ (by omega) (by omega) (by omega)]
    exact hzero _ (by omega)

theorem wipe_pointers
    (hinside : header.base + header.size ≤ wordSize)
    (hchained : header.Chained memory)
    (hp : p ∈ header.pointers.map Prod.fst) (haddress : address < wordSize)
    (hahead : p + mpointerSize * mpointerSize = address)
    (hbehind : pointerNext memory p = 0 ∨ address ≤ pointerNext memory p) :
    (∀ place < address, wipe memory p address place =
        store64 memory p (wordSub (pointerNext memory p) address) place) ∧
      (∀ node ∈ header.pointers.map Prod.fst, p < node →
        ∀ place, node ≤ place → wipe memory p address place =
          store64 memory p (wordSub (pointerNext memory p) address) place) ∧
      ∀ place, address ≤ place →
        place < address + wordSub (pointerNext memory p) address →
        wipe memory p address place = 0 := by
  have hspaced := Header.Chained.spaced hinside
  have hspace := hspaced.inside p hp
  have hlt : pointerNext memory p < wordSize := load64_lt _ _
  refine ⟨?_, ?_, ?_⟩
  · intro place hplace
    rw [wipe_apply hspace, if_neg]
    simp only [wordSub, word, wordSize] at *
    omega
  · intro node hnode hafter place hplace
    have hnext := hspaced.next_le hchained.chain hp hnode hafter
    rw [wipe_apply hspace, if_neg]
    simp only [wordSub, word, wordSize, mpointerSize] at *
    omega
  · intro place hge hlt
    rw [wipe_apply hspace, if_pos]
    simp only [wordSub, word, wordSize] at *
    omega

theorem wipe_words
    (hinside : header.base + header.size ≤ wordSize)
    (hchained : header.Chained memory)
    (hp : p ∈ header.pointers.map Prod.fst) (haddress : address < wordSize)
    (hahead : p + mpointerSize * mpointerSize = address)
    (hbehind : pointerNext memory p = 0 ∨ address ≤ pointerNext memory p)
    {node : Nat} (hnode : node ∈ header.pointers.map Prod.fst)
    {offset : Nat} (hoffset : offset ≤ 8) :
    load64 (wipe memory p address) (node + offset) =
      load64 (store64 memory p (wordSub (pointerNext memory p) address))
        (node + offset) := by
  obtain ⟨hbelow, hafter, -⟩ :=
    wipe_pointers hinside hchained hp haddress hahead hbehind
  have hspaced := Header.Chained.spaced hinside
  have hspace := hspaced.inside node hnode
  simp only [mpointerSize] at hspace hahead
  refine load64_congr (by omega) ?_
  intro place hge hlt
  by_cases horder : p < node
  · exact hafter node hnode horder place (by omega)
  · exact hbelow place (by omega)

theorem wipe_next
    (hinside : header.base + header.size ≤ wordSize)
    (hchained : header.Chained memory)
    (hp : p ∈ header.pointers.map Prod.fst) (haddress : address < wordSize)
    (hahead : p + mpointerSize * mpointerSize = address)
    (hbehind : pointerNext memory p = 0 ∨ address ≤ pointerNext memory p)
    {node : Nat} (hnode : node ∈ header.pointers.map Prod.fst) :
    pointerNext (wipe memory p address) node = pointerNext memory node := by
  have hspaced := Header.Chained.spaced hinside
  have hdisjoint := hspaced.disjoint hp hnode
  have hspace := hspaced.inside p hp
  have hlast := hspaced.inside node hnode
  simp only [mpointerSize] at hdisjoint hlast hspace
  refine (wipe_words hinside hchained hp haddress hahead hbehind hnode
    (Nat.le_refl 8)).trans ?_
  exact load64_store64_of_ne _ (by omega) (by omega) (by omega)

theorem wipe_size
    (hinside : header.base + header.size ≤ wordSize)
    (hchained : header.Chained memory)
    (hp : p ∈ header.pointers.map Prod.fst) (haddress : address < wordSize)
    (hahead : p + mpointerSize * mpointerSize = address)
    (hbehind : pointerNext memory p = 0 ∨ address ≤ pointerNext memory p) :
    pointerSize (wipe memory p address) p =
      wordSub (pointerNext memory p) address := by
  have hspace := (Header.Chained.spaced hinside).inside p hp
  simp only [mpointerSize] at hspace
  exact (wipe_words hinside hchained hp haddress hahead hbehind hp
    (Nat.zero_le 8)).trans (load64_store64 (by omega) (word_lt _))

/-- What `kfree` writes is there already: it changes nothing. -/
theorem Header.Idle.kfreeFrom
    (hinside : header.base + header.size ≤ wordSize)
    (hstored : header.Stored kernel.memory)
    (hp : p ∈ header.pointers.map Prod.fst) (haddress : address < wordSize)
    (hbehind : pointerNext kernel.memory p = 0 ∨
      address ≤ pointerNext kernel.memory p)
    (hidle : header.Idle kernel.memory address p) :
    Mm.kfreeFrom kernel header.base p address = .ok kernel := by
  obtain ⟨hsize, hwiped, hcoalesced⟩ := hidle
  have hchained := hstored.toChained
  have hspace := (Header.Chained.spaced hinside).inside p hp
  have hsame : wipe kernel.memory p address = kernel.memory := by
    have hself := store64_self kernel.memory p
    rw [← pointerSize, hsize] at hself
    funext place
    rw [wipe_apply hspace, hself]
    split
    · rename_i hrange
      have hlt : pointerNext kernel.memory p < wordSize := load64_lt _ _
      have hplace : address ≤ place ∧
          place < address + pointerSize kernel.memory p := by
        rw [hsize]
        simp only [wordSub, word, wordSize] at *
        omega
      exact (hwiped place hplace.1 hplace.2).symm
    · rfl
  have hmerge := pointersMerge_coalesced hchained.chain
    hchained.pointers_ne_nil (Header.pointers_length_lt hinside) hcoalesced
  have hmax := store64_self kernel.memory (header.base + 8)
  rw [← headerSizeMax, hstored.sizeMax] at hmax
  rw [Mm.kfreeFrom, hchained.start_eq hinside, hsame, hmerge]
  simp only
  rw [hchained.updateSizeMax kernel hinside, hmax]

theorem kfreeFrom_eq_ok {freed : Kernel} {h : Nat}
    (hcall : kfreeFrom kernel h p address = .ok freed) :
    ∃ merged max, pointersMerge (wipe kernel.memory p address)
        (wordAdd h mheaderSize) = .ok merged ∧
      store64 merged (h + 8) max = freed.memory := by
  rw [kfreeFrom] at hcall
  split at hcall
  · cases hcall
  · rename_i merged hmerged
    obtain ⟨max, rfl⟩ := updateSizeMax_eq_ok hcall
    exact ⟨merged, max, hmerged, rfl⟩

theorem Header.idle_of_kfreeFrom
    (hinside : header.base + header.size ≤ wordSize)
    (hstored : header.Stored kernel.memory)
    (hp : p ∈ header.pointers.map Prod.fst) (haddress : address < wordSize)
    (hahead : p + mpointerSize * mpointerSize = address)
    (hbehind : pointerNext kernel.memory p = 0 ∨
      address ≤ pointerNext kernel.memory p)
    (hcall : kfreeFrom kernel header.base p address = .ok kernel) :
    header.Idle kernel.memory address p := by
  have hchained := hstored.toChained
  have hspaced := Header.Chained.spaced hinside
  obtain ⟨rest, hnodes⟩ := hchained.pointers_eq
  obtain ⟨-, -, hzero⟩ :=
    wipe_pointers hinside hchained hp haddress hahead hbehind
  -- The memory that the merge leaves holds the words of the old memory.
  obtain ⟨merged, max, hmerged, hmemory⟩ := kfreeFrom_eq_ok hcall
  rw [hchained.start_eq hinside] at hmerged
  have hread : ∀ node ∈ header.pointers.map Prod.fst, ∀ offset ≤ 8,
      load64 merged (node + offset) = load64 kernel.memory (node + offset) := by
    intro node hnode offset hoffset
    rw [← hmemory]
    exact (Header.load64_store_sizeMax hinside hnode hoffset max).symm
  have hnext : ∀ node ∈ header.pointers.map Prod.fst,
      pointerNext (wipe kernel.memory p address) node =
        pointerNext kernel.memory node := fun node hnode =>
    wipe_next hinside hchained hp haddress hahead hbehind hnode
  have hchain := hchained.chain.congr hnext
  have hcoalesced : Coalesced (wipe kernel.memory p address)
      (header.pointers.map Prod.fst) := by
    by_contra hfree
    rw [hnodes] at hspaced hchain hfree
    obtain ⟨node, hnode, hchanged⟩ :=
      mergeFrom_changes hspaced hchain hfree hmerged
    rw [← hnodes] at hnode
    rw [hnext node hnode] at hchanged
    exact hchanged (hread node hnode 8 (Nat.le_refl 8))
  have hsame : merged = wipe kernel.memory p address := by
    have hmerge := pointersMerge_coalesced hchain hchained.pointers_ne_nil
      (Header.pointers_length_lt hinside) hcoalesced
    exact Except.ok.inj (hmerged.symm.trans hmerge)
  subst hsame
  have hsize : pointerSize kernel.memory p =
      wordSub (pointerNext kernel.memory p) address :=
    (hread p hp 0 (Nat.zero_le 8)).symm.trans
      (wipe_size hinside hchained hp haddress hahead hbehind)
  refine ⟨hsize, ?_, ?_⟩
  · intro place hge hlt
    have hspace := hspaced.inside p hp
    have hfirst := Header.start_le hp
    simp only [start, mheaderSize, mpointerSize] at hfirst hahead hspace
    rw [hsize] at hlt
    rw [← hmemory, store64, storeBytes_outside _ (by omega) (by omega)]
    exact hzero place hge hlt
  · refine hcoalesced.congr ?_
    intro node hnode
    exact (hread node hnode 0 (Nat.zero_le 8)).symm

end

end Synos.Mm

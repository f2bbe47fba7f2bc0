import Synos.Mm.Wipe

namespace Synos.Mm

open Synos.Data

/-! What `pointers_merge` makes of the chain of a header: the sizes of neighbours
are added up, the space of the pointers between them is not. -/

structure Node where
  place : Nat
  size : Nat

def mergeNodes : (p : Node) → List Node → List Node
  | p, [] => [p]
  | p, next :: rest =>
      if 0 < p.size ∧ 0 < next.size then
        mergeNodes ⟨p.place, p.size + next.size⟩ rest
      else p :: mergeNodes next rest

/-- Where the bytes behind a pointer end; `stop` is the end of the header. -/
def bound (stop : Nat) : List Node → Nat
  | [] => stop
  | next :: _ => next.place

/-- Every free pointer has the size of the bytes behind it. -/
def Exact (stop : Nat) : List Node → Prop
  | [] => True
  | p :: rest =>
      (0 < p.size → p.place + mpointerSize + p.size = bound stop rest) ∧
        Exact stop rest

def NoFreePair (nodes : List Node) : Prop :=
  nodes.IsChain fun p next => ¬ (0 < p.size ∧ 0 < next.size)

section

variable {p : Node} {rest nodes : List Node} {stop : Nat}

theorem mergeNodes_head (p : Node) (rest : List Node) :
    ∃ size tail, mergeNodes p rest = ⟨p.place, size⟩ :: tail ∧
      (0 < size ↔ 0 < p.size) := by
  induction rest generalizing p with
  | nil => exact ⟨p.size, [], rfl, Iff.rfl⟩
  | cons next rest ih =>
      rw [mergeNodes]
      split
      · next hpair =>
          obtain ⟨size, tail, hmerged, hsize⟩ :=
            ih ⟨p.place, p.size + next.size⟩
          refine ⟨size, tail, hmerged, hsize.trans ?_⟩
          exact iff_of_true (Nat.add_pos_left hpair.1 _) hpair.1
      · exact ⟨p.size, _, rfl, Iff.rfl⟩

theorem bound_mergeNodes : bound stop (mergeNodes p rest) = p.place := by
  obtain ⟨size, tail, hmerged, -⟩ := mergeNodes_head p rest
  rw [hmerged]
  rfl

theorem mergeNodes_noFreePair (p : Node) (rest : List Node) :
    NoFreePair (mergeNodes p rest) := by
  induction rest generalizing p with
  | nil => exact List.isChain_singleton _
  | cons next rest ih =>
      rw [mergeNodes]
      split
      · exact ih _
      · next hpair =>
          obtain ⟨size, tail, hmerged, hsize⟩ := mergeNodes_head next rest
          have htail := ih next
          rw [NoFreePair, hmerged] at htail ⊢
          refine List.isChain_cons_cons.mpr ⟨?_, htail⟩
          rw [hsize]
          exact hpair

theorem mergeNodes_of_noFreePair (hnone : NoFreePair (p :: rest)) :
    mergeNodes p rest = p :: rest := by
  induction rest generalizing p with
  | nil => rfl
  | cons next rest ih =>
      obtain ⟨hpair, htail⟩ := List.isChain_cons_cons.mp hnone
      rw [mergeNodes, if_neg hpair, ih htail]

theorem mergeNodes_allocated (p : Node) (rest : List Node) :
    (mergeNodes p rest).filter (fun node => node.size = 0) =
      (p :: rest).filter fun node => node.size = 0 := by
  induction rest generalizing p with
  | nil => rfl
  | cons next rest ih =>
      rw [mergeNodes]
      split
      · next hpair =>
          rw [ih, List.filter_cons_of_neg, List.filter_cons_of_neg,
            List.filter_cons_of_neg]
          · simpa using hpair.2.ne'
          · simpa using hpair.1.ne'
          · simp only [decide_eq_true_eq]
            omega
      · simp only [List.filter_cons, ih]

theorem mergeNodes_ne_nil (p : Node) (rest : List Node) :
    mergeNodes p rest ≠ [] := by
  obtain ⟨size, tail, hmerged, -⟩ := mergeNodes_head p rest
  rw [hmerged]
  exact List.cons_ne_nil _ _

theorem mergeNodes_length_le (p : Node) (rest : List Node) :
    (mergeNodes p rest).length ≤ rest.length + 1 := by
  induction rest generalizing p with
  | nil => exact Nat.le_refl 1
  | cons next rest ih =>
      rw [mergeNodes]
      split
      · exact (ih _).trans (Nat.le_succ _)
      · exact Nat.succ_le_succ (ih next)

theorem not_exact_of_short (hfree : 0 < p.size)
    (hshort : p.place + mpointerSize + p.size < bound stop rest)
    (hrest : Exact stop rest) : ¬ Exact stop (mergeNodes p rest) := by
  induction rest generalizing p with
  | nil => exact fun hexact => absurd (hexact.1 hfree) hshort.ne
  | cons next rest ih =>
      obtain ⟨hnext, htail⟩ := hrest
      change p.place + mpointerSize + p.size < next.place at hshort
      rw [mergeNodes]
      split
      · next hpair =>
          have hend := hnext hpair.2
          refine ih (Nat.add_pos_left hfree _) ?_ htail
          simp only
          omega
      · intro hexact
        have hself := hexact.1 hfree
        rw [bound_mergeNodes] at hself
        omega

/-- Merging two pointers leaves out the space of the second one. -/
theorem exact_mergeNodes_iff (hexact : Exact stop (p :: rest)) :
    Exact stop (mergeNodes p rest) ↔ NoFreePair (p :: rest) := by
  constructor
  · intro hmerged
    induction rest generalizing p with
    | nil => exact List.isChain_singleton _
    | cons next rest ih =>
        obtain ⟨hself, hnext, htail⟩ := hexact
        rw [mergeNodes] at hmerged
        split at hmerged
        · next hpair =>
            refine absurd hmerged (not_exact_of_short ?_ ?_ htail)
            · exact Nat.add_pos_left hpair.1 _
            · have hplace : p.place + mpointerSize + p.size = next.place :=
                hself hpair.1
              have hend := hnext hpair.2
              simp only [mpointerSize] at *
              omega
        · next hpair =>
            exact List.isChain_cons_cons.mpr
              ⟨hpair, ih ⟨hnext, htail⟩ hmerged.2⟩
  · intro hnone
    rw [mergeNodes_of_noFreePair hnone]
    exact hexact

end

/-! The loop itself, on the memory that holds such a list. -/

/-- The memory holds the chain of these pointers with their sizes. -/
structure Lists (memory : Memory) (start : Nat) (nodes : List Node) : Prop where
  chain : Linked (pointerNext memory) start (nodes.map Node.place)
  sizes : ∀ node ∈ nodes, pointerSize memory node.place = node.size

section

variable {memory merged : Memory} {p next : Node} {rest nodes : List Node}
  {start stop fuel : Nat}

theorem Lists.tail (hlists : Lists memory start (p :: rest)) :
    Lists memory (pointerNext memory p.place) rest where
  chain := hlists.chain.2.2
  sizes := fun node hnode => hlists.sizes node (.tail _ hnode)

theorem Lists.cons (hlists : Lists memory start nodes) (hne : p.place ≠ 0)
    (hnext : pointerNext memory p.place = start)
    (hsize : pointerSize memory p.place = p.size) :
    Lists memory p.place (p :: nodes) where
  chain := ⟨rfl, hne, hnext ▸ hlists.chain⟩
  sizes := List.forall_mem_cons.mpr ⟨hsize, hlists.sizes⟩

theorem mergeNext_size {place : Nat} (hinside : place + mpointerSize ≤ wordSize)
    (hsum : pointerSize memory place +
      pointerSize memory (pointerNext memory place) < wordSize) :
    pointerSize (mergeNext memory place) place =
      pointerSize memory place +
        pointerSize memory (pointerNext memory place) := by
  simp only [mpointerSize] at hinside
  rw [mergeNext, pointerSize, load64_store64_of_ne _ (by omega) (by omega)
    (by omega), wordAdd_of_lt hsum]
  exact load64_store64 (by omega) hsum

theorem Lists.mergeNext
    (hlists : Lists memory start (p :: next :: rest))
    (hspaced : Spaced ((p :: next :: rest).map Node.place))
    (hsum : p.size + next.size < wordSize) :
    Lists (mergeNext memory p.place) start
      (⟨p.place, p.size + next.size⟩ :: rest) := by
  obtain ⟨hchain, hsizes⟩ := hlists
  obtain rfl : start = p.place := hchain.1
  have hnext : pointerNext memory p.place = next.place := hchain.2.2.1
  have hp := hsizes p (.head _)
  have hq := hsizes next (.tail _ (.head _))
  have hfirst := hspaced.inside p.place (.head _)
  refine ⟨mergeNext_linked hspaced hchain, ?_⟩
  rw [List.forall_mem_cons]
  constructor
  · rw [mergeNext_size hfirst, hnext, hp, hq]
    rw [hnext, hp, hq]
    exact hsum
  · intro node hnode
    rw [← hsizes node (.tail _ (.tail _ hnode))]
    have hplace : node.place ∈ rest.map Node.place :=
      List.mem_map_of_mem hnode
    have hinside := hspaced.inside node.place (.tail _ (.tail _ hplace))
    have hbehind := List.rel_of_pairwise_cons hspaced.apart
      (List.mem_cons_of_mem next.place hplace)
    simp only [mpointerSize] at hinside hbehind
    refine load64_congr (by omega) fun place hge hlt => ?_
    apply mergeNext_outside hfirst
    simp only [mpointerSize]
    omega

theorem mergeFrom_lists (hlists : Lists memory p.place (p :: rest))
    (hspaced : Spaced ((p :: rest).map Node.place))
    (hsum : ((p :: rest).map Node.size).sum < wordSize)
    (hfuel : rest.length < fuel) :
    ∃ merged, mergeFrom fuel memory p.place = .ok merged ∧
      Lists merged p.place (mergeNodes p rest) ∧
      ∀ place < p.place, merged place = memory place := by
  induction rest generalizing p memory fuel with
  | nil =>
      obtain ⟨fuel, rfl⟩ : ∃ more, fuel = more + 1 := ⟨fuel - 1, by omega⟩
      have hlast : pointerNext memory p.place = 0 := hlists.chain.2.2
      refine ⟨memory, ?_, hlists, fun _ _ => rfl⟩
      rw [mergeFrom]
      exact if_pos hlast
  | cons next rest ih =>
      obtain ⟨fuel, rfl⟩ : ∃ more, fuel = more + 1 := ⟨fuel - 1, by omega⟩
      have hnext : pointerNext memory p.place = next.place :=
        hlists.chain.2.2.1
      have hne : next.place ≠ 0 := hlists.chain.2.2.2.1
      have hp := hlists.sizes p (.head _)
      have hq := hlists.sizes next (.tail _ (.head _))
      simp only [List.map_cons, List.sum_cons] at hsum ih
      rw [mergeFrom, mergeNodes]
      simp only [hnext, hp, hq, if_neg hne]
      split
      · next hpair =>
          obtain ⟨merged, hmerge, hmerged, hframe⟩ :=
            @ih _ ⟨p.place, p.size + next.size⟩ fuel
              (hlists.mergeNext hspaced (by omega)) hspaced.skip
              (by rw [← Nat.add_assoc] at hsum; exact hsum)
              (Nat.lt_of_succ_lt_succ hfuel)
          refine ⟨merged, hmerge, hmerged, fun place hplace => ?_⟩
          rw [hframe place hplace]
          exact mergeNext_outside (hspaced.inside p.place (.head _))
            (.inl hplace)
      · obtain ⟨merged, hmerge, hmerged, hframe⟩ := ih
          (hnext ▸ hlists.tail) hspaced.tail (by omega)
          (Nat.lt_of_succ_lt_succ hfuel)
        have hinside := hspaced.inside p.place (.head _)
        have hapart := List.rel_of_pairwise_cons hspaced.apart (.head _)
        simp only [mpointerSize] at hinside hapart
        refine ⟨merged, hmerge, hmerged.cons hlists.chain.2.1 ?_ ?_,
          fun place hplace => hframe place (by omega)⟩
        · rw [← hnext]
          exact load64_congr (by omega)
            fun place hge hlt => hframe place (by omega)
        · rw [← hp]
          exact load64_congr (by omega)
            fun place hge hlt => hframe place (by omega)

theorem Lists.coalesced_iff (hlists : Lists memory start nodes) :
    Coalesced memory (nodes.map Node.place) ↔ NoFreePair nodes := by
  rw [Coalesced, List.isChain_map, NoFreePair]
  constructor
  · apply List.IsChain.imp_of_mem_imp
    intro p next hp hnext
    rw [hlists.sizes p hp, hlists.sizes next hnext]
    exact id
  · apply List.IsChain.imp_of_mem_imp
    intro p next hp hnext
    rw [hlists.sizes p hp, hlists.sizes next hnext]
    exact id

theorem Lists.filter_allocated (hlists : Lists memory start nodes) :
    (nodes.map Node.place).filter (fun p => pointerSize memory p = 0) =
      (nodes.filter fun node => node.size = 0).map Node.place := by
  rw [List.filter_map]
  refine congrArg _ (List.filter_congr fun node hnode => ?_)
  rw [Function.comp_apply, hlists.sizes node hnode]

/-- Every free pointer of the chain has the size of the bytes up to the next
one. -/
def FillsExtents (memory : Memory) (stop : Nat) (pointers : List Nat) : Prop :=
  ∀ p ∈ pointers, 0 < pointerSize memory p →
    p + mpointerSize + pointerSize memory p =
      if pointerNext memory p = 0 then stop else pointerNext memory p

theorem Lists.extent (hlists : Lists memory start (p :: rest)) :
    (if pointerNext memory p.place = 0 then stop
      else pointerNext memory p.place) = bound stop rest := by
  have hrest := hlists.chain.2.2
  cases rest with
  | nil => exact if_pos hrest
  | cons next rest =>
      obtain ⟨hnext, hne, -⟩ := hrest
      rw [hnext, if_neg hne]
      rfl

theorem Lists.fillsExtents_iff (hlists : Lists memory start nodes) :
    FillsExtents memory stop (nodes.map Node.place) ↔ Exact stop nodes := by
  induction nodes generalizing start with
  | nil => exact iff_of_true (fun p hp => by cases hp) trivial
  | cons p rest ih =>
      rw [FillsExtents, List.map_cons, List.forall_mem_cons, Exact,
        hlists.extent, hlists.sizes p (.head _)]
      exact and_congr_right fun _ => ih hlists.tail

end

/-! The whole call on the pointers of a header. -/

def Node.ofPlaced (pointer : Nat × Segment) : Node :=
  ⟨pointer.1, pointer.2.size⟩

def Header.nodes (header : Header) : List Node :=
  header.pointers.map Node.ofPlaced

/-- What `pointers_merge` leaves whatever the sizes are: the pointers `kept`. -/
structure Merged (memory : Memory) (header : Header) (merged : Memory)
    (kept : List Nat) : Prop where
  chain : Linked (pointerNext merged) header.start kept
  coalesced : Coalesced merged kept
  allocated : kept.filter (fun p => pointerSize merged p = 0) =
    (header.pointers.map Prod.fst).filter fun p => pointerSize memory p = 0
  again : pointersMerge merged header.start = .ok merged

/-- `pointers_merge` coalesces the pointers and loses no byte. -/
def MergesExactly (memory : Memory) (header : Header) : Prop :=
  Returns (pointersMerge memory header.start) fun merged =>
    ∃ kept, Merged memory header merged kept ∧
      FillsExtents merged (header.base + header.size) kept

section

variable {header : Header} {memory : Memory}

theorem bound_placed (p : Nat) (segments : List Segment) :
    bound (p + spans segments) ((placed p segments).map Node.ofPlaced) =
      p := by
  cases segments with
  | nil => rfl
  | cons segment rest => rfl

theorem exact_placed (p : Nat) (segments : List Segment) :
    Exact (p + spans segments) ((placed p segments).map Node.ofPlaced) := by
  induction segments generalizing p with
  | nil => trivial
  | cons segment rest ih =>
      have hstop : p + spans (segment :: rest) =
          p + mpointerSize + segment.length + spans rest := by
        rw [spans_cons]
        omega
      rw [hstop, placed, List.map_cons, Exact, bound_placed]
      refine ⟨fun hfree => ?_, ih _⟩
      simp only [Node.ofPlaced, Segment.size] at hfree ⊢
      split
      · rfl
      · next hallocated =>
          rw [if_neg hallocated] at hfree
          exact absurd hfree (Nat.lt_irrefl 0)

theorem sizes_placed_le (p : Nat) (segments : List Segment) :
    (((placed p segments).map Node.ofPlaced).map Node.size).sum ≤
      spans segments := by
  induction segments generalizing p with
  | nil => exact Nat.le_refl 0
  | cons segment rest ih =>
      have hrest := ih (p + mpointerSize + segment.length)
      have hsize := segment.size_le
      simp only [placed, List.map_cons, List.sum_cons, spans_cons,
        Node.ofPlaced]
      omega

theorem Header.nodes_places :
    header.nodes.map Node.place = header.pointers.map Prod.fst :=
  List.map_map

theorem Header.Chained.lists (hchained : header.Chained memory) :
    Lists memory header.start header.nodes where
  chain := nodes_places ▸ hchained.chain
  sizes := List.forall_mem_map.mpr hchained.sizes

theorem Header.nodes_exact :
    Exact (header.base + header.size) header.nodes := by
  rw [size, ← Nat.add_assoc]
  exact exact_placed _ _

theorem Header.Chained.nodes_eq (hchained : header.Chained memory) :
    ∃ size rest, header.nodes = ⟨header.start, size⟩ :: rest := by
  obtain ⟨places, hplaces⟩ := hchained.pointers_eq
  rw [← nodes_places, List.map_eq_cons_iff] at hplaces
  obtain ⟨⟨place, size⟩, rest, hnodes, hplace, -⟩ := hplaces
  obtain rfl : place = header.start := hplace
  exact ⟨size, rest, hnodes⟩

theorem Header.Chained.merge (hchained : header.Chained memory)
    (hinside : header.base + header.size ≤ wordSize) :
    ∃ merged kept, pointersMerge memory header.start = .ok merged ∧
      Merged memory header merged kept ∧
      (FillsExtents merged (header.base + header.size) kept ↔
        Coalesced memory (header.pointers.map Prod.fst)) := by
  obtain ⟨size, rest, hnodes⟩ := hchained.nodes_eq
  have hlists := hchained.lists
  have hexact := @Header.nodes_exact header
  have hspaced := Header.Chained.spaced hinside
  have hcount := pointers_length_lt hinside
  have hsum := sizes_placed_le header.start header.segments
  change (header.nodes.map Node.size).sum ≤ _ at hsum
  rw [hnodes] at hlists hexact hsum
  rw [← nodes_places, hnodes] at hspaced hcount ⊢
  rw [List.length_map, List.length_cons] at hcount
  obtain ⟨merged, hmerge, hmerged, -⟩ := mergeFrom_lists hlists hspaced
    (by simp only [Header.size, mheaderSize] at hinside; omega)
    (Nat.lt_of_succ_lt hcount)
  have hcoalesced := hmerged.coalesced_iff.mpr (mergeNodes_noFreePair _ _)
  refine ⟨merged, _, hmerge, ⟨hmerged.chain, hcoalesced, ?_, ?_⟩, ?_⟩
  · rw [← nodes_places, hnodes, hmerged.filter_allocated,
      mergeNodes_allocated, hlists.filter_allocated]
  · have hlength := mergeNodes_length_le ⟨header.start, size⟩ rest
    refine pointersMerge_coalesced hmerged.chain ?_ ?_ hcoalesced
    · exact List.map_eq_nil_iff.not.mpr (mergeNodes_ne_nil _ rest)
    · rw [List.length_map]
      exact Nat.lt_of_le_of_lt hlength hcount
  · rw [hmerged.fillsExtents_iff, exact_mergeNodes_iff hexact,
      hlists.coalesced_iff]

/-- The bytes of the absorbed pointers are lost. -/
theorem mergesExactly_iff (hchained : header.Chained memory)
    (hinside : header.base + header.size ≤ wordSize) :
    MergesExactly memory header ↔
      Coalesced memory (header.pointers.map Prod.fst) := by
  obtain ⟨merged, kept, hmerge, hmerged, hfills⟩ := hchained.merge hinside
  rw [MergesExactly, hmerge, returns_ok, ← hfills]
  constructor
  · rintro ⟨others, hothers, hexact⟩
    rwa [hmerged.chain.unique hothers.chain]
  · exact fun hexact => ⟨kept, hmerged, hexact⟩

end

def twoSegments (second : Segment) : Header where
  base := 0x10000
  segments := [.available 16 (by decide), second]

def twoPointers (second : Segment) : Memory :=
  store64
    (store64 (store64 (fun _ => 0) 0x10018 16) 0x10020 0x10038)
    0x10038 second.size

theorem twoSegments_pointers (second : Segment) :
    (twoSegments second).pointers =
      [(0x10018, .available 16 (by decide)), (0x10038, second)] := rfl

section

variable {second : Segment}

theorem twoPointers_chained (hsize : second.size < wordSize) :
    (twoSegments second).Chained (twoPointers second) := by
  have hfirst : pointerSize (twoPointers second) 0x10018 = 16 :=
    (load64_store64_of_ne _ (by decide) (by decide) (by decide)).trans
      (by decide)
  have hnext : pointerNext (twoPointers second) 0x10018 = 0x10038 :=
    (load64_store64_of_ne _ (by decide) (by decide) (by decide)).trans
      (load64_store64 (by decide) (by decide))
  have hlast : pointerNext (twoPointers second) 0x10038 = 0 :=
    (load64_store64_of_ne _ (by decide) (by decide) (by decide)).trans
      (by decide)
  have hsecond : pointerSize (twoPointers second) 0x10038 = second.size :=
    load64_store64 (by decide) hsize
  constructor
  · rw [twoSegments_pointers]
    exact ⟨rfl, (by decide : 0x10018 ≠ 0), hnext,
      (by decide : 0x10038 ≠ 0), hlast⟩
  · rw [twoSegments_pointers, List.forall_mem_cons, List.forall_mem_singleton]
    exact ⟨hfirst, hsecond⟩

theorem twoPointers_coalesced_iff (hsize : second.size < wordSize) :
    Coalesced (twoPointers second)
        ((twoSegments second).pointers.map Prod.fst) ↔ second.size = 0 := by
  have hchained := twoPointers_chained hsize
  rw [← Header.nodes_places, hchained.lists.coalesced_iff, Header.nodes,
    twoSegments_pointers]
  simp [NoFreePair, Node.ofPlaced]

end

/-- Behind the free bytes lies an allocated segment. -/
theorem mergesExactly_allocated :
    MergesExactly (twoPointers (.allocated 24))
      (twoSegments (.allocated 24)) := by
  have hsize : (Segment.allocated 24).size < wordSize := by decide
  have hinside : (twoSegments (.allocated 24)).base +
      (twoSegments (.allocated 24)).size ≤ wordSize := by decide
  rw [mergesExactly_iff (twoPointers_chained hsize) hinside,
    twoPointers_coalesced_iff hsize]
  rfl

/-- Two free neighbours of sixteen and twenty-four bytes. -/
theorem not_mergesExactly_free :
    (twoSegments (.available 24 (by decide))).Chained
        (twoPointers (.available 24 (by decide))) ∧
      ¬ MergesExactly (twoPointers (.available 24 (by decide)))
        (twoSegments (.available 24 (by decide))) := by
  have hsize : (Segment.available 24 (by decide)).size < wordSize := by decide
  have hchained := twoPointers_chained hsize
  refine ⟨hchained, ?_⟩
  obtain ⟨merged, kept, hmerge, hmerged, hfills⟩ :=
    hchained.merge (by decide)
  rw [MergesExactly, hmerge, returns_ok]
  rintro ⟨others, hothers, hexact⟩
  rw [hothers.chain.unique hmerged.chain, hfills,
    twoPointers_coalesced_iff hsize] at hexact
  cases hexact

end Synos.Mm

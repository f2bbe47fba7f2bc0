import Synos.Mm.Tiling
import Mathlib.Data.List.Chain

namespace Synos.Mm

open Synos.Data

/-! `pointers_merge` on a chain of pointers that lie behind each other: it changes
nothing exactly when no two neighbours are free. -/

/-- The pointers lie behind each other, without overlap. -/
structure Spaced (nodes : List Nat) : Prop where
  apart : nodes.Pairwise (fun p other => p + mpointerSize ≤ other)
  inside : ∀ p ∈ nodes, p + mpointerSize ≤ wordSize

/-- No two neighbours have a size. -/
def Coalesced (memory : Memory) (nodes : List Nat) : Prop :=
  nodes.IsChain (fun p next =>
    ¬ (0 < pointerSize memory p ∧ 0 < pointerSize memory next))

section

variable {memory merged : Memory} {p next fuel : Nat} {rest nodes : List Nat}

theorem Coalesced.congr {other : Memory} (hcoalesced : Coalesced memory nodes)
    (hsame : ∀ node ∈ nodes, pointerSize other node = pointerSize memory node) :
    Coalesced other nodes := by
  refine List.IsChain.imp_of_mem_imp ?_ hcoalesced
  intro p next hp hnext hpair
  rw [hsame p hp, hsame next hnext]
  exact hpair

theorem Spaced.tail (hspaced : Spaced (p :: rest)) : Spaced rest :=
  ⟨hspaced.apart.tail, fun other hother => hspaced.inside other (.tail _ hother)⟩

theorem Spaced.skip (hspaced : Spaced (p :: next :: rest)) :
    Spaced (p :: rest) := by
  obtain ⟨hapart, hinside⟩ := hspaced
  rw [List.pairwise_cons, List.pairwise_cons] at hapart
  refine ⟨?_, ?_⟩
  · rw [List.pairwise_cons]
    exact ⟨fun other hother => hapart.1 other (.tail _ hother), hapart.2.2⟩
  · intro other hother
    refine hinside other ?_
    rw [List.mem_cons] at hother ⊢
    exact hother.imp_right (List.mem_cons_of_mem _)

theorem Spaced.disjoint {node : Nat} (hspaced : Spaced nodes)
    (hp : p ∈ nodes) (hnode : node ∈ nodes) :
    node = p ∨ p + mpointerSize ≤ node ∨ node + mpointerSize ≤ p := by
  obtain ⟨before, after, rfl⟩ := List.append_of_mem hp
  obtain ⟨-, hpast, hfront⟩ := List.pairwise_append.mp hspaced.apart
  rw [List.mem_append, List.mem_cons] at hnode
  rcases hnode with hnode | rfl | hnode
  · exact .inr (.inr (hfront node hnode p (.head _)))
  · exact .inl rfl
  · exact .inr (.inl (List.rel_of_pairwise_cons hpast hnode))

theorem Spaced.next_le {start node : Nat} (hspaced : Spaced nodes)
    (hlinked : Linked (pointerNext memory) start nodes) (hp : p ∈ nodes)
    (hnode : node ∈ nodes) (hbehind : p < node) :
    p + mpointerSize ≤ pointerNext memory p ∧ pointerNext memory p ≤ node := by
  obtain ⟨before, after, rfl⟩ := List.append_of_mem hp
  have hrest := hlinked.of_append.2
  obtain ⟨-, hpast, hfront⟩ := List.pairwise_append.mp hspaced.apart
  have hafter : node ∈ after := by
    rw [List.mem_append, List.mem_cons] at hnode
    rcases hnode with hnode | rfl | hnode
    · have hless := hfront node hnode p (.head _)
      simp only [mpointerSize] at hless
      omega
    · omega
    · exact hnode
  cases after with
  | nil => cases hafter
  | cons next after =>
      have hnext : pointerNext memory p = next := hrest.1
      have hclose := List.rel_of_pairwise_cons hpast (.head _)
      have htail := (List.pairwise_cons.mp hpast).2
      rw [hnext]
      refine ⟨hclose, ?_⟩
      rw [List.mem_cons] at hafter
      rcases hafter with rfl | hafter
      · exact Nat.le_refl _
      · have hless := List.rel_of_pairwise_cons htail hafter
        omega

theorem mergeNext_outside (hinside : p + mpointerSize ≤ wordSize) {place : Nat}
    (houtside : place < p ∨ p + mpointerSize ≤ place) :
    mergeNext memory p place = memory place := by
  simp only [mpointerSize] at *
  simp only [mergeNext, store64]
  rw [storeBytes_outside _ (by omega) (by omega),
    storeBytes_outside _ (by omega) (by omega)]

theorem mergeNext_next (hspaced : Spaced (p :: next :: rest))
    (hnext : pointerNext memory p = next) :
    pointerNext (mergeNext memory p) p = pointerNext memory next := by
  have hfirst := hspaced.inside p (.head _)
  have hsecond := hspaced.inside next (.tail _ (.head _))
  have hapart := List.rel_of_pairwise_cons hspaced.apart (.head _)
  simp only [mpointerSize, pointerNext] at *
  have hgrown : ∀ value,
      load64 (store64 memory p value) (p + 8) = next := fun value =>
    (load64_store64_of_ne _ (by omega) (by omega) (by omega)).trans hnext
  simp only [mergeNext, pointerNext, hgrown]
  rw [load64_store64 (by omega) (load64_lt _ _),
    load64_store64_of_ne _ (by omega) (by omega) (by omega)]

theorem mergeNext_linked (hspaced : Spaced (p :: next :: rest))
    (hlinked : Linked (pointerNext memory) p (p :: next :: rest)) :
    Linked (pointerNext (mergeNext memory p)) p (p :: rest) := by
  obtain ⟨-, hne, hnext, -, hrest⟩ := hlinked
  refine ⟨rfl, hne, ?_⟩
  rw [mergeNext_next hspaced hnext]
  refine hrest.congr ?_
  intro other hother
  have hfirst := hspaced.inside p (.head _)
  have hinside := hspaced.inside other (.tail _ (.tail _ hother))
  have hapart := List.rel_of_pairwise_cons hspaced.apart
    (List.mem_cons_of_mem next hother)
  simp only [mpointerSize] at hapart hinside
  refine load64_congr (by omega) ?_
  intro place hge hlt
  refine mergeNext_outside hfirst (.inr ?_)
  simp only [mpointerSize]
  omega

theorem mergeFrom_coalesced
    (hlinked : Linked (pointerNext memory) p (p :: rest))
    (hfuel : rest.length < fuel) (hcoalesced : Coalesced memory (p :: rest)) :
    mergeFrom fuel memory p = .ok memory := by
  induction rest generalizing p fuel with
  | nil =>
      obtain ⟨fuel, rfl⟩ : ∃ rest, fuel = rest + 1 := ⟨fuel - 1, by omega⟩
      have hlast : pointerNext memory p = 0 := hlinked.2.2
      rw [mergeFrom]
      exact if_pos hlast
  | cons next rest ih =>
      obtain ⟨fuel, rfl⟩ : ∃ rest, fuel = rest + 1 := ⟨fuel - 1, by omega⟩
      obtain ⟨-, -, hnext, hne, hrest⟩ := hlinked
      obtain ⟨hpair, htail⟩ := List.isChain_cons_cons.mp hcoalesced
      rw [mergeFrom]
      simp only [hnext]
      rw [if_neg hne, if_neg hpair]
      exact ih ⟨rfl, hne, hrest⟩ (by simpa using hfuel) htail

theorem pointersMerge_coalesced {start : Nat}
    (hlinked : Linked (pointerNext memory) start nodes) (hnodes : nodes ≠ [])
    (hcount : nodes.length < wordSize) (hcoalesced : Coalesced memory nodes) :
    pointersMerge memory start = .ok memory := by
  cases nodes with
  | nil => exact absurd rfl hnodes
  | cons p rest =>
      obtain rfl : start = p := hlinked.1
      exact mergeFrom_coalesced hlinked (Nat.lt_of_succ_lt hcount) hcoalesced

/-- From `p` on only `p` and what is behind it is written, and the next pointer
of `p` becomes one of those behind it. -/
theorem mergeFrom_next (hspaced : Spaced (p :: rest))
    (hlinked : Linked (pointerNext memory) p (p :: rest))
    (hcall : mergeFrom fuel memory p = .ok merged) :
    (∀ place < p, merged place = memory place) ∧
      (pointerNext merged p = 0 ∨ pointerNext merged p ∈ rest) := by
  induction rest generalizing p fuel memory with
  | nil =>
      have hlast : pointerNext memory p = 0 := hlinked.2.2
      cases fuel with
      | zero => cases hcall
      | succ fuel =>
          rw [mergeFrom] at hcall
          simp only [hlast, if_true] at hcall
          cases hcall
          exact ⟨fun _ _ => rfl, .inl hlast⟩
  | cons next rest ih =>
      have hinside := hspaced.inside p (.head _)
      have hapart := List.rel_of_pairwise_cons hspaced.apart (.head _)
      obtain ⟨-, hp, hnext, hne, hrest⟩ := hlinked
      cases fuel with
      | zero => cases hcall
      | succ fuel =>
          rw [mergeFrom] at hcall
          simp only [hnext, if_neg hne] at hcall
          split at hcall
          · obtain ⟨hframe, hbehind⟩ := ih hspaced.skip
              (mergeNext_linked hspaced ⟨rfl, hp, hnext, hne, hrest⟩) hcall
            refine ⟨?_, hbehind.imp_right (List.mem_cons_of_mem _)⟩
            intro place hplace
            exact (hframe place hplace).trans
              (mergeNext_outside hinside (.inl hplace))
          · obtain ⟨hframe, -⟩ := ih hspaced.tail ⟨rfl, hne, hrest⟩ hcall
            simp only [mpointerSize] at hapart hinside
            refine ⟨fun place hplace => hframe place (by omega), .inr ?_⟩
            have hsame : pointerNext merged p = pointerNext memory p :=
              load64_congr (by omega)
                (fun place hge hlt => hframe place (by omega))
            rw [hsame, hnext]
            exact .head _

theorem mergeFrom_changes (hspaced : Spaced (p :: rest))
    (hlinked : Linked (pointerNext memory) p (p :: rest))
    (hfree : ¬ Coalesced memory (p :: rest))
    (hcall : mergeFrom fuel memory p = .ok merged) :
    ∃ node ∈ p :: rest, pointerNext merged node ≠ pointerNext memory node := by
  induction rest generalizing p fuel with
  | nil => exact absurd (List.isChain_singleton _) hfree
  | cons next rest ih =>
      obtain ⟨-, hp, hnext, hne, hrest⟩ := hlinked
      cases fuel with
      | zero => cases hcall
      | succ fuel =>
          rw [mergeFrom] at hcall
          simp only [hnext, if_neg hne] at hcall
          split at hcall
          · obtain ⟨-, hbehind⟩ := mergeFrom_next hspaced.skip
              (mergeNext_linked hspaced ⟨rfl, hp, hnext, hne, hrest⟩) hcall
            refine ⟨p, .head _, ?_⟩
            rw [hnext]
            intro hsame
            rw [hsame] at hbehind
            rcases hbehind with hnull | hbehind
            · exact hne hnull
            · have hself := List.rel_of_pairwise_cons hspaced.tail.apart hbehind
              simp [mpointerSize] at hself
          · rename_i hpair
            have htail : ¬ Coalesced memory (next :: rest) :=
              fun htail => hfree (List.isChain_cons_cons.mpr ⟨hpair, htail⟩)
            obtain ⟨node, hnode, hchanged⟩ :=
              ih hspaced.tail ⟨rfl, hne, hrest⟩ htail hcall
            exact ⟨node, .tail _ hnode, hchanged⟩

end

end Synos.Mm

import Synos.Page.Cursor
import Synos.Page.Ledger
import Synos.Page.Protect

namespace Synos.Page

open Synos.Data

/-! What keeps the blocks that a region hands out inside it. -/

/-- The block ends within the first `pages` pages. -/
def InPages (pages order index : Nat) : Prop :=
  (index + 1) * 2 ^ order ≤ pages

section

variable {pages order index : Nat}

theorem InPages.room (hinside : InPages pages order index) :
    2 ^ order ≤ pages := by
  have hle := Nat.mul_le_mul_right (2 ^ order) (Nat.succ_pos index)
  rw [Nat.one_mul] at hle
  exact hle.trans hinside

theorem inPages_zero (hroom : 2 ^ order ≤ pages) : InPages pages order 0 := by
  rwa [InPages, Nat.zero_add, Nat.one_mul]

theorem inPages_of_lt (hlt : index < pages / 2 ^ order) :
    InPages pages order index :=
  (Nat.le_div_iff_mul_le (Nat.two_pow_pos order)).mp hlt

theorem InPages.left (hinside : InPages pages order index)
    (hzero : 0 < order) : InPages pages (order - 1) (index * 2) := by
  obtain ⟨low, rfl⟩ := Nat.exists_eq_succ_of_ne_zero hzero.ne'
  rw [InPages, Nat.pow_succ'] at hinside
  rw [InPages, Nat.succ_sub_one]
  calc (index * 2 + 1) * 2 ^ low ≤ (index * 2 + 1 + 1) * 2 ^ low :=
        Nat.mul_le_mul_right _ (Nat.le_succ _)
    _ = (index + 1) * (2 * 2 ^ low) := by ring
    _ ≤ pages := hinside

end

namespace BpaMap

/-- Hints lie inside, and no block is counted of an order that has no room. -/
structure Bounded (map : BpaMap) : Prop where
  hint : ∀ order < maxOrder, 2 ^ order ≤ map.pages →
    InPages map.pages order (map.nextFreePage order)
  count : ∀ order < maxOrder, 0 < map.pagesFree order → 2 ^ order ≤ map.pages

variable {map : BpaMap} {order offset : Nat}

theorem Bounded.blockSet (hmap : map.Bounded) (order offset : Nat) :
    (map.blockSet order offset).Bounded :=
  ⟨hmap.hint, hmap.count⟩

theorem Bounded.blockClear (hmap : map.Bounded) (order offset : Nat) :
    (map.blockClear order offset).Bounded :=
  ⟨hmap.hint, hmap.count⟩

theorem Bounded.setPagesFree (hmap : map.Bounded) {value : Nat}
    (hroom : 0 < value → 2 ^ order ≤ map.pages) :
    (map.setPagesFree order value).Bounded where
  hint := hmap.hint
  count other hother hpos := by
    rw [setPagesFree_pagesFree] at hpos
    by_cases hself : other = order
    · subst hself
      rw [Function.update_self] at hpos
      exact hroom hpos
    · rw [Function.update_of_ne hself] at hpos
      exact hmap.count other hother hpos

theorem Bounded.setNextFreePage (hmap : map.Bounded) {value : Nat}
    (hinside : 2 ^ order ≤ map.pages → InPages map.pages order value) :
    (map.setNextFreePage order value).Bounded where
  hint other hother hroom := by
    rw [setNextFreePage_nextFreePage]
    by_cases hself : other = order
    · subst hself
      rw [Function.update_self]
      exact hinside hroom
    · rw [Function.update_of_ne hself]
      exact hmap.hint other hother hroom
  count := hmap.count

theorem Bounded.searchNextFreePage (hmap : map.Bounded) (order start : Nat) :
    (searchNextFreePage map order start).Bounded := by
  cases hsearch : firstClear? (map.freeArea order) start
      (freeAreaLength map.pages order) with
  | none =>
      rw [searchNextFreePage_of_none hsearch]
      refine (hmap.setPagesFree ?_).setNextFreePage inPages_zero
      intro hpos
      cases hpos
  | some found =>
      rw [searchNextFreePage_of_some hsearch]
      refine hmap.setNextFreePage fun _ => inPages_of_lt ?_
      rw [← freeAreaLength_eq]
      exact (firstClear?_eq_some hsearch).2.1

theorem Bounded.dropNextFreePage (hmap : map.Bounded)
    (hroom : 2 ^ order ≤ map.pages) : (dropNextFreePage map order).Bounded := by
  unfold Page.dropNextFreePage
  have hroom' : ∀ other : BpaMap, other.pages = map.pages →
      ∀ value, 0 < value → 2 ^ order ≤ other.pages := by
    intro other hpages _ _
    rw [hpages]
    exact hroom
  split
  · exact (hmap.searchNextFreePage order _).setPagesFree
      (hroom' _ (searchNextFreePage_pages _ _ _) _)
  · exact (hmap.setNextFreePage inPages_zero).setPagesFree (hroom' _ rfl _)

theorem Bounded.splitNextFree (hmap : map.Bounded) (hzero : 0 < order)
    (horder : order < maxOrder) (hpos : 0 < map.pagesFree order) :
    (splitNextFree map order).Bounded := by
  have hroom := hmap.count order horder hpos
  have hleft := (hmap.hint order horder hroom).left hzero
  have hhalves := ((hmap.blockSet order (map.nextFreePage order)).blockClear
    (order - 1) (map.nextFreePage order * 2)).blockClear
      (order - 1) (map.nextFreePage order * 2 + 1)
  unfold Page.splitNextFree
  simp only
  split
  · exact ((hhalves.setNextFreePage fun _ => hleft).setPagesFree
      fun _ => hleft.room).dropNextFreePage hroom
  · exact (hhalves.setPagesFree fun _ => hleft.room).dropNextFreePage hroom

end BpaMap

/-! Regions. -/

/-- The same range of memory with the same attributes. -/
structure Region.Same {Map Other : Type} (after : Region Map)
    (before : Region Other) : Prop where
  start_eq : after.start = before.start
  size_eq : after.size = before.size
  attrib_eq : after.attrib = before.attrib

structure Region.Bounded (region : Region) : Prop where
  map : region.map.Bounded
  fits : region.map.pages * pageSize ≤ region.size
  space : region.start + region.size < wordSize

/-- The region has room for a block of the order at the address. -/
def Region.Has {Map : Type} (region : Region Map) (address order : Nat) : Prop :=
  region.start ≤ address ∧
    address + blockOrderSize order ≤ region.start + region.size

section

variable {Map Other Last : Type} {after : Region Map} {middle : Region Other}
  {before : Region Last}

theorem Region.Same.refl (region : Region Map) : region.Same region :=
  ⟨rfl, rfl, rfl⟩

theorem Region.Same.trans (hlast : after.Same middle)
    (hfirst : middle.Same before) : after.Same before :=
  ⟨hlast.start_eq.trans hfirst.start_eq, hlast.size_eq.trans hfirst.size_eq,
    hlast.attrib_eq.trans hfirst.attrib_eq⟩

theorem Region.Same.accepted_iff (hsame : after.Same before) :
    after.Accepted ↔ before.Accepted := by
  rw [Region.Accepted, Region.Accepted, hsame.size_eq, hsame.attrib_eq]

theorem Region.Same.has_iff (hsame : after.Same before) {address order : Nat} :
    after.Has address order ↔ before.Has address order := by
  rw [Region.Has, Region.Has, hsame.start_eq, hsame.size_eq]

end

section

variable {region after before : Region} {order offset address pages : Nat}

theorem Region.Bounded.has (hregion : region.Bounded)
    (hinside : InPages region.map.pages order offset) :
    region.Has (word (blockOrderSize order * offset + region.start)) order := by
  have hfits := hregion.fits
  have hspace := hregion.space
  have hbytes := Nat.mul_le_mul_right pageSize hinside
  have hsplit : (offset + 1) * 2 ^ order * pageSize =
      blockOrderSize order * offset + blockOrderSize order := by
    rw [blockOrderSize]
    ring
  have hword : blockOrderSize order * offset + region.start < wordSize := by
    omega
  rw [Region.Has, word_of_lt hword]
  omega

theorem blockSplit_same (region : Region) (order : Nat) :
    (blockSplit region order).Same region := by
  fun_induction blockSplit region order with
  | case1 => exact .refl _
  | case2 => exact ⟨rfl, rfl, rfl⟩
  | case3 => exact ⟨rfl, rfl, rfl⟩
  | case4 _ _ _ _ _ _ ih => exact ⟨ih.start_eq, ih.size_eq, ih.attrib_eq⟩
  | case5 _ _ _ _ _ _ ih => exact ⟨ih.start_eq, ih.size_eq, ih.attrib_eq⟩

theorem Region.Bounded.blockSplit (hregion : region.Bounded)
    (order : Nat) :
    (blockSplit region order).Bounded := by
  fun_induction Page.blockSplit region order with
  | case1 => exact hregion
  | case2 order hlow hpos =>
      refine ⟨hregion.map.splitNextFree (by omega) (by omega) hpos, ?_,
        hregion.space⟩
      rw [splitNextFree_pages]
      exact hregion.fits
  | case3 => exact ⟨hregion.map, hregion.fits, hregion.space⟩
  | case4 _ _ _ _ _ _ ih => exact ⟨ih.map, ih.fits, ih.space⟩
  | case5 order hlow _ _ _ hnone ih =>
      refine ⟨ih.map.splitNextFree (by omega) (by omega)
        (Nat.pos_of_ne_zero hnone), ?_, ih.space⟩
      rw [splitNextFree_pages]
      exact ih.fits

theorem allocNextFree_same (region : Region) (order : Nat) :
    (allocNextFree region order).2.Same region := by
  rw [allocNextFree_eq]
  exact ⟨rfl, rfl, rfl⟩

theorem Region.Bounded.allocNextFree (hregion : region.Bounded)
    (horder : order < maxOrder) (hpos : 0 < region.map.pagesFree order) :
    (allocNextFree region order).2.Bounded ∧
      region.Has (allocNextFree region order).1 order := by
  have hroom := hregion.map.count order horder hpos
  have hmap := (hregion.map.blockSet order
    (region.map.nextFreePage order)).dropNextFreePage hroom
  have hhas := hregion.has (hregion.map.hint order horder hroom)
  rw [allocNextFree_eq]
  refine ⟨⟨?_, ?_, hregion.space⟩, hhas⟩
  · simp only [Region.afterAlloc, allocNextFree_map]
    exact hmap
  · simp only [Region.afterAlloc, allocNextFree_map, dropNextFreePage_pages]
    exact hregion.fits

theorem pagesAlloc_same
    (hcall : pagesAlloc region order = .ok (address, after)) :
    after.Same region := by
  cases hlock : region.lock with
  | true =>
      simp only [pagesAlloc, spinlockLock, hlock, if_true] at hcall
      split at hcall
      · cases hcall
        exact .refl _
      · cases hcall
  | false =>
      simp only [pagesAlloc, spinlockLock, hlock, Bool.false_eq_true,
        if_false] at hcall
      have hsplit := blockSplit_same { region with lock := true } (order + 1)
      split_ifs at hcall <;> cases hcall
      · exact .refl _
      · exact (allocNextFree_same _ _).trans ⟨rfl, rfl, rfl⟩
      · exact ⟨rfl, rfl, rfl⟩
      · exact ⟨hsplit.start_eq, hsplit.size_eq, hsplit.attrib_eq⟩
      · exact (allocNextFree_same _ _).trans
          ⟨hsplit.start_eq, hsplit.size_eq, hsplit.attrib_eq⟩

theorem Region.Bounded.pagesAlloc (hregion : region.Bounded)
    (hcall : pagesAlloc region order = .ok (address, after)) :
    after.Bounded ∧ (address ≠ 0 → region.Has address order) := by
  have hlocked : Region.Bounded { region with lock := true } :=
    ⟨hregion.map, hregion.fits, hregion.space⟩
  have hopened := hlocked.blockSplit (order + 1)
  have hsplit := blockSplit_same { region with lock := true } (order + 1)
  cases hlock : region.lock with
  | true =>
      simp only [Page.pagesAlloc, spinlockLock, hlock, if_true] at hcall
      split at hcall
      · cases hcall
        exact ⟨hregion, fun hne => (hne rfl).elim⟩
      · cases hcall
  | false =>
      simp only [Page.pagesAlloc, spinlockLock, hlock, Bool.false_eq_true,
        if_false] at hcall
      split_ifs at hcall with htop hpos _ hnone <;> cases hcall
      · exact ⟨hregion, fun hne => (hne rfl).elim⟩
      · exact (hlocked.allocNextFree (Nat.lt_of_not_le htop) hpos).imp_right
          fun hhas _ => hhas
      · exact ⟨⟨hregion.map, hregion.fits, hregion.space⟩,
          fun hne => (hne rfl).elim⟩
      · exact ⟨⟨hopened.map, hopened.fits, hopened.space⟩,
          fun hne => (hne rfl).elim⟩
      · have hnext := hopened.allocNextFree (Nat.lt_of_not_le htop)
          (Nat.pos_of_ne_zero hnone)
        refine ⟨hnext.1, fun _ => ?_⟩
        have hhas := hsplit.has_iff.mp hnext.2
        exact hhas

theorem pagesFree_same (hcall : pagesFree region address order = .ok after) :
    after.Same region := by
  cases hlock : region.lock with
  | true =>
      simp only [pagesFree, spinlockLock, hlock, if_true] at hcall
      cases hcall
  | false =>
      by_cases hset : region.Contains address ∧
          region.map.freeArea order (region.offsetOf address) = true
      · rw [pagesFree_of_set hlock hset.1 hset.2] at hcall
        cases hcall
        exact ⟨rfl, rfl, rfl⟩
      · rw [pagesFree_of_not_set hlock hset] at hcall
        cases hcall
        exact ⟨rfl, rfl, rfl⟩

end

end Synos.Page

import Synos.Stored.Represent

namespace Synos.Stored

open Synos.Data
open Synos.Page

/-! The functions on the bytes do what those on the ten bitmaps do, as long as no
bit outside the region is clear and no hint points out of it. -/

/-- Clear bits, hints and counts are of blocks of the region. -/
structure Padded (pages : Nat) (map : BpaMap) : Prop where
  pages_lt : pages < wordSize
  clear_lt : ∀ order < maxOrder, ∀ offset,
    map.freeArea order offset = false → offset < pages / 2 ^ order
  hint_lt : ∀ order < maxOrder,
    map.nextFreePage order = 0 ∨ map.nextFreePage order < pages / 2 ^ order
  count_zero : ∀ order < maxOrder,
    pages / 2 ^ order = 0 → map.pagesFree order = 0

/-- The bytes stand for a map without clear bits outside the region. -/
structure Place.Keeps (place : Place) (origin : Memory) (stored : StoredMap)
    (map : BpaMap) : Prop extends place.Holds origin stored map where
  padded : Padded place.pages map

section

variable {place : Place} {origin : Memory} {stored : StoredMap} {map : BpaMap}
  {pages order offset : Nat}

theorem Padded.blocks_pos (hpadded : Padded pages map) (horder : order < maxOrder)
    (hcount : 0 < map.pagesFree order) : 0 < pages / 2 ^ order := by
  by_contra hzero
  have := hpadded.count_zero order horder (Nat.eq_zero_of_not_pos hzero)
  omega

theorem Padded.hint_lt_of_count (hpadded : Padded pages map)
    (horder : order < maxOrder) (hcount : 0 < map.pagesFree order) :
    map.nextFreePage order < pages / 2 ^ order := by
  have hpos := hpadded.blocks_pos horder hcount
  have := hpadded.hint_lt order horder
  omega

theorem inArea_of_lt (horder : order < maxOrder) (hlt : offset < pages / 2 ^ order) :
    InArea pages order offset :=
  ⟨horder, offset, hlt, .inl rfl⟩

theorem Place.Keeps.moved (hkeeps : place.Keeps origin stored map)
    {memory : Memory}
    (hsame : ∀ address, place.Owns address →
      memory address = stored.memory address) :
    place.Keeps memory ⟨memory, stored.address⟩ map :=
  ⟨hkeeps.toHolds.moved hsame, hkeeps.padded⟩

theorem Place.Keeps.setPagesFree (hkeeps : place.Keeps origin stored map)
    (horder : order < maxOrder) {value : Nat} (hvalue : value < wordSize)
    (hzero : place.pages / 2 ^ order = 0 → value = 0) :
    place.Keeps origin (stored.setPagesFree order value)
      (map.setPagesFree order value) := by
  refine ⟨hkeeps.toHolds.setPagesFree horder hvalue, hkeeps.padded.pages_lt,
    hkeeps.padded.clear_lt, hkeeps.padded.hint_lt, ?_⟩
  intro other hother hlength
  rw [setPagesFree_pagesFree]
  by_cases hself : other = order
  · subst hself
    rw [Function.update_self]
    exact hzero hlength
  · rw [Function.update_of_ne hself]
    exact hkeeps.padded.count_zero other hother hlength

theorem Place.Keeps.setNextFreePage (hkeeps : place.Keeps origin stored map)
    (horder : order < maxOrder) {value : Nat}
    (hvalue : value = 0 ∨ value < place.pages / 2 ^ order) :
    place.Keeps origin (stored.setNextFreePage order value)
      (map.setNextFreePage order value) := by
  have hlt : value < wordSize := by
    have hpages := hkeeps.padded.pages_lt
    have := Nat.div_le_self place.pages (2 ^ order)
    omega
  refine ⟨hkeeps.toHolds.setNextFreePage horder hlt, hkeeps.padded.pages_lt,
    hkeeps.padded.clear_lt, ?_, hkeeps.padded.count_zero⟩
  intro other hother
  rw [setNextFreePage_nextFreePage]
  by_cases hself : other = order
  · subst hself
    rw [Function.update_self]
    exact hvalue
  · rw [Function.update_of_ne hself]
    exact hkeeps.padded.hint_lt other hother

theorem Place.Keeps.blockSet (hkeeps : place.Keeps origin stored map)
    (harea : InArea place.pages order offset) :
    place.Keeps origin (stored.blockSet order offset)
      (map.blockSet order offset) := by
  refine ⟨hkeeps.toHolds.blockSet harea, hkeeps.padded.pages_lt, ?_,
    hkeeps.padded.hint_lt, hkeeps.padded.count_zero⟩
  intro other hother place hclear
  have hwrite := writeBlock_freeArea map order offset true ⟨other, place⟩
  simp only at hwrite
  rw [hwrite] at hclear
  split at hclear
  · cases hclear
  · exact hkeeps.padded.clear_lt other hother place hclear

theorem Place.Keeps.blockClear (hkeeps : place.Keeps origin stored map)
    (horder : order < maxOrder) (hlt : offset < place.pages / 2 ^ order) :
    place.Keeps origin (stored.blockClear order offset)
      (map.blockClear order offset) := by
  refine ⟨hkeeps.toHolds.blockClear (inArea_of_lt horder hlt),
    hkeeps.padded.pages_lt, ?_, hkeeps.padded.hint_lt,
    hkeeps.padded.count_zero⟩
  intro other hother place hclear
  have hwrite := writeBlock_freeArea map order offset false ⟨other, place⟩
  simp only at hwrite
  rw [hwrite] at hclear
  split at hclear
  · next heq =>
      cases heq
      exact hlt
  · exact hkeeps.padded.clear_lt other hother place hclear

theorem Place.Keeps.ite {p q : Prop} [Decidable p] [Decidable q]
    (hiff : p ↔ q) {first second : StoredMap} {one two : BpaMap}
    (hthen : q → place.Keeps origin first one)
    (helse : ¬ q → place.Keeps origin second two) :
    place.Keeps origin (if p then first else second)
      (if q then one else two) := by
  by_cases hq : q
  · rw [if_pos (hiff.mpr hq), if_pos hq]
    exact hthen hq
  · rw [if_neg (mt hiff.mp hq), if_neg hq]
    exact helse hq

/-! Searching for the next free block. -/

theorem Place.Keeps.searchNextFreePage (hkeeps : place.Keeps origin stored map)
    (horder : order < maxOrder) (start : Nat) :
    place.Keeps origin (searchNextFreePage stored order start)
      (Page.searchNextFreePage map order start) := by
  have hsearch : firstClear? (stored.blockCheck order) start
      (freeAreaLength stored.pages order) =
        firstClear? (map.blockCheck order) start
          (freeAreaLength map.pages order) := by
    rw [hkeeps.pages_eq, hkeeps.map_pages]
    refine firstClear?_congr fun slot hslot => ?_
    rw [freeAreaLength_eq] at hslot
    exact hkeeps.check_eq order slot (inArea_of_lt horder hslot)
  unfold Stored.searchNextFreePage Stored.findNextFreePage
    Page.searchNextFreePage Page.findNextFreePage
  rw [hsearch]
  cases hfound : firstClear? (map.blockCheck order) start
      (freeAreaLength map.pages order) with
  | none =>
      exact (hkeeps.setPagesFree horder (by decide) fun _ => rfl).setNextFreePage
        horder (.inl rfl)
  | some offset =>
      have hlt := (firstClear?_eq_some hfound).2.1
      rw [freeAreaLength_eq, hkeeps.map_pages] at hlt
      exact hkeeps.setNextFreePage horder (.inr hlt)

theorem Place.Keeps.dropNextFreePage (hkeeps : place.Keeps origin stored map)
    (horder : order < maxOrder) (hblocks : 0 < place.pages / 2 ^ order) :
    place.Keeps origin (dropNextFreePage stored order)
      (Page.dropNextFreePage map order) := by
  have hmoved : place.Keeps origin
      (if stored.pagesFree order ≠ 1 then
        Stored.searchNextFreePage stored order (stored.nextFreePage order + 1)
      else stored.setNextFreePage order 0)
      (if map.pagesFree order ≠ 1 then
        Page.searchNextFreePage map order (map.nextFreePage order + 1)
      else map.setNextFreePage order 0) := by
    rw [hkeeps.hint_eq order horder]
    refine .ite (by rw [hkeeps.count_eq order horder]) ?_ ?_
    · exact fun _ => hkeeps.searchNextFreePage horder _
    · exact fun _ => hkeeps.setNextFreePage horder (.inl rfl)
  unfold Stored.dropNextFreePage Page.dropNextFreePage
  simp only
  rw [hmoved.count_eq order horder]
  exact hmoved.setPagesFree horder (word_lt _) fun hzero => by omega

end

end Synos.Stored

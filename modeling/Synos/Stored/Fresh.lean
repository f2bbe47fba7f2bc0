import Synos.Stored.Calls
import Synos.Page.Partition

namespace Synos.Stored

open Synos.Data
open Synos.Page

/-! `region_map` on the bytes of memory. -/

/-- The bytes of the place that lie behind the table, where `region_map` writes
nothing, hold ones. -/
def Place.OnesBehind (place : Place) (memory : Memory) : Prop :=
  ∀ index, pageTblSize place.pages ≤ index → index < place.size →
    memory (place.table + index) = 0xFF

section

variable {place : Place} {memory origin : Memory} {stored : StoredMap}
  {map : BpaMap} {order : Nat}

structure Placed (place : Place) (before after : StoredMap) (order : Nat) :
    Prop where
  address_eq : after.address = before.address
  same : ∀ address, address < place.map + 16 ∨ place.map + 96 ≤ address →
    after.memory address = before.memory address
  below : ∀ other < order, after.freeArea other = before.freeArea other
  area_eq : ∀ other < maxOrder, order ≤ other →
    after.freeArea other =
      word (place.table + (areaLayout place.pages other).1)

theorem placeAreas_placed (hspace : place.map + mmSbSize ≤ wordSize)
    {depth : Nat} (hdepth : order + 1 + depth = maxOrder)
    (haddress : stored.address = place.map) {lastPos : Nat}
    (hlast : lastPos = word (place.table + (areaLayout place.pages order).1)) :
    Placed place stored (placeAreas stored (order + 1) lastPos
      (areaLayout place.pages order).2) (order + 1) := by
  have hmax : maxOrder = 10 := rfl
  have hsize : mmSbSize = 256 := rfl
  induction depth generalizing stored order lastPos with
  | zero =>
      rw [placeAreas, if_neg (by omega)]
      exact ⟨rfl, fun _ _ => rfl, fun _ _ => rfl,
        fun other hother hge => by omega⟩
  | succ depth ih =>
      rw [placeAreas, if_pos (by omega)]
      have hnext : wordAdd lastPos (areaLayout place.pages order).2 =
          word (place.table + (areaLayout place.pages (order + 1)).1) := by
        simp only [hlast, areaLayout, wordAdd, word, wordSize]
        omega
      have hfield : stored.freeAreaField (order + 1) =
          place.map + 16 + 8 * (order + 1) := by
        rw [StoredMap.freeAreaField, haddress]
      have hrest := @ih
        (stored.store (stored.freeAreaField (order + 1))
          (wordAdd lastPos (areaLayout place.pages order).2)) (order + 1)
        (by omega) haddress _ hnext
      have hplaced : ∀ other ≤ order,
          (stored.store (stored.freeAreaField (order + 1))
            (wordAdd lastPos (areaLayout place.pages order).2)).freeArea other =
              stored.freeArea other := fun other hother =>
        load64_store64_of_ne _ (by omega)
          (show stored.address + 16 + 8 * other + 8 ≤ wordSize by omega)
          (.inl (show stored.address + 16 + 8 * other + 8 ≤ _ by omega))
      refine ⟨hrest.address_eq, ?_, ?_, ?_⟩
      · intro address houtside
        refine (hrest.same address houtside).trans ?_
        exact storeBytes_outside _ (by omega) (by omega)
      · intro other hother
        exact (hrest.below other (by omega)).trans (hplaced other (by omega))
      · intro other hother hge
        rcases Nat.eq_or_lt_of_le hge with rfl | hgt
        · refine (hrest.below (order + 1) (by omega)).trans ?_
          rw [← hnext]
          exact load64_store64 (by omega) (word_lt _)
        · exact hrest.area_eq other hother hgt

/-- The words and bytes before the bitmaps are placed. -/
structure Reset (place : Place) (before after : StoredMap) : Prop where
  address_eq : after.address = before.address
  pages_eq : after.pages = place.pages
  first_eq : after.freeArea 0 = place.table
  zero : ∀ address, place.map + 96 ≤ address →
    address < place.map + mmSbSize → after.memory address = 0
  ones : ∀ index < pageTblSize place.pages,
    after.memory (place.table + index) = 0xFF
  behind : ∀ index, pageTblSize place.pages ≤ index → index < place.size →
    after.memory (place.table + index) = before.memory (place.table + index)
  outside : ∀ address, ¬ place.Owns address →
    after.memory address = before.memory address

theorem resetTables_reset (hfits : place.Fits)
    (hpages : place.pages < wordSize) (haddress : stored.address = place.map) :
    Reset place stored (resetTables stored place.pages place.table) := by
  have hmax : maxOrder = 10 := rfl
  have hsize : mmSbSize = 256 := rfl
  have hmapEnd := hfits.map_end
  have htableEnd := hfits.table_end
  have htableLt := hfits.table_lt
  have hapart := hfits.apart
  have hfilled := hfits.filled
  let first := store64 (store64 stored.memory place.map place.pages)
    (place.map + 8) (pageTblSize place.pages)
  have hmemory : (resetTables stored place.pages place.table).memory =
      store64 (setBytes (setBytes (setBytes first place.table 0xFF
        (pageTblSize place.pages)) (place.map + 96) 0 80)
        (place.map + 176) 0 80) (place.map + 16) place.table := by
    simp only [resetTables, StoredMap.store, StoredMap.pagesField,
      StoredMap.freeAreaSizeField, StoredMap.freeAreaField,
      StoredMap.pagesFreeField, StoredMap.nextFreePageField, haddress, hmax,
      Nat.mul_zero, Nat.add_zero, Nat.reduceMul, first]
  have hbyte : ∀ address,
      address < place.map + 16 ∨ place.map + 24 ≤ address →
      (resetTables stored place.pages place.table).memory address =
        if place.map + 96 ≤ address ∧ address < place.map + 256 then 0
        else if place.table ≤ address ∧
            address < place.table + pageTblSize place.pages then 0xFF
        else first address := by
    intro address houtside
    rw [hmemory, store64, storeBytes_outside _ (by omega) (by omega),
      setBytes_eq (by omega), setBytes_eq (by omega), setBytes_eq (by omega)]
    by_cases hlow : place.map + 96 ≤ address ∧ address < place.map + 176
    · rw [if_neg (by omega), if_pos (by omega), if_pos (by omega)]
    · by_cases hhigh : place.map + 176 ≤ address ∧ address < place.map + 256
      · rw [if_pos (by omega), if_pos (by omega)]
      · have hrest : ¬ (place.map + 96 ≤ address ∧
            address < place.map + 256) := by omega
        rw [if_neg (by omega), if_neg (by omega), if_neg hrest]
  have hfirst : ∀ address,
      address < place.map ∨ place.map + 16 ≤ address →
      first address = stored.memory address := by
    intro address houtside
    simp only [first, store64]
    rw [storeBytes_outside _ (by omega) (by omega),
      storeBytes_outside _ (by omega) (by omega)]
  refine ⟨rfl, ?_, ?_, ?_, ?_, ?_, ?_⟩
  · have hagrees : Agrees (store64 stored.memory place.map place.pages)
        (resetTables stored place.pages place.table).memory place.map
        (place.map + 8) := by
      intro address hge hlt
      rw [hbyte address (by omega), if_neg (by omega), if_neg (by omega)]
      simp only [first]
      rw [store64, storeBytes_outside _ (by omega) (by omega)]
    have hload := load64_congr (by omega) hagrees
    rw [load64_store64 (by omega) hpages, ← haddress] at hload
    exact hload
  · have hload : load64 (resetTables stored place.pages place.table).memory
        (place.map + 16) = place.table := by
      rw [hmemory]
      exact load64_store64 (by omega) (by omega)
    rw [← haddress] at hload
    exact hload
  · intro address hge hlt
    rw [hbyte address (by omega), if_pos (by omega)]
  · intro index hindex
    rw [hbyte _ (by omega), if_neg (by omega), if_pos (by omega)]
  · intro index hindex hlt
    rw [hbyte _ (by omega), if_neg (by omega), if_neg (by omega),
      hfirst _ (by omega)]
  · intro address howns
    unfold Place.Owns at howns
    rw [hbyte address (by omega), if_neg (by omega), if_neg (by omega),
      hfirst address (by omega)]

theorem blank_keeps (hfits : place.Fits) (hpages : place.pages < wordSize)
    (hones : place.OnesBehind memory) :
    place.Keeps memory
      (placeAreas (resetTables ⟨memory, place.map⟩ place.pages place.table) 1
        place.table ((place.pages + (8 - 1)) / 8))
      (blankMap place.pages) := by
  have hmax : maxOrder = 10 := rfl
  have hsize : mmSbSize = 256 := rfl
  have hmapEnd := hfits.map_end
  have htableEnd := hfits.table_end
  have htableLt := hfits.table_lt
  have hapart := hfits.apart
  have hfilled := hfits.filled
  have hreset := @resetTables_reset place ⟨memory, place.map⟩ hfits hpages rfl
  have hplaced := @placeAreas_placed place
    (resetTables ⟨memory, place.map⟩ place.pages place.table) 0 hmapEnd 9 rfl
    hreset.address_eq place.table (by
      rw [areaLayout, Nat.add_zero, word_of_lt (by omega)])
  generalize resetTables ⟨memory, place.map⟩ place.pages place.table = reset at *
  simp only [areaLayout, Nat.zero_add] at hplaced
  generalize placeAreas reset 1 place.table ((place.pages + (8 - 1)) / 8) =
    placed at *
  have haddress : placed.address = place.map :=
    hplaced.address_eq.trans hreset.address_eq
  have hzero : ∀ field, place.map + 96 ≤ field →
      field + 8 ≤ place.map + mmSbSize → load64 placed.memory field = 0 := by
    intro field hge hlt
    refine load64_of_zero (by omega) fun address hlow hhigh => ?_
    rw [hplaced.same address (by omega)]
    exact hreset.zero address (by omega) (by omega)
  have hareas : ∀ order < maxOrder, placed.freeArea order =
      word (place.table + (areaLayout place.pages order).1) := by
    intro order horder
    rcases Nat.eq_zero_or_pos order with rfl | hpos
    · rw [hplaced.below 0 (by decide), hreset.first_eq, areaLayout,
        Nat.add_zero, word_of_lt (by omega)]
    · exact hplaced.area_eq order horder hpos
  refine ⟨⟨hfits, rfl, haddress, ?_, hareas, ?_, ?_, ?_, ?_⟩, hpages, ?_,
    fun _ _ => .inl rfl, fun _ _ _ => rfl⟩
  · have hagrees : Agrees reset.memory placed.memory place.map
        (place.map + 8) := fun address hge hlt =>
      hplaced.same address (by omega)
    rw [← hreset.pages_eq, StoredMap.pages, StoredMap.pagesField, haddress,
      load64_congr (by omega) hagrees, StoredMap.pages, StoredMap.pagesField,
      hreset.address_eq]
  · exact fun order horder => hzero (placed.address + 96 + 8 * order)
      (by omega) (by omega)
  · exact fun order horder => hzero (placed.address + 176 + 8 * order)
      (by omega) (by omega)
  · intro order offset hbit
    have hbyte := hbit.2.2
    have hplace : placed.blockAddress order offset =
        place.table + blockByte place.pages order offset := by
      rw [StoredMap.blockAddress, hareas order hbit.1]
      rw [blockByte] at hbyte ⊢
      rw [word_of_lt (show place.table + (areaLayout place.pages order).1 <
        wordSize by omega),
        word_of_lt (by omega)]
      omega
    have hset : placed.memory (placed.blockAddress order offset) = 0xFF := by
      rw [hplace, hplaced.same _ (by omega)]
      by_cases hin : blockByte place.pages order offset <
          pageTblSize place.pages
      · exact hreset.ones _ hin
      · rw [hreset.behind _ (by omega) hbyte]
        exact hones _ (by omega) hbyte
    rw [StoredMap.blockCheck, shifted_one_eq, hset]
    have hbits : ∀ place < 8, (0xFF : UInt8).toBitVec.getLsbD place = true := by
      decide
    exact hbits _ (Nat.mod_lt _ (by decide))
  · intro address howns
    have houtside := hreset.outside address howns
    unfold Place.Owns at howns
    rw [hplaced.same address (by omega)]
    exact houtside
  · intro order horder offset hclear
    cases hclear

/-! Partitioning the pages. -/

theorem Place.Keeps.blocksClear (hkeeps : place.Keeps origin stored map)
    (horder : order < maxOrder) {start length : Nat}
    (hlast : start + length ≤ place.pages / 2 ^ order) :
    place.Keeps origin (Stored.blocksClear stored order start length)
      (Page.blocksClear map order start length) := by
  induction length generalizing stored map start with
  | zero => exact hkeeps
  | succ length ih =>
      exact ih (hkeeps.blockClear horder (by omega)) (by omega)

theorem orderMaxFrom_lt (pages order : Nat) :
    orderMaxFrom pages order < maxOrder := by
  fun_induction orderMaxFrom pages order with
  | case1 pages order horder hodd => exact horder
  | case2 pages order horder heven ih => exact ih
  | case3 pages order horder => decide

theorem orderMaxFrom_odd {pages order : Nat}
    (hlow : orderMaxFrom pages order ≠ maxOrder - 1) :
    order ≤ orderMaxFrom pages order ∧
      0 < pages / 2 ^ (orderMaxFrom pages order - order) := by
  fun_induction orderMaxFrom pages order with
  | case1 pages order horder hodd =>
      rw [Nat.sub_self, pow_zero, Nat.div_one]
      exact ⟨Nat.le_refl _, by omega⟩
  | case2 pages order horder heven ih =>
      obtain ⟨hle, hpos⟩ := ih hlow
      refine ⟨by omega, ?_⟩
      rw [Nat.div_div_eq_div_mul, ← pow_succ'] at hpos
      have hshift : orderMaxFrom (pages / 2) (order + 1) - (order + 1) + 1 =
          orderMaxFrom (pages / 2) (order + 1) - order := by omega
      rwa [hshift] at hpos
  | case3 pages order horder => exact (hlow rfl).elim

theorem Place.Keeps.freeAreaMap (hkeeps : place.Keeps origin stored map)
    {pages : Nat} (hpages : pages ≤ place.pages)
    (hroom : ∀ order < maxOrder, map.pagesFree order + pages < wordSize) :
    place.Keeps origin (Stored.freeAreaMap stored pages)
      (Page.freeAreaMap map pages) := by
  induction pages using Nat.strong_induction_on generalizing stored map with
  | _ pages ih =>
  have horder : orderMax pages < maxOrder := orderMaxFrom_lt pages 0
  have hlength : freeAreaLength pages (orderMax pages) ≤
      place.pages / 2 ^ orderMax pages := by
    rw [freeAreaLength_eq]
    exact Nat.div_le_div_right hpages
  have hplaces := Nat.div_le_self place.pages (2 ^ orderMax pages)
  have hbound := hkeeps.padded.pages_lt
  have hcounted : place.Keeps origin
      (stored.setPagesFree (orderMax pages)
        (freeAreaLength pages (orderMax pages)))
      (map.setPagesFree (orderMax pages)
        (freeAreaLength pages (orderMax pages))) :=
    hkeeps.setPagesFree horder (by omega) (by omega)
  have hlast : place.Keeps origin
      (Stored.blocksClear (stored.setPagesFree (orderMax pages)
        (freeAreaLength pages (orderMax pages))) (orderMax pages) 0
          ((stored.setPagesFree (orderMax pages)
            (freeAreaLength pages (orderMax pages))).pagesFree
              (orderMax pages)))
      (Page.blocksClear (map.setPagesFree (orderMax pages)
        (freeAreaLength pages (orderMax pages))) (orderMax pages) 0
          ((map.setPagesFree (orderMax pages)
            (freeAreaLength pages (orderMax pages))).pagesFree
              (orderMax pages))) := by
    rw [hcounted.count_eq _ horder]
    refine hcounted.blocksClear horder ?_
    rw [setPagesFree_pagesFree, Function.update_self]
    omega
  rw [Stored.freeAreaMap, Page.freeAreaMap]
  by_cases htop : orderMax pages ≠ maxOrder - 1
  · simp only [dif_pos htop, hkeeps.pages_eq, hkeeps.map_pages]
    refine .ite Iff.rfl (fun _ => hlast) fun _ => ?_
    have hblocks : 0 < freeAreaLength pages (orderMax pages) := by
      rw [freeAreaLength_eq]
      exact (orderMaxFrom_odd htop).2
    have hpow := Nat.two_pow_pos (orderMax pages)
    have hpos := pos_of_orderMax htop
    have hhinted := hkeeps.setNextFreePage horder (.inr (show
      freeAreaLength pages (orderMax pages) - 1 <
        place.pages / 2 ^ orderMax pages by omega))
    have hcleared : place.Keeps origin
        ((stored.setNextFreePage (orderMax pages)
          (freeAreaLength pages (orderMax pages) - 1)).blockClear
            (orderMax pages) (freeAreaLength pages (orderMax pages) - 1))
        ((map.setNextFreePage (orderMax pages)
          (freeAreaLength pages (orderMax pages) - 1)).blockClear
            (orderMax pages) (freeAreaLength pages (orderMax pages) - 1)) :=
      hhinted.blockClear horder (by omega)
    have hcount := hroom (orderMax pages) horder
    have hadded := hcleared.addFree horder (by omega) 1
    simp only [hhinted.hint_eq _ horder, setNextFreePage_nextFreePage,
      Function.update_self, writeBlock_pagesFree, setNextFreePage_pagesFree,
      wordAdd_of_lt (show map.pagesFree (orderMax pages) + 1 < wordSize by
        omega)] at hadded ⊢
    refine ih _ (by omega) hadded (by omega) fun other hother => ?_
    have := hroom other hother
    simp only [setPagesFree_pagesFree, writeBlock_pagesFree,
      setNextFreePage_pagesFree]
    by_cases hself : other = orderMax pages
    · rw [hself, Function.update_self]
      omega
    · rw [Function.update_of_ne hself]
      omega
  · simp only [dif_neg htop]
    exact hlast

theorem mapTables_keeps (hfits : place.Fits) (hpages : place.pages < wordSize)
    (hones : place.OnesBehind memory) :
    place.Keeps memory
      (mapTables ⟨memory, place.map⟩ place.pages place.table)
      (Page.freeAreaMap (blankMap place.pages) place.pages) :=
  (blank_keeps hfits hpages hones).freeAreaMap (Nat.le_refl _)
    fun _ _ => by simpa [blankMap] using hpages

/-- `region_map` on the bytes leaves what it leaves on separate bitmaps, when the
place has room for them. -/
theorem regionMap_mirrors (region : Region Nat) (map : BpaMap)
    (hfits : place.Fits) (hpages : place.pages < wordSize)
    (hones : place.OnesBehind memory) :
    Simulates (place.Mirrors memory)
      (regionMap memory region place.pages place.map place.table)
      (Page.regionMap (withMap region map) place.pages) := by
  cases hlock : region.lock with
  | true =>
      have hother : (withMap region map).lock = true := hlock
      simp only [Stored.regionMap, Page.regionMap, spinlockLock, hlock, hother,
        if_true]
      rfl
  | false =>
      have hother : (withMap region map).lock = false := hlock
      simp only [Stored.regionMap, Page.regionMap, spinlockLock, hlock, hother,
        Bool.false_eq_true, if_false]
      exact ⟨rfl, mapTables_keeps hfits hpages hones⟩

end

end Synos.Stored

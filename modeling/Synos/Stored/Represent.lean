import Synos.Stored.Region

namespace Synos.Stored

open Synos.Data
open Synos.Page

/-! When the bytes of memory stand for the map with ten bitmaps of its own, and
that each access to them keeps it so. -/

/-- Where a region of `pages` pages has its `bpa_map_t` and its table, and how many
bytes from the start of the table on are its own. -/
structure Place where
  pages : Nat
  map : Nat
  table : Nat
  size : Nat

/-- The byte is one of the two. -/
def Place.Owns (place : Place) (address : Nat) : Prop :=
  (place.map ≤ address ∧ address < place.map + mmSbSize) ∨
    (place.table ≤ address ∧ address < place.table + place.size)

/-- The two are apart, and the table has room for the byte of every block. -/
structure Place.Fits (place : Place) : Prop where
  map_end : place.map + mmSbSize ≤ wordSize
  table_lt : place.table < wordSize
  table_end : place.table + place.size ≤ wordSize
  apart : place.map + mmSbSize ≤ place.table ∨
    place.table + place.size ≤ place.map
  filled : pageTblSize place.pages ≤ place.size
  room : ∀ order < maxOrder, ∀ block < place.pages / 2 ^ order,
    blockByte place.pages order block < place.size

/-- The bit lies in the bitmap of its order, and in the bytes of the place. -/
def Place.InBitmap (place : Place) (order offset : Nat) : Prop :=
  order < maxOrder ∧ offset < 8 * (areaLayout place.pages order).2 ∧
    blockByte place.pages order offset < place.size

instance (place : Place) (order offset : Nat) :
    Decidable (place.InBitmap order offset) :=
  inferInstanceAs (Decidable (_ ∧ _))

/-- The words and bits in memory are those of the map, and the rest of memory is
that of `origin`. -/
structure Place.Holds (place : Place) (origin : Memory) (stored : StoredMap)
    (map : BpaMap) : Prop where
  fits : place.Fits
  map_pages : map.pages = place.pages
  address_eq : stored.address = place.map
  pages_eq : stored.pages = place.pages
  area_eq : ∀ order < maxOrder, stored.freeArea order =
    word (place.table + (areaLayout place.pages order).1)
  count_eq : ∀ order < maxOrder, stored.pagesFree order = map.pagesFree order
  hint_eq : ∀ order < maxOrder,
    stored.nextFreePage order = map.nextFreePage order
  bit_eq : ∀ order offset, place.InBitmap order offset →
    stored.blockCheck order offset = map.freeArea order offset
  outside : ∀ address, ¬ place.Owns address →
    stored.memory address = origin address

section

variable {place : Place} {origin : Memory} {stored : StoredMap} {map : BpaMap}
  {order offset : Nat}

theorem Place.Fits.inBitmap (hfits : place.Fits)
    (harea : InArea place.pages order offset) : place.InBitmap order offset := by
  refine ⟨harea.1, harea.room, ?_⟩
  obtain ⟨horder, block, hblock, rfl | rfl⟩ := harea
  · exact hfits.room order horder offset hblock
  · rw [blockByte, buddyOf_byte]
    exact hfits.room order horder block hblock

theorem Place.InBitmap.unique {other index : Nat}
    (hbit : place.InBitmap order offset) (hother : place.InBitmap other index)
    (hbyte : blockByte place.pages order offset =
      blockByte place.pages other index)
    (hplace : offset % 8 = index % 8) : order = other ∧ offset = index := by
  have hroom := hbit.2.1
  have hroomOther := hother.2.1
  rw [blockByte, blockByte] at hbyte
  rcases Nat.lt_trichotomy order other with hlt | rfl | hlt
  · have hdisjoint := areaLayout_disjoint place.pages hlt
    omega
  · exact ⟨rfl, by omega⟩
  · have hdisjoint := areaLayout_disjoint place.pages hlt
    omega

theorem Place.Holds.check_eq (hholds : place.Holds origin stored map)
    (order offset : Nat) (harea : InArea place.pages order offset) :
    stored.blockCheck order offset = map.freeArea order offset :=
  hholds.bit_eq order offset (hholds.fits.inBitmap harea)

theorem Place.Holds.blockAddress_eq (hholds : place.Holds origin stored map)
    (hbit : place.InBitmap order offset) :
    stored.blockAddress order offset =
      place.table + blockByte place.pages order offset := by
  have hbyte := hbit.2.2
  have hend := hholds.fits.table_end
  rw [StoredMap.blockAddress, hholds.area_eq order hbit.1,
    word_of_lt (show place.table + (areaLayout place.pages order).1 < wordSize by
      rw [blockByte] at hbyte; omega),
    word_of_lt (by rw [blockByte] at hbyte; omega), blockByte]
  omega

/-! Words of the `bpa_map_t`. -/

/-- A store into the counts and hints leaves the rest to be compared with. -/
theorem Place.Holds.store (hholds : place.Holds origin stored map)
    {field value : Nat} (hlow : place.map + 96 ≤ field)
    (hhigh : field + 8 ≤ place.map + mmSbSize) {after : BpaMap}
    (hpages : after.pages = map.pages) (hfree : after.freeArea = map.freeArea)
    (hcount : ∀ order < maxOrder,
      (stored.store field value).pagesFree order = after.pagesFree order)
    (hhint : ∀ order < maxOrder,
      (stored.store field value).nextFreePage order =
        after.nextFreePage order) :
    place.Holds origin (stored.store field value) after := by
  have haddress := hholds.address_eq
  have hend := hholds.fits.map_end
  have hapart := hholds.fits.apart
  have hmax : maxOrder = 10 := rfl
  have hoff : ∀ other, other + 8 ≤ field →
      load64 (store64 stored.memory field value) other =
        load64 stored.memory other := fun other hbelow =>
    load64_store64_of_ne value (by omega) (by omega) (.inl hbelow)
  have hareas : ∀ order < maxOrder,
      (stored.store field value).freeArea order = stored.freeArea order :=
    fun order horder => hoff (stored.address + 16 + 8 * order) (by omega)
  refine ⟨hholds.fits, hpages.trans hholds.map_pages, haddress, ?_, ?_, hcount,
    hhint, ?_, ?_⟩
  · rw [← hholds.pages_eq]
    exact hoff stored.address (by omega)
  · intro order horder
    rw [hareas order horder]
    exact hholds.area_eq order horder
  · intro order offset hbit
    have hplace : (stored.store field value).blockAddress order offset =
        stored.blockAddress order offset :=
      congrArg (fun area => word (area + offset / 8)) (hareas order hbit.1)
    rw [hfree, ← hholds.bit_eq order offset hbit, StoredMap.blockCheck,
      StoredMap.blockCheck, hplace, hholds.blockAddress_eq hbit]
    have hbyte := hbit.2.2
    have hsame : (stored.store field value).memory
        (place.table + blockByte place.pages order offset) =
          stored.memory (place.table + blockByte place.pages order offset) :=
      storeBytes_outside value (by omega) (by omega)
    rw [hsame]
  · intro address howns
    rw [← hholds.outside address howns]
    unfold Place.Owns at howns
    exact storeBytes_outside value (by omega) (by omega)

theorem Place.Holds.setPagesFree (hholds : place.Holds origin stored map)
    (horder : order < maxOrder) {value : Nat} (hvalue : value < wordSize) :
    place.Holds origin (stored.setPagesFree order value)
      (map.setPagesFree order value) := by
  have haddress := hholds.address_eq
  have hend := hholds.fits.map_end
  have hmax : maxOrder = 10 := rfl
  have hsize : mmSbSize = 256 := rfl
  have hfield : stored.pagesFreeField order = place.map + 96 + 8 * order := by
    rw [StoredMap.pagesFreeField, haddress]
  have hoff : ∀ other, place.map ≤ other → other + 8 ≤ place.map + mmSbSize →
      other + 8 ≤ stored.pagesFreeField order ∨
        stored.pagesFreeField order + 8 ≤ other →
      load64 (store64 stored.memory (stored.pagesFreeField order) value) other =
        load64 stored.memory other := fun other _ _ hapart =>
    load64_store64_of_ne value (by omega) (by omega) hapart
  refine hholds.store (by omega) (by omega) rfl rfl ?_ ?_
  · intro other hother
    rw [setPagesFree_pagesFree]
    by_cases hself : other = order
    · subst hself
      rw [Function.update_self]
      exact load64_store64 (by omega) hvalue
    · rw [Function.update_of_ne hself, ← hholds.count_eq other hother]
      exact hoff (stored.address + 96 + 8 * other) (by omega) (by omega)
        (by omega)
  · intro other hother
    rw [setPagesFree_nextFreePage, ← hholds.hint_eq other hother]
    exact hoff (stored.address + 176 + 8 * other) (by omega) (by omega)
      (by omega)

theorem Place.Holds.setNextFreePage (hholds : place.Holds origin stored map)
    (horder : order < maxOrder) {value : Nat} (hvalue : value < wordSize) :
    place.Holds origin (stored.setNextFreePage order value)
      (map.setNextFreePage order value) := by
  have haddress := hholds.address_eq
  have hend := hholds.fits.map_end
  have hmax : maxOrder = 10 := rfl
  have hsize : mmSbSize = 256 := rfl
  have hfield : stored.nextFreePageField order =
      place.map + 176 + 8 * order := by
    rw [StoredMap.nextFreePageField, haddress]
  have hoff : ∀ other, place.map ≤ other → other + 8 ≤ place.map + mmSbSize →
      other + 8 ≤ stored.nextFreePageField order ∨
        stored.nextFreePageField order + 8 ≤ other →
      load64 (store64 stored.memory (stored.nextFreePageField order) value)
          other =
        load64 stored.memory other := fun other _ _ hapart =>
    load64_store64_of_ne value (by omega) (by omega) hapart
  refine hholds.store (by omega) (by omega) rfl rfl ?_ ?_
  · intro other hother
    rw [setNextFreePage_pagesFree, ← hholds.count_eq other hother]
    exact hoff (stored.address + 96 + 8 * other) (by omega) (by omega)
      (by omega)
  · intro other hother
    rw [setNextFreePage_nextFreePage]
    by_cases hself : other = order
    · subst hself
      rw [Function.update_self]
      exact load64_store64 (by omega) hvalue
    · rw [Function.update_of_ne hself, ← hholds.hint_eq other hother]
      exact hoff (stored.address + 176 + 8 * other) (by omega) (by omega)
        (by omega)

/-! Bits of the table. -/

theorem Place.Holds.onByte (hholds : place.Holds origin stored map)
    {op : BlockOp} (harea : InArea place.pages op.order op.offset) :
    place.Holds origin
      (stored.setByte (stored.blockAddress op.order op.offset)
        (op.onByte (stored.memory
          (stored.blockAddress op.order op.offset)).toBitVec))
      (op.onMap map) := by
  have haddress := hholds.address_eq
  have hend := hholds.fits.map_end
  have htableEnd := hholds.fits.table_end
  have hapart := hholds.fits.apart
  have hmax : maxOrder = 10 := rfl
  have hsize : mmSbSize = 256 := rfl
  have hbit := hholds.fits.inBitmap harea
  have hplace := hholds.blockAddress_eq hbit
  have hbyte := hbit.2.2
  have hmapPages : (op.onMap map).pages = map.pages := by cases op <;> rfl
  have hword : ∀ memory : Memory, ∀ byte : UInt8, ∀ field, place.map ≤ field →
      field + 8 ≤ place.map + mmSbSize →
      load64 (Function.update memory
        (stored.blockAddress op.order op.offset) byte) field =
          load64 memory field := by
    intro memory byte field hfield hlast
    refine load64_congr (by omega) fun other hother hbelow => ?_
    exact Function.update_of_ne (by omega) _ _
  have hareas : ∀ order < maxOrder, ∀ byte,
      (stored.setByte (stored.blockAddress op.order op.offset) byte).freeArea
        order = stored.freeArea order := fun order horder byte =>
    hword stored.memory ⟨byte⟩ (stored.address + 16 + 8 * order) (by omega)
      (by omega)
  refine ⟨hholds.fits, hmapPages.trans hholds.map_pages, haddress, ?_, ?_, ?_,
    ?_, ?_, ?_⟩
  · rw [← hholds.pages_eq]
    exact hword stored.memory _ stored.address (by omega) (by omega)
  · intro order horder
    rw [hareas order horder]
    exact hholds.area_eq order horder
  · intro order horder
    have hcount : (op.onMap map).pagesFree = map.pagesFree := by
      cases op <;> rfl
    rw [hcount, ← hholds.count_eq order horder]
    exact hword stored.memory _ (stored.address + 96 + 8 * order) (by omega)
      (by omega)
  · intro order horder
    have hhint : (op.onMap map).nextFreePage = map.nextFreePage := by
      cases op <;> rfl
    rw [hhint, ← hholds.hint_eq order horder]
    exact hword stored.memory _ (stored.address + 176 + 8 * order) (by omega)
      (by omega)
  · intro order offset hother
    have hotherPlace := hholds.blockAddress_eq hother
    have hcheck := blockCheck_onMap map op order offset
    rw [blockCheck_eq, blockCheck_eq] at hcheck
    have hplaces : ∀ byte, (stored.setByte
        (stored.blockAddress op.order op.offset) byte).blockAddress order
          offset = stored.blockAddress order offset := fun byte =>
      congrArg (fun area => word (area + offset / 8))
        (hareas order hother.1 byte)
    rw [hcheck, ← hholds.bit_eq order offset hother, StoredMap.blockCheck,
      StoredMap.blockCheck, shifted_one_eq, shifted_one_eq, hplaces]
    simp only [StoredMap.setByte]
    by_cases hsame : stored.blockAddress order offset =
        stored.blockAddress op.order op.offset
    · have hbytes : blockByte place.pages order offset =
          blockByte place.pages op.order op.offset := by omega
      have hsameBit : offset % 8 = op.offset % 8 ↔
          order = op.order ∧ offset = op.offset := by
        refine ⟨hother.unique hbit hbytes, ?_⟩
        rintro ⟨-, hoffset⟩
        rw [hoffset]
      rw [hsame, Function.update_self,
        getLsbD_onByte _ (Nat.mod_lt _ (by decide))]
      simp only [hsameBit]
    · have hne : ¬ (order = op.order ∧ offset = op.offset) := by
        rintro ⟨rfl, rfl⟩
        exact hsame rfl
      rw [Function.update_of_ne hsame, if_neg hne]
  · intro address howns
    rw [← hholds.outside address howns]
    unfold Place.Owns at howns
    exact Function.update_of_ne (by omega) _ _

theorem Place.Holds.blockSet (hholds : place.Holds origin stored map)
    (harea : InArea place.pages order offset) :
    place.Holds origin (stored.blockSet order offset)
      (map.blockSet order offset) :=
  @Place.Holds.onByte _ _ _ _ hholds (.set order offset) harea

theorem Place.Holds.blockClear (hholds : place.Holds origin stored map)
    (harea : InArea place.pages order offset) :
    place.Holds origin (stored.blockClear order offset)
      (map.blockClear order offset) :=
  @Place.Holds.onByte _ _ _ _ hholds (.clear order offset) harea

/-! Memory that changes elsewhere. -/

theorem Place.Holds.moved (hholds : place.Holds origin stored map)
    {memory : Memory}
    (hsame : ∀ address, place.Owns address →
      memory address = stored.memory address) :
    place.Holds memory ⟨memory, stored.address⟩ map := by
  have haddress := hholds.address_eq
  have hend := hholds.fits.map_end
  have hmax : maxOrder = 10 := rfl
  have hsize : mmSbSize = 256 := rfl
  have hfield : ∀ field, place.map ≤ field → field + 8 ≤ place.map + mmSbSize →
      load64 memory field = load64 stored.memory field := by
    intro field hlow hhigh
    refine load64_congr (by omega) fun address hge hlt => ?_
    exact hsame address (.inl ⟨by omega, by omega⟩)
  refine ⟨hholds.fits, hholds.map_pages, haddress, ?_, ?_, ?_, ?_, ?_,
    fun _ _ => rfl⟩
  · rw [← hholds.pages_eq]
    exact hfield stored.address (by omega) (by omega)
  · intro order horder
    rw [← hholds.area_eq order horder]
    exact hfield (stored.address + 16 + 8 * order) (by omega) (by omega)
  · intro order horder
    rw [← hholds.count_eq order horder]
    exact hfield (stored.address + 96 + 8 * order) (by omega) (by omega)
  · intro order horder
    rw [← hholds.hint_eq order horder]
    exact hfield (stored.address + 176 + 8 * order) (by omega) (by omega)
  · intro order offset hbit
    have harea : load64 memory (stored.address + 16 + 8 * order) =
        load64 stored.memory (stored.address + 16 + 8 * order) := by
      have horder := hbit.1
      exact hfield _ (by omega) (by omega)
    have hplace : StoredMap.blockAddress ⟨memory, stored.address⟩ order offset =
        stored.blockAddress order offset :=
      congrArg (fun area => word (area + offset / 8)) harea
    have hbyte := hbit.2.2
    have hown : memory (stored.blockAddress order offset) =
        stored.memory (stored.blockAddress order offset) := by
      rw [hholds.blockAddress_eq hbit]
      exact hsame _ (.inr ⟨by omega, by omega⟩)
    rw [← hholds.bit_eq order offset hbit, StoredMap.blockCheck,
      StoredMap.blockCheck, hplace]
    exact congrArg (fun byte : UInt8 =>
      byte.toBitVec >>> (offset % 8) &&& 1#8 == 1#8) hown

end

end Synos.Stored

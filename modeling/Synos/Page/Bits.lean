import Synos.Page.Layout

namespace Synos.Page

open Synos.Data (Block)

/-! The bitmaps as the bytes of the table that `region_map` is given. -/

abbrev PageTable := Nat → BitVec 8

section

variable (pages : Nat)

def tableCheck (table : PageTable) (order offset : Nat) : Bool :=
  (table (blockByte pages order offset) >>> (offset % 8)) &&& 1#8 == 1#8

def tableSet (table : PageTable) (order offset : Nat) : PageTable :=
  let byte := blockByte pages order offset
  Function.update table byte (table byte ||| 1#8 <<< (offset % 8))

def tableClear (table : PageTable) (order offset : Nat) : PageTable :=
  let byte := blockByte pages order offset
  Function.update table byte (table byte &&& ~~~(1#8 <<< (offset % 8)))

/-- The `memset` of `region_map`, over what the memory has held. -/
def fillTable (memory : PageTable) : PageTable := fun index =>
  if index < pageTblSize pages then 0xFF#8 else memory index

/-- A block of the region, or the buddy of one. -/
def InArea (order offset : Nat) : Prop :=
  order < maxOrder ∧ ∃ block < pages / 2 ^ order,
    offset = block ∨ offset = buddyOf block

end

inductive BlockOp
  | set (order offset : Nat)
  | clear (order offset : Nat)

namespace BlockOp

def order : BlockOp → Nat
  | set order _ => order
  | clear order _ => order

def offset : BlockOp → Nat
  | set _ offset => offset
  | clear _ offset => offset

def bit : BlockOp → Bool
  | set _ _ => true
  | clear _ _ => false

def onByte (byte : BitVec 8) : BlockOp → BitVec 8
  | set _ offset => byte ||| 1#8 <<< (offset % 8)
  | clear _ offset => byte &&& ~~~(1#8 <<< (offset % 8))

def onTable (pages : Nat) (table : PageTable) : BlockOp → PageTable
  | set order offset => tableSet pages table order offset
  | clear order offset => tableClear pages table order offset

def onMap (map : BpaMap) : BlockOp → BpaMap
  | set order offset => map.blockSet order offset
  | clear order offset => map.blockClear order offset

end BlockOp

/-- The bytes say the same as the map of every block. -/
def Represents (pages : Nat) (table : PageTable) (map : BpaMap) : Prop :=
  ∀ order offset, InArea pages order offset →
    tableCheck pages table order offset = map.blockCheck order offset

section

variable {pages order offset : Nat} {table : PageTable} {map : BpaMap}
  {op : BlockOp}

/-! One byte. -/

theorem shifted_one_eq (byte : BitVec 8) (place : Nat) :
    (byte >>> place &&& 1#8 == 1#8) = byte.getLsbD place := by
  rw [BitVec.and_one_eq_setWidth_ofBool_getLsbD, BitVec.getLsbD_ushiftRight,
    Nat.add_zero]
  cases byte.getLsbD place <;> rfl

theorem getLsbD_one_shiftLeft {place other : Nat} (hother : other < 8) :
    (1#8 <<< place).getLsbD other = decide (other = place) := by
  rw [BitVec.getLsbD_shiftLeft, BitVec.getLsbD_one]
  by_cases heq : other = place
  · simp [heq]
    omega
  · simp [heq]
    omega

theorem getLsbD_set (byte : BitVec 8) {place other : Nat} (hother : other < 8) :
    (byte ||| 1#8 <<< place).getLsbD other =
      if other = place then true else byte.getLsbD other := by
  rw [BitVec.getLsbD_or, getLsbD_one_shiftLeft hother]
  by_cases heq : other = place <;> simp [heq]

theorem getLsbD_clear (byte : BitVec 8) {place other : Nat}
    (hother : other < 8) :
    (byte &&& ~~~(1#8 <<< place)).getLsbD other =
      if other = place then false else byte.getLsbD other := by
  rw [BitVec.getLsbD_and, BitVec.getLsbD_not, getLsbD_one_shiftLeft hother]
  by_cases heq : other = place <;> simp [heq, hother]

theorem getLsbD_onByte (byte : BitVec 8) {other : Nat} (hother : other < 8) :
    (op.onByte byte).getLsbD other =
      if other = op.offset % 8 then op.bit else byte.getLsbD other := by
  cases op with
  | set order offset => exact getLsbD_set byte hother
  | clear order offset => exact getLsbD_clear byte hother

theorem onTable_eq :
    op.onTable pages table =
      Function.update table (blockByte pages op.order op.offset)
        (op.onByte (table (blockByte pages op.order op.offset))) := by
  cases op <;> rfl

/-! Blocks have bits of their own. -/

theorem buddyOf_byte (block : Nat) : buddyOf block / 8 = block / 8 := by
  unfold buddyOf
  split <;> omega

theorem InArea.room (harea : InArea pages order offset) :
    offset < 8 * (areaLayout pages order).2 := by
  obtain ⟨-, block, hblock, heq⟩ := harea
  have hpages : 0 < pages := by
    rcases Nat.eq_zero_or_pos pages with rfl | hpos
    · rw [Nat.zero_div] at hblock
      cases hblock
    · exact hpos
  have hroom := areaLayout_room hpages hblock
  rcases heq with rfl | rfl
  · exact hroom
  · have hbyte := buddyOf_byte block
    omega

theorem InArea.unique {other place : Nat} (harea : InArea pages order offset)
    (hother : InArea pages other place)
    (hbyte : blockByte pages order offset = blockByte pages other place)
    (hbit : offset % 8 = place % 8) : order = other ∧ offset = place := by
  have hroom := harea.room
  have hroomOther := hother.room
  rw [blockByte, blockByte] at hbyte
  rcases Nat.lt_trichotomy order other with hlt | rfl | hlt
  · have hdisjoint := areaLayout_disjoint pages hlt
    omega
  · exact ⟨rfl, by omega⟩
  · have hdisjoint := areaLayout_disjoint pages hlt
    omega

theorem tableCheck_onTable (hop : InArea pages op.order op.offset)
    (harea : InArea pages order offset) :
    tableCheck pages (op.onTable pages table) order offset =
      if order = op.order ∧ offset = op.offset then op.bit
      else tableCheck pages table order offset := by
  rw [tableCheck, tableCheck, shifted_one_eq, shifted_one_eq, onTable_eq]
  by_cases hbyte : blockByte pages order offset =
      blockByte pages op.order op.offset
  · have hsame : offset % 8 = op.offset % 8 ↔
        order = op.order ∧ offset = op.offset := by
      refine ⟨harea.unique hop hbyte, ?_⟩
      rintro ⟨-, hoffset⟩
      rw [hoffset]
    rw [hbyte, Function.update_self,
      getLsbD_onByte _ (Nat.mod_lt _ (by decide))]
    simp only [hsame]
  · have hne : ¬ (order = op.order ∧ offset = op.offset) := by
      rintro ⟨horder, hoffset⟩
      exact hbyte (by rw [horder, hoffset])
    rw [Function.update_of_ne hbyte, if_neg hne]

theorem blockCheck_onMap (map : BpaMap) (op : BlockOp) (order offset : Nat) :
    (op.onMap map).blockCheck order offset =
      if order = op.order ∧ offset = op.offset then op.bit
      else map.blockCheck order offset := by
  cases op with
  | set kind own =>
      have hwrite := writeBlock_freeArea map kind own true ⟨order, offset⟩
      simp only [Block.mk.injEq] at hwrite
      exact hwrite
  | clear kind own =>
      have hwrite := writeBlock_freeArea map kind own false ⟨order, offset⟩
      simp only [Block.mk.injEq] at hwrite
      exact hwrite

/-! Sequences of calls. -/

theorem Represents.step (htable : Represents pages table map)
    (hop : InArea pages op.order op.offset) :
    Represents pages (op.onTable pages table) (op.onMap map) := by
  intro order offset harea
  rw [tableCheck_onTable hop harea, blockCheck_onMap,
    htable order offset harea]

theorem Represents.run {ops : List BlockOp}
    (htable : Represents pages table map)
    (hops : ∀ op ∈ ops, InArea pages op.order op.offset) :
    Represents pages (ops.foldl (BlockOp.onTable pages) table)
      (ops.foldl BlockOp.onMap map) := by
  induction ops generalizing table map with
  | nil => exact htable
  | cons op ops ih =>
      exact ih (htable.step (hops op List.mem_cons_self)) fun other hother =>
        hops other (List.mem_cons_of_mem _ hother)

theorem onTable_outside {limit index : Nat} (hindex : limit ≤ index)
    (hop : blockByte pages op.order op.offset < limit) :
    op.onTable pages table index = table index := by
  rw [onTable_eq]
  exact Function.update_of_ne (hop.trans_le hindex).ne' _ _

theorem run_outside {limit index : Nat} (hindex : limit ≤ index)
    {ops : List BlockOp}
    (hops : ∀ op ∈ ops, blockByte pages op.order op.offset < limit) :
    ops.foldl (BlockOp.onTable pages) table index = table index := by
  induction ops generalizing table with
  | nil => rfl
  | cons op ops ih =>
      rw [List.foldl_cons, ih fun other hother =>
        hops other (List.mem_cons_of_mem _ hother)]
      exact onTable_outside hindex (hops op List.mem_cons_self)

end

/-- The bytes of the table do the work of the ten bitmaps, and no others are
written, just when it has room for the byte of every block. -/
theorem table_represents_iff (pages : Nat) :
    (∀ (memory : PageTable) (ops : List BlockOp),
      (∀ op ∈ ops, InArea pages op.order op.offset) →
      Represents pages
          (ops.foldl (BlockOp.onTable pages) (fillTable pages memory))
          (ops.foldl BlockOp.onMap (blankMap pages)) ∧
        ∀ index, pageTblSize pages ≤ index →
          ops.foldl (BlockOp.onTable pages) (fillTable pages memory) index =
            memory index) ↔
      ∀ order < maxOrder, ∀ block < pages / 2 ^ order,
        blockByte pages order block < pageTblSize pages := by
  constructor
  · intro hall order horder block hblock
    by_contra houtside
    -- a byte behind the table, which has held zeros
    have hcheck := (hall (fun _ => 0#8) [] (by simp)).1 order block
      ⟨horder, block, hblock, .inl rfl⟩
    simp [tableCheck, fillTable, houtside, blankMap] at hcheck
  · intro hroom memory ops hops
    have hbyte : ∀ order offset, InArea pages order offset →
        blockByte pages order offset < pageTblSize pages := by
      rintro order offset ⟨horder, block, hblock, rfl | rfl⟩
      · exact hroom order horder offset hblock
      · rw [blockByte, buddyOf_byte]
        exact hroom order horder block hblock
    refine ⟨Represents.run ?_ hops, fun index hindex => ?_⟩
    · intro order offset harea
      rw [tableCheck, shifted_one_eq, fillTable,
        if_pos (hbyte order offset harea)]
      have hones : ∀ place < 8, (0xFF#8).getLsbD place = true := by decide
      exact hones _ (Nat.mod_lt _ (by decide))
    · rw [run_outside hindex fun op hop => hbyte _ _ (hops op hop), fillTable,
        if_neg (by omega)]

end Synos.Page

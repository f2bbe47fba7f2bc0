import Mathlib.Data.List.Basic

namespace Synos.Data

universe u

/-! Blocks of cells in which every access is checked, cell by cell. -/

inductive AccessFault
  | outOfBounds
  deriving DecidableEq, Repr

section

variable {Cell : Type u} {block source target : List Cell}
  {index offset count : Nat} {cell : Cell}

/-- A block with what its cells held before it was handed out. -/
def freshBlock (contents : Nat → Cell) (count : Nat) : List Cell :=
  (List.range count).map contents

def readCell (block : List Cell) (index : Nat) : Except AccessFault Cell :=
  match block[index]? with
  | some cell => .ok cell
  | none => .error .outOfBounds

def writeCell (block : List Cell) (index : Nat) (cell : Cell) :
    Except AccessFault (List Cell) :=
  if index < block.length then .ok (block.set index cell)
  else .error .outOfBounds

def copyCells (target source : List Cell) (offset count : Nat) :
    Except AccessFault (List Cell) :=
  if count ≤ source.length ∧ offset + count ≤ target.length then
    .ok (target.take offset ++
      (source.take count ++ target.drop (offset + count)))
  else .error .outOfBounds

@[simp] theorem length_freshBlock (contents : Nat → Cell) (count : Nat) :
    (freshBlock contents count).length = count := by
  rw [freshBlock, List.length_map, List.length_range]

theorem getElem?_freshBlock {contents : Nat → Cell} (hindex : index < count) :
    (freshBlock contents count)[index]? = some (contents index) := by
  rw [freshBlock, List.getElem?_map, List.getElem?_range hindex]
  rfl

theorem readCell_of_some (hcell : block[index]? = some cell) :
    readCell block index = .ok cell := by
  rw [readCell, hcell]

theorem exists_readCell (hindex : index < block.length) :
    ∃ cell, readCell block index = .ok cell ∧ block[index]? = some cell := by
  have hcell := List.getElem?_eq_getElem hindex
  exact ⟨_, readCell_of_some hcell, hcell⟩

theorem writeCell_of_lt (hindex : index < block.length) :
    writeCell block index cell = .ok (block.set index cell) :=
  if_pos hindex

theorem writeCell_outside (hindex : block.length ≤ index) :
    writeCell block index cell = .error .outOfBounds :=
  if_neg (Nat.not_lt.mpr hindex)

theorem exists_copyCells (hsource : count ≤ source.length)
    (htarget : offset + count ≤ target.length) :
    ∃ block, copyCells target source offset count = .ok block ∧
      block.length = target.length ∧
      ∀ k, block[k]? =
        if offset ≤ k ∧ k < offset + count then source[k - offset]?
        else target[k]? := by
  refine ⟨_, if_pos ⟨hsource, htarget⟩, ?_, ?_⟩
  · simp only [List.length_append, List.length_take, List.length_drop]
    omega
  · intro k
    have hfront : (target.take offset).length = offset := by
      rw [List.length_take]
      omega
    have hmiddle : (source.take count).length = count := by
      rw [List.length_take]
      omega
    rw [List.getElem?_append, hfront, List.getElem?_append, hmiddle]
    by_cases hbelow : k < offset
    · rw [if_pos hbelow, if_neg (by omega), List.getElem?_take_of_lt hbelow]
    · rw [if_neg hbelow]
      by_cases hinside : k - offset < count
      · rw [if_pos hinside, if_pos (by omega),
          List.getElem?_take_of_lt hinside]
      · rw [if_neg hinside, if_neg (by omega), List.getElem?_drop]
        congr 1
        omega

theorem copyCells_outside (houtside : target.length < offset + count) :
    copyCells target source offset count = .error .outOfBounds :=
  if_neg fun hfits => absurd hfits.2 (Nat.not_le.mpr houtside)

theorem copyCells_take (hsource : count ≤ source.length) :
    copyCells target (source.take count) offset count =
      copyCells target source offset count := by
  simp only [copyCells, List.length_take, List.take_take, Nat.min_self,
    Nat.min_eq_left hsource]
  exact if_congr (and_congr_left fun _ =>
    iff_of_true (Nat.le_refl _) hsource) rfl rfl

theorem take_eq_iff {cells : List Cell} :
    block.take cells.length = cells ↔
      ∀ k < cells.length, block[k]? = cells[k]? := by
  constructor
  · intro htake k hk
    rw [← htake, List.getElem?_take_of_lt hk]
  · intro hcells
    apply List.ext_getElem?
    intro k
    by_cases hk : k < cells.length
    · rw [List.getElem?_take_of_lt hk, hcells k hk]
    · rw [List.getElem?_take_eq_none (by omega),
        List.getElem?_eq_none (by omega)]

end

end Synos.Data

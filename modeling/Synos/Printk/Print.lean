import Synos.Data.Machine
import Mathlib.Algebra.Group.Nat.Defs
import Mathlib.Logic.Function.Basic

namespace Synos.Printk

open Synos.Data

/-! The text console on the VGA display buffer. -/

abbrev Cell := BitVec 16

def white : BitVec 8 := 15

def black : BitVec 8 := 0

def tabSize : Nat := 4

/-- `stores` is history: the indices written so far, the latest first. -/
structure Console where
  displayBuffer : Nat → Cell
  width : Nat
  height : Nat
  foreColor : BitVec 8
  backColor : BitVec 8
  cursorPos : Nat
  stores : List Nat

def charEntry (foreColor backColor ch : BitVec 8) : Cell :=
  ((((backColor <<< 4) ||| foreColor).setWidth 16) <<< 8) ||| ch.setWidth 16

namespace Console

def store (console : Console) (index : Nat) (cell : Cell) : Console :=
  { console with
    displayBuffer := Function.update console.displayBuffer index cell
    stores := index :: console.stores }

def entry (console : Console) (ch : BitVec 8) : Cell :=
  charEntry console.foreColor console.backColor ch

def area (console : Console) : Nat :=
  console.width * console.height % 2 ^ 32

def getCursorPosX (console : Console) : Nat :=
  console.cursorPos % console.width

def getCursorPosY (console : Console) : Nat :=
  console.cursorPos / console.width

def setCursorPos (console : Console) (x y : Nat) : Console :=
  { console with cursorPos := (y * console.width + x) % 2 ^ 16 }

def copyRow (i : Nat) : (t count : Nat) → Console → Console
  | _, 0, console => console
  | t, count + 1, console =>
      copyRow i (t + 1) count
        (console.store (i * console.width + t)
          (console.displayBuffer ((i + 1) * console.width + t)))

def copyRows : (i count : Nat) → Console → Console
  | _, 0, console => console
  | i, count + 1, console =>
      copyRows (i + 1) count (copyRow i 0 console.width console)

def blankCells (start : Nat) : (i count : Nat) → Console → Console
  | _, 0, console => console
  | i, count + 1, console =>
      blankCells start (i + 1) count
        (console.store (start + i) (console.entry 0))

def scroll (console : Console) : Console :=
  let console := copyRows 0 (console.height - 1) console
  let console :=
    blankCells ((console.height - 1) * console.width) 0 console.width console
  console.setCursorPos console.getCursorPosX
    ((console.getCursorPosY + (2 ^ 32 - 1)) % 2 ^ 32)

def clearScreen (console : Console) : Console :=
  (blankCells 0 0 console.area console).setCursorPos 0 0

/-- The loop at `scrollRep`; the cursor is a 16-bit number, so a loop that ends
does so within `2 ^ 16` rounds. -/
def scrollRep : (fuel : Nat) → Console → Except Fault Console
  | 0, _ => .error .endlessLoop
  | fuel + 1, console =>
      if console.area ≤ console.cursorPos then scrollRep fuel console.scroll
      else .ok console

def putChar (console : Console) (ch : BitVec 8) : Console :=
  if 0x20 ≤ ch.toNat ∧ ch.toNat ≤ 0x7E then
    { console.store console.cursorPos (console.entry ch) with
      cursorPos := (console.cursorPos + 1) % 2 ^ 16 }
  else if ch = 0x08 then
    if 0 < console.cursorPos then
      { console with cursorPos := console.cursorPos - 1 }
    else console
  else if ch = 0x09 then
    { console with cursorPos := (console.cursorPos + tabSize) % 2 ^ 16 }
  else if ch = 0x0A then
    console.setCursorPos 0 (console.getCursorPosY + 1)
  else if ch = 0x0B then
    console.setCursorPos console.getCursorPosX (console.getCursorPosY + 1)
  else if ch = 0x0C then
    console.clearScreen
  else if ch = 0x0D then
    console.setCursorPos 0 console.getCursorPosY
  else
    console

def printChars : List (BitVec 8) → Console → Except Fault Console
  | [], console => .ok console
  | ch :: str, console =>
      match scrollRep (2 ^ 16) (console.putChar ch) with
      | .error fault => .error fault
      | .ok console =>
          if ch = 0 then .ok console else printChars str console

def archPrint (console : Console) (str : List (BitVec 8)) :
    Except Fault Console :=
  match printChars str console with
  | .error fault => .error fault
  | .ok console =>
      .ok (console.setCursorPos console.getCursorPosX console.getCursorPosY)

/-! What the loops of `scroll` do to the buffer. -/

/-- `after` has the cells from `start` on moved up by one row. -/
structure MovedUp (before after : Console) (start count : Nat) : Prop where
  cells : ∀ index, after.displayBuffer index =
    if start ≤ index ∧ index < start + count then
      before.displayBuffer (index + before.width)
    else before.displayBuffer index
  stores : ∀ index ∈ after.stores,
    index ∈ before.stores ∨ start ≤ index ∧ index < start + count
  rest : after =
    { before with
      displayBuffer := after.displayBuffer
      stores := after.stores }

theorem MovedUp.width {before after : Console} {start count : Nat}
    (h : MovedUp before after start count) : after.width = before.width := by
  rw [h.rest]

theorem MovedUp.refl (console : Console) (start : Nat) :
    MovedUp console console start 0 where
  cells := by
    intro index
    rw [if_neg (by omega)]
  stores := fun index hmem => .inl hmem
  rest := rfl

theorem MovedUp.trans {first second third : Console}
    {start count more : Nat} (hfirst : MovedUp first second start count)
    (hsecond : MovedUp second third (start + count) more) :
    MovedUp first third start (count + more) where
  cells := by
    intro index
    rw [hsecond.cells, hfirst.width]
    by_cases hlate : start + count ≤ index ∧ index < start + count + more
    · rw [if_pos hlate, if_pos (by omega), hfirst.cells, if_neg (by omega)]
    · rw [if_neg hlate, hfirst.cells]
      by_cases hearly : start ≤ index ∧ index < start + count
      · rw [if_pos hearly, if_pos (by omega)]
      · rw [if_neg hearly, if_neg (by omega)]
  stores := by
    intro index hmem
    cases hsecond.stores index hmem with
    | inl hold =>
        cases hfirst.stores index hold with
        | inl h => exact .inl h
        | inr h => exact .inr (by omega)
    | inr h => exact .inr (by omega)
  rest := by
    rw [hsecond.rest, hfirst.rest]

theorem MovedUp.store (console : Console) (index : Nat) :
    MovedUp console
      (console.store index (console.displayBuffer (index + console.width)))
      index 1 where
  cells := by
    intro other
    by_cases heq : other = index
    · subst heq
      rw [if_pos (by omega)]
      exact Function.update_self _ _ _
    · rw [if_neg (by omega)]
      exact Function.update_of_ne heq _ _
  stores := by
    intro other hmem
    cases hmem with
    | head => exact .inr (by omega)
    | tail _ hmem => exact .inl hmem
  rest := rfl

theorem copyRow_movedUp (i t count : Nat) (console : Console) :
    MovedUp console (copyRow i t count console) (i * console.width + t)
      count := by
  induction count generalizing t console with
  | zero => exact .refl console _
  | succ count ih =>
      have hcell : (i + 1) * console.width + t =
          i * console.width + t + console.width := by
        rw [Nat.add_mul]
        omega
      have hstore := MovedUp.store console (i * console.width + t)
      rw [← hcell] at hstore
      have hrest := ih (t + 1) (console.store (i * console.width + t)
        (console.displayBuffer ((i + 1) * console.width + t)))
      rw [hstore.width, ← Nat.add_assoc] at hrest
      have hboth := hstore.trans hrest
      rw [Nat.add_comm 1 count] at hboth
      exact hboth

theorem copyRows_movedUp (i count : Nat) (console : Console) :
    MovedUp console (copyRows i count console) (i * console.width)
      (count * console.width) := by
  induction count generalizing i console with
  | zero =>
      rw [Nat.zero_mul]
      exact .refl console _
  | succ count ih =>
      have hrow := copyRow_movedUp i 0 console.width console
      have hrest := ih (i + 1) (copyRow i 0 console.width console)
      rw [hrow.width, Nat.add_mul, Nat.one_mul] at hrest
      have hboth := hrow.trans hrest
      rw [Nat.add_comm console.width] at hboth
      rw [Nat.add_mul, Nat.one_mul]
      exact hboth

/-- `after` has the cells from `start` on blanked. -/
structure Blanked (before after : Console) (start count : Nat) : Prop where
  cells : ∀ index, after.displayBuffer index =
    if start ≤ index ∧ index < start + count then before.entry 0
    else before.displayBuffer index
  stores : ∀ index ∈ after.stores,
    index ∈ before.stores ∨ start ≤ index ∧ index < start + count
  rest : after =
    { before with
      displayBuffer := after.displayBuffer
      stores := after.stores }

theorem blankCells_blanked (start i count : Nat) (console : Console) :
    Blanked console (blankCells start i count console) (start + i) count := by
  induction count generalizing i console with
  | zero =>
      refine ⟨fun index => ?_, fun index hmem => .inl hmem, rfl⟩
      rw [if_neg (by omega)]
      rfl
  | succ count ih =>
      have hrest := ih (i + 1) (console.store (start + i) (console.entry 0))
      refine ⟨?_, ?_, ?_⟩
      · intro index
        rw [blankCells, hrest.cells]
        by_cases hlater : start + (i + 1) ≤ index ∧
            index < start + (i + 1) + count
        · rw [if_pos hlater, if_pos (by omega)]
          rfl
        · rw [if_neg hlater]
          by_cases heq : index = start + i
          · rw [if_pos (by omega), heq]
            exact Function.update_self _ _ _
          · rw [if_neg (by omega)]
            exact Function.update_of_ne heq _ _
      · intro index hmem
        cases hrest.stores index hmem with
        | inl hold =>
            cases hold with
            | head => exact .inr (by omega)
            | tail _ hold => exact .inl hold
        | inr h => exact .inr (by omega)
      · rw [blankCells, hrest.rest]
        rfl

theorem scroll_displayBuffer (console : Console) (index : Nat) :
    console.scroll.displayBuffer index =
      if index < (console.height - 1) * console.width then
        console.displayBuffer (index + console.width)
      else if index < (console.height - 1) * console.width + console.width then
        console.entry 0
      else console.displayBuffer index := by
  have hmoved := copyRows_movedUp 0 (console.height - 1) console
  have hblank := blankCells_blanked ((console.height - 1) * console.width) 0
    console.width (copyRows 0 (console.height - 1) console)
  have hentry : (copyRows 0 (console.height - 1) console).entry 0 =
      console.entry 0 := by
    rw [hmoved.rest]
    rfl
  have hsame : console.scroll.displayBuffer =
      (blankCells ((console.height - 1) * console.width) 0 console.width
        (copyRows 0 (console.height - 1) console)).displayBuffer := by
    have hheight : (copyRows 0 (console.height - 1) console).height =
        console.height := by
      rw [hmoved.rest]
    simp only [scroll, setCursorPos, hmoved.width, hheight]
  rw [hsame, hblank.cells, hmoved.cells, hentry]
  simp only [Nat.zero_mul, Nat.zero_add, Nat.add_zero, Nat.zero_le, true_and]
  by_cases hrow : index < (console.height - 1) * console.width
  · rw [if_neg (by omega), if_pos hrow, if_pos hrow]
  · rw [if_neg hrow, if_neg hrow]
    by_cases hlast : index <
        (console.height - 1) * console.width + console.width
    · rw [if_pos ⟨by omega, hlast⟩, if_pos hlast]
    · rw [if_neg (fun h => hlast h.2), if_neg hlast]

theorem scroll_stores (console : Console) :
    ∀ index ∈ console.scroll.stores, index ∈ console.stores ∨
      index < (console.height - 1) * console.width + console.width := by
  have hmoved := copyRows_movedUp 0 (console.height - 1) console
  have hblank := blankCells_blanked ((console.height - 1) * console.width) 0
    console.width (copyRows 0 (console.height - 1) console)
  have hheight : (copyRows 0 (console.height - 1) console).height =
      console.height := by
    rw [hmoved.rest]
  intro index hmem
  simp only [scroll, setCursorPos, hmoved.width, hheight] at hmem
  cases hblank.stores index hmem with
  | inl hold =>
      cases hmoved.stores index hold with
      | inl h => exact .inl h
      | inr h => exact .inr (by omega)
  | inr h => exact .inr (by omega)

theorem scroll_rest (console : Console) :
    console.scroll =
      { console with
        displayBuffer := console.scroll.displayBuffer
        cursorPos :=
          ((console.cursorPos / console.width + (2 ^ 32 - 1)) % 2 ^ 32 *
            console.width + console.cursorPos % console.width) % 2 ^ 16
        stores := console.scroll.stores } := by
  have hmoved := copyRows_movedUp 0 (console.height - 1) console
  have hheight : (copyRows 0 (console.height - 1) console).height =
      console.height := by
    rw [hmoved.rest]
  have hblank := blankCells_blanked ((console.height - 1) * console.width) 0
    console.width (copyRows 0 (console.height - 1) console)
  have hrest := hblank.rest
  rw [hmoved.rest] at hrest
  unfold scroll
  simp only [hmoved.width, hheight]
  rw [hmoved.rest, hrest]
  rfl

end Console

end Synos.Printk

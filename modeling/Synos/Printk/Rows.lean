import Synos.Printk.Canvas
import Mathlib.Data.List.GetD

namespace Synos.Printk

open Synos.Data

/-! A text of lines as rows of cells. Each line begins in the first column, and
its last row is filled up with blanks. -/

/-- The bytes that leave the cursor where it is or move it on within the line. -/
def OnRow (ch : BitVec 8) : Prop :=
  LaidOut ch ∧ ch ≠ 0x0A ∧ ch ≠ 0x0B ∧ ch ≠ 0x0D

instance : DecidablePred OnRow :=
  fun _ => inferInstanceAs (Decidable (_ ∧ _))

/-- The cells that a byte takes. -/
def glyph (entry : BitVec 8 → Cell) (ch : BitVec 8) : List Cell :=
  if 0x20 ≤ ch.toNat ∧ ch.toNat ≤ 0x7E then [entry ch]
  else if ch = 0x09 then List.replicate tabSize (entry 0)
  else []

/-- The blanks behind so many cells; there are some even if a row is full. -/
def rowEnd (width : Nat) (blank : Cell) (count : Nat) : List Cell :=
  List.replicate (width - count % width) blank

def lineCells (width : Nat) (entry : BitVec 8 → Cell)
    (line : List (BitVec 8)) : List Cell :=
  line.flatMap (glyph entry) ++
    rowEnd width (entry 0) (line.flatMap (glyph entry)).length

def textCells (width : Nat) (entry : BitVec 8 → Cell)
    (lines : List (List (BitVec 8))) : List Cell :=
  lines.flatMap (lineCells width entry)

/-- The cells come first on the canvas, the cursor stands behind them, and the
rest is blank. -/
structure Canvas.Reads (canvas : Canvas) (blank : Cell) (cells : List Cell) :
    Prop where
  cursor : canvas.cursor = cells.length
  cells : ∀ index, canvas.cells index = cells.getD index blank

section

variable {width : Nat} {entry : BitVec 8 → Cell} {canvas : Canvas}
  {cells : List Cell}

theorem blankCanvas_reads (blank : Cell) :
    (blankCanvas blank).Reads blank [] where
  cursor := rfl
  cells _ := rfl

theorem getD_append_replicate (cells : List Cell) (blank : Cell)
    (count index : Nat) :
    (cells ++ List.replicate count blank).getD index blank =
      cells.getD index blank := by
  rcases Nat.lt_or_ge index cells.length with hlt | hge
  · rw [List.getD_append _ _ _ _ hlt]
  · rw [List.getD_append_right _ _ _ _ hge,
      List.getD_eq_default _ _ hge, List.getD_eq_getElem?_getD,
      List.getElem?_getD_replicate_default_eq]

theorem Canvas.Reads.blanks (hreads : canvas.Reads (entry 0) cells)
    {cursor count : Nat} (hcursor : cursor = cells.length + count) :
    (⟨canvas.cells, cursor⟩ : Canvas).Reads (entry 0)
      (cells ++ List.replicate count (entry 0)) where
  cursor := by
    rw [List.length_append, List.length_replicate]
    exact hcursor
  cells index := by
    rw [getD_append_replicate]
    exact hreads.cells index

theorem Canvas.Reads.written (hreads : canvas.Reads (entry 0) cells)
    (cell : Cell) :
    (⟨Function.update canvas.cells canvas.cursor cell, canvas.cursor + 1⟩ :
      Canvas).Reads (entry 0) (cells ++ [cell]) where
  cursor := by
    rw [List.length_append, List.length_singleton]
    exact congrArg Nat.succ hreads.cursor
  cells index := by
    simp only [hreads.cursor]
    rcases Nat.lt_trichotomy index cells.length with hlt | rfl | hgt
    · rw [Function.update_of_ne (Nat.ne_of_lt hlt), hreads.cells,
        List.getD_append _ _ _ _ hlt]
    · rw [Function.update_self, List.getD_append_right _ _ _ _ (Nat.le_refl _),
        Nat.sub_self]
      rfl
    · rw [Function.update_of_ne (Nat.ne_of_gt hgt), hreads.cells,
        List.getD_eq_default _ _ (Nat.le_of_lt hgt), List.getD_eq_default]
      rw [List.length_append, List.length_singleton]
      exact hgt

theorem Canvas.Reads.put (hreads : canvas.Reads (entry 0) cells)
    {ch : BitVec 8} (hch : OnRow ch) :
    (canvas.put width entry ch).Reads (entry 0) (cells ++ glyph entry ch) := by
  obtain ⟨-, hline, hvertical, hreturn⟩ := hch
  unfold Canvas.put glyph
  split
  · exact hreads.written (entry ch)
  · split
    · exact hreads.blanks (congrArg (· + tabSize) hreads.cursor)
    · rw [List.append_nil]
      exact hreads

theorem Canvas.Reads.puts (hreads : canvas.Reads (entry 0) cells)
    {line : List (BitVec 8)} (hline : ∀ ch ∈ line, OnRow ch) :
    (canvas.puts width entry line).Reads (entry 0)
      (cells ++ line.flatMap (glyph entry)) := by
  induction line generalizing canvas cells with
  | nil =>
      rw [List.flatMap_nil, List.append_nil]
      exact hreads
  | cons ch line ih =>
      have hput : (canvas.put width entry ch).Reads (entry 0) _ :=
        hreads.put (hline ch (.head _))
      have hrest := ih hput fun other hother => hline other (.tail _ hother)
      rw [List.append_assoc] at hrest
      exact hrest

theorem Canvas.Reads.lineFeed (hreads : canvas.Reads (entry 0) cells)
    (hwidth : 1 ≤ width) :
    (canvas.put width entry 0x0A).Reads (entry 0)
      (cells ++ rowEnd width (entry 0) cells.length) := by
  have hput : canvas.put width entry 0x0A =
      ⟨canvas.cells, (canvas.cursor / width + 1) * width⟩ := rfl
  rw [hput]
  refine hreads.blanks ?_
  have hmod := Nat.mod_lt cells.length hwidth
  have hsplit := Nat.div_add_mod' cells.length width
  rw [hreads.cursor, Nat.add_mul, Nat.one_mul]
  omega

theorem length_lineCells (hwidth : 1 ≤ width) (line : List (BitVec 8)) :
    (lineCells width entry line).length =
      ((line.flatMap (glyph entry)).length / width + 1) * width := by
  have hmod := Nat.mod_lt (line.flatMap (glyph entry)).length hwidth
  have hsplit := Nat.div_add_mod' (line.flatMap (glyph entry)).length width
  rw [lineCells, List.length_append, rowEnd, List.length_replicate, Nat.add_mul,
    Nat.one_mul]
  omega

theorem textCells_append_singleton (lines : List (List (BitVec 8)))
    (line : List (BitVec 8)) :
    textCells width entry (lines ++ [line]) =
      textCells width entry lines ++ lineCells width entry line := by
  rw [textCells, List.flatMap_append, List.flatMap_singleton]
  rfl

theorem dvd_length_textCells (hwidth : 1 ≤ width)
    (lines : List (List (BitVec 8))) :
    width ∣ (textCells width entry lines).length := by
  induction lines with
  | nil => exact Nat.dvd_zero width
  | cons line lines ih =>
      rw [textCells, List.flatMap_cons, List.length_append,
        length_lineCells hwidth]
      exact Nat.dvd_add (Nat.dvd_mul_left _ _) ih

theorem Canvas.Reads.line (hwidth : 1 ≤ width)
    {lines : List (List (BitVec 8))} {line : List (BitVec 8)}
    (hreads : canvas.Reads (entry 0) (textCells width entry lines))
    (hline : ∀ ch ∈ line, OnRow ch) :
    (canvas.puts width entry (line ++ [0x0A])).Reads (entry 0)
      (textCells width entry (lines ++ [line])) := by
  obtain ⟨rows, hlength⟩ := @dvd_length_textCells width entry hwidth lines
  have hputs : (canvas.puts width entry line).Reads (entry 0) _ :=
    hreads.puts hline
  have hfeed := hputs.lineFeed hwidth
  rw [rowEnd, List.length_append, hlength, Nat.mul_add_mod,
    List.append_assoc] at hfeed
  rw [Canvas.puts, List.foldl_append, textCells_append_singleton]
  exact hfeed

end

/-! The last rows of the text are what the console shows. -/

/-- The cells that have left the screen. -/
def scrolledOut (width height : Nat) (cells : List Cell) : Nat :=
  (cells.length / width - (height - 1)) * width

structure Console.Displays (console : Console) (width height : Nat)
    (blank : Cell) (text : List Cell) : Prop where
  cells : ∀ index < width * height, console.displayBuffer index =
    text.getD (index + scrolledOut width height text) blank
  cursor : console.cursorPos + scrolledOut width height text = text.length
  on_screen : console.cursorPos < width * height

theorem Console.Shows.displays {console : Console} {canvas : Canvas}
    {width height : Nat} {entry : BitVec 8 → Cell} {cells : List Cell}
    (hshows : console.Shows canvas width height entry)
    (hreads : canvas.Reads (entry 0) cells) :
    console.Displays width height (entry 0) cells := by
  have htop : canvas.top width height * width =
      scrolledOut width height cells := by
    rw [Canvas.top, hreads.cursor, scrolledOut]
  refine ⟨?_, ?_, hshows.on_screen⟩
  · intro index hindex
    rw [hshows.cells index hindex, hreads.cells, htop]
  · rw [← htop, ← hreads.cursor]
    exact hshows.cursor

/-! What has been stored to is never forgotten. -/

namespace Console

variable {index : Nat}

theorem stores_setCursorPos (console : Console) (x y : Nat) :
    (console.setCursorPos x y).stores = console.stores := rfl

theorem mem_copyRow {i t count : Nat} {console : Console}
    (hmem : index ∈ console.stores) :
    index ∈ (copyRow i t count console).stores := by
  induction count generalizing t console with
  | zero => exact hmem
  | succ count ih => exact ih (.tail _ hmem)

theorem mem_copyRows {i count : Nat} {console : Console}
    (hmem : index ∈ console.stores) :
    index ∈ (copyRows i count console).stores := by
  induction count generalizing i console with
  | zero => exact hmem
  | succ count ih => exact ih (mem_copyRow hmem)

theorem mem_blankCells {start i count : Nat} {console : Console}
    (hmem : index ∈ console.stores ∨
      start + i ≤ index ∧ index < start + i + count) :
    index ∈ (blankCells start i count console).stores := by
  induction count generalizing i console with
  | zero =>
      rcases hmem with hold | hnew
      · exact hold
      · omega
  | succ count ih =>
      apply ih
      rcases hmem with hold | hnew
      · exact .inl (.tail _ hold)
      · rcases Nat.eq_or_lt_of_le hnew.1 with rfl | hlater
        · exact .inl (.head _)
        · exact .inr (by omega)

theorem mem_scroll {console : Console} (hmem : index ∈ console.stores) :
    index ∈ console.scroll.stores := by
  rw [scroll, stores_setCursorPos]
  exact mem_blankCells (.inl (mem_copyRows hmem))

theorem mem_clearScreen {console : Console}
    (hmem : index ∈ console.stores ∨ index < console.area) :
    index ∈ console.clearScreen.stores := by
  rw [clearScreen, stores_setCursorPos]
  exact mem_blankCells (hmem.imp_right fun hlt => ⟨by omega, by omega⟩)

theorem mem_scrollRep {fuel : Nat} {console after : Console}
    (hafter : scrollRep fuel console = .ok after)
    (hmem : index ∈ console.stores) : index ∈ after.stores := by
  induction fuel generalizing console with
  | zero => cases hafter
  | succ fuel ih =>
      rw [scrollRep] at hafter
      split at hafter
      · exact ih hafter (mem_scroll hmem)
      · cases hafter
        exact hmem

theorem mem_putChar {console : Console} (ch : BitVec 8)
    (hmem : index ∈ console.stores) : index ∈ (console.putChar ch).stores := by
  unfold putChar
  repeat' split
  · exact .tail _ hmem
  all_goals first | exact hmem | exact mem_clearScreen (.inl hmem)

theorem mem_printChars {str : List (BitVec 8)} {console after : Console}
    (hafter : printChars str console = .ok after)
    (hmem : index ∈ console.stores) : index ∈ after.stores := by
  induction str generalizing console with
  | nil =>
      cases hafter
      exact hmem
  | cons ch str ih =>
      rw [printChars] at hafter
      cases hscroll : scrollRep (2 ^ 16) (console.putChar ch) with
      | error fault =>
          rw [hscroll] at hafter
          cases hafter
      | ok middle =>
          have hmiddle := mem_scrollRep hscroll (mem_putChar ch hmem)
          simp only [hscroll] at hafter
          split at hafter
          · cases hafter
            exact hmiddle
          · exact ih hafter hmiddle

theorem mem_archPrint {str : List (BitVec 8)} {console after : Console}
    (hafter : console.archPrint str = .ok after)
    (hmem : index ∈ console.stores) : index ∈ after.stores := by
  rw [archPrint] at hafter
  cases hprint : printChars str console with
  | error fault =>
      rw [hprint] at hafter
      cases hafter
  | ok last =>
      have hlast := mem_printChars hprint hmem
      rw [hprint] at hafter
      cases hafter
      exact hlast

theorem mem_run {strings : List (List (BitVec 8))} {console last : Console}
    (hrun : consoleMachine.run console strings = .ok last)
    (hmem : index ∈ console.stores) : index ∈ last.stores := by
  induction strings generalizing console with
  | nil =>
      cases hrun
      exact hmem
  | cons str strings ih =>
      obtain ⟨middle, hmiddle, hrest⟩ := Machine.run_cons_ok.mp hrun
      exact ih hrest (mem_archPrint hmiddle hmem)

end Console

end Synos.Printk

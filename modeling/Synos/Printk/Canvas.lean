import Synos.Printk.Print
import Mathlib.Tactic.Ring

namespace Synos.Printk

open Synos.Data

/-! The text laid out on a canvas without a last row, and the console as a
window on it. -/

structure Canvas where
  cells : Nat → Cell
  cursor : Nat

def blankCanvas (blank : Cell) : Canvas := ⟨fun _ => blank, 0⟩

/-- The bytes whose effect on the canvas is fixed: not the null byte, not a
backspace and not a form feed. -/
def LaidOut (ch : BitVec 8) : Prop := ch ≠ 0 ∧ ch ≠ 0x08 ∧ ch ≠ 0x0C

instance : DecidablePred LaidOut :=
  fun _ => inferInstanceAs (Decidable (_ ∧ _))

def Canvas.put (width : Nat) (entry : BitVec 8 → Cell) (canvas : Canvas)
    (ch : BitVec 8) : Canvas :=
  if 0x20 ≤ ch.toNat ∧ ch.toNat ≤ 0x7E then
    ⟨Function.update canvas.cells canvas.cursor (entry ch), canvas.cursor + 1⟩
  else if ch = 0x09 then ⟨canvas.cells, canvas.cursor + tabSize⟩
  else if ch = 0x0A then
    ⟨canvas.cells, (canvas.cursor / width + 1) * width⟩
  else if ch = 0x0B then ⟨canvas.cells, canvas.cursor + width⟩
  else if ch = 0x0D then ⟨canvas.cells, canvas.cursor / width * width⟩
  else canvas

def Canvas.puts (width : Nat) (entry : BitVec 8 → Cell) (canvas : Canvas)
    (str : List (BitVec 8)) : Canvas :=
  str.foldl (Canvas.put width entry) canvas

/-- The first row of the window that ends at the row of the cursor. -/
def Canvas.top (canvas : Canvas) (width height : Nat) : Nat :=
  canvas.cursor / width - (height - 1)

/-- The sizes for which no cursor position wraps. -/
structure Fits (width height : Nat) : Prop where
  width_pos : 1 ≤ width
  height_pos : 1 ≤ height
  area_le : width * height + max width tabSize ≤ 2 ^ 16

/-- The console shows the rows of the canvas from `first` on. -/
structure Console.ShowsFrom (console : Console) (canvas : Canvas)
    (width height first : Nat) (entry : BitVec 8 → Cell) : Prop where
  width_eq : console.width = width
  height_eq : console.height = height
  entry_eq : console.entry = entry
  cells : ∀ index < width * height,
    console.displayBuffer index = canvas.cells (index + first * width)
  cursor : console.cursorPos + first * width = canvas.cursor
  stores : ∀ index ∈ console.stores, index < width * height

/-- The console shows the rows up to that of the cursor. -/
structure Console.Shows (console : Console) (canvas : Canvas)
    (width height : Nat) (entry : BitVec 8 → Cell) : Prop extends
    console.ShowsFrom canvas width height (canvas.top width height) entry where
  on_screen : console.cursorPos < width * height
  blank_below : ∀ index, (canvas.cursor / width + 1) * width ≤ index →
    canvas.cells index = entry 0

/-! The canvas under one character. -/

section

variable {width : Nat} {entry : BitVec 8 → Cell} (canvas : Canvas)
  (ch : BitVec 8)

theorem Canvas.put_row_le (hwidth : 1 ≤ width) :
    canvas.cursor / width ≤ (canvas.put width entry ch).cursor / width := by
  have hmono : ∀ offset,
      canvas.cursor / width ≤ (canvas.cursor + offset) / width :=
    fun offset => Nat.div_le_div_right (Nat.le_add_right _ _)
  unfold Canvas.put
  split
  · exact hmono 1
  · split
    · exact hmono tabSize
    · split
      · rw [Nat.mul_div_cancel _ hwidth]
        exact Nat.le_succ _
      · split
        · exact hmono width
        · split
          · rw [Nat.mul_div_cancel _ hwidth]
          · exact Nat.le_refl _

theorem Canvas.put_cells_of_ne {index : Nat} (hne : index ≠ canvas.cursor) :
    (canvas.put width entry ch).cells index = canvas.cells index := by
  unfold Canvas.put
  repeat' split
  · exact Function.update_of_ne hne _ _
  all_goals rfl

theorem Canvas.put_blank_below (hwidth : 1 ≤ width)
    (hblank : ∀ index, (canvas.cursor / width + 1) * width ≤ index →
      canvas.cells index = entry 0) {index : Nat}
    (hindex : (canvas.cursor / width + 1) * width ≤ index) :
    (canvas.put width entry ch).cells index = entry 0 := by
  have hlt : canvas.cursor < (canvas.cursor / width + 1) * width :=
    (Nat.div_lt_iff_lt_mul hwidth).mp (Nat.lt_succ_self _)
  rw [canvas.put_cells_of_ne ch (by omega), hblank index hindex]

end

/-! Scrolling moves the window down. -/

section

variable {console : Console} {canvas : Canvas} {width height first : Nat}
  {entry : BitVec 8 → Cell}

theorem Fits.area_eq (hfits : Fits width height)
    (hshows : console.ShowsFrom canvas width height first entry) :
    console.area = width * height := by
  have := hfits.area_le
  rw [Console.area, hshows.width_eq, hshows.height_eq]
  exact Nat.mod_eq_of_lt (by omega)

theorem Fits.rows (hfits : Fits width height) :
    (height - 1) * width + width = width * height := by
  obtain ⟨rows, hrows⟩ := Nat.exists_eq_add_of_le hfits.height_pos
  rw [hrows, Nat.add_sub_cancel_left]
  ring

theorem Console.ShowsFrom.scroll (hfits : Fits width height)
    (hshows : console.ShowsFrom canvas width height first entry)
    (hsmall : console.cursorPos < 2 ^ 16)
    (hbelow : width * height ≤ console.cursorPos)
    (hblank : ∀ index, (first + height) * width ≤ index →
      canvas.cells index = entry 0) :
    console.scroll.ShowsFrom canvas width height (first + 1) entry ∧
      console.scroll.cursorPos + width = console.cursorPos := by
  have hrows := hfits.rows
  have hwidth := hfits.width_pos
  have hcursor : console.scroll.cursorPos + width = console.cursorPos := by
    have hrow : 1 ≤ console.cursorPos / width := by
      rw [Nat.le_div_iff_mul_le hwidth]
      omega
    have hle : console.cursorPos / width ≤ console.cursorPos :=
      Nat.div_le_self _ _
    have hpred : (console.cursorPos / width + (2 ^ 32 - 1)) % 2 ^ 32 =
        console.cursorPos / width - 1 := by omega
    have hsplit := Nat.div_add_mod' console.cursorPos width
    have hmul : (console.cursorPos / width - 1) * width + width =
        console.cursorPos / width * width := by
      calc (console.cursorPos / width - 1) * width + width
          = (console.cursorPos / width - 1 + 1) * width :=
            (Nat.succ_mul _ _).symm
        _ = console.cursorPos / width * width := by
            rw [Nat.sub_add_cancel hrow]
    rw [console.scroll_rest]
    simp only [hshows.width_eq, hpred]
    rw [Nat.mod_eq_of_lt (by omega)]
    omega
  have hsame : console.scroll.width = width ∧
      console.scroll.height = height ∧ console.scroll.entry = entry := by
    rw [console.scroll_rest]
    exact ⟨hshows.width_eq, hshows.height_eq, hshows.entry_eq⟩
  refine ⟨⟨hsame.1, hsame.2.1, hsame.2.2, ?_, ?_, ?_⟩, hcursor⟩
  · intro index hindex
    rw [console.scroll_displayBuffer, hshows.width_eq, hshows.height_eq, hrows,
      hshows.entry_eq]
    by_cases hupper : index < (height - 1) * width
    · rw [if_pos hupper, hshows.cells _ (by omega)]
      congr 1
      ring
    · rw [if_neg hupper, if_pos hindex, hblank]
      have hbase : (first + height) * width =
          (first + 1) * width + (height - 1) * width := by
        rw [← Nat.add_mul]
        congr 1
        have := hfits.height_pos
        omega
      omega
  · have hold := hshows.cursor
    rw [Nat.add_mul]
    omega
  · intro index hmem
    have hstores := console.scroll_stores index hmem
    rw [hshows.width_eq, hshows.height_eq, hrows] at hstores
    cases hstores with
    | inl hold => exact hshows.stores index hold
    | inr hlt => exact hlt

/-- The loop at `scrollRep` scrolls once for each row the cursor is below the
last one. -/
theorem Console.ShowsFrom.scrollRep (hfits : Fits width height) {rows fuel : Nat}
    (hfuel : rows < fuel)
    (hshows : console.ShowsFrom canvas width height first entry)
    (hsmall : console.cursorPos < 2 ^ 16)
    (hblank : ∀ index, (first + height) * width ≤ index →
      canvas.cells index = entry 0)
    (hrows : canvas.cursor / width - (first + (height - 1)) = rows) :
    ∃ after, Console.scrollRep fuel console = .ok after ∧
      after.ShowsFrom canvas width height (first + rows) entry ∧
      after.cursorPos < width * height := by
  have hwidth := hfits.width_pos
  have hheight := hfits.height_pos
  induction rows generalizing console first fuel with
  | zero =>
      obtain ⟨fuel, rfl⟩ : ∃ less, fuel = less + 1 :=
        ⟨fuel - 1, by omega⟩
      have hlt : console.cursorPos < width * height := by
        have hrow : canvas.cursor / width < first + height := by omega
        rw [Nat.div_lt_iff_lt_mul hwidth, ← hshows.cursor, Nat.add_mul] at hrow
        rw [Nat.mul_comm]
        omega
      refine ⟨console, ?_, hshows, hlt⟩
      rw [Console.scrollRep, hfits.area_eq hshows, if_neg (by omega)]
  | succ rows ih =>
      obtain ⟨fuel, rfl⟩ : ∃ less, fuel = less + 1 :=
        ⟨fuel - 1, by omega⟩
      have hbelow : width * height ≤ console.cursorPos := by
        have hrow : first + height ≤ canvas.cursor / width := by omega
        rw [Nat.le_div_iff_mul_le hwidth, ← hshows.cursor, Nat.add_mul] at hrow
        rw [Nat.mul_comm]
        omega
      obtain ⟨hscrolled, hcursor⟩ := hshows.scroll hfits hsmall hbelow hblank
      obtain ⟨after, hafter, hafterShows, hlt⟩ := ih
        (show rows < fuel by omega) hscrolled
        (by omega)
        (fun index hindex => hblank index (by
          rw [Nat.add_mul, Nat.add_mul] at *
          omega)) (by omega)
      refine ⟨after, ?_, ?_, hlt⟩
      · rw [Console.scrollRep, hfits.area_eq hshows, if_pos hbelow]
        exact hafter
      · rw [Nat.add_comm rows, ← Nat.add_assoc]
        exact hafterShows

theorem Console.ShowsFrom.moved
    (hshows : console.ShowsFrom canvas width height first entry)
    {cursorPos cursor : Nat} (hcursor : cursorPos + first * width = cursor) :
    ({ console with cursorPos := cursorPos } : Console).ShowsFrom
      ⟨canvas.cells, cursor⟩ width height first entry :=
  ⟨hshows.width_eq, hshows.height_eq, hshows.entry_eq, hshows.cells, hcursor,
    hshows.stores⟩

theorem Console.Shows.stored
    (hshows : console.Shows canvas width height entry) (ch : BitVec 8) :
    ({ console.store console.cursorPos (console.entry ch) with
        cursorPos := console.cursorPos + 1 } : Console).ShowsFrom
      ⟨Function.update canvas.cells canvas.cursor (entry ch),
        canvas.cursor + 1⟩ width height (canvas.top width height) entry := by
  have hcursor := hshows.cursor
  refine ⟨hshows.width_eq, hshows.height_eq, hshows.entry_eq, ?_, ?_, ?_⟩
  · intro index hindex
    have hcells := hshows.cells index hindex
    simp only [Console.store, hshows.entry_eq]
    by_cases heq : index = console.cursorPos
    · rw [heq, Function.update_self, hcursor, Function.update_self]
    · rw [Function.update_of_ne heq, Function.update_of_ne (by omega)]
      exact hcells
  · simp only
    omega
  · intro index hmem
    cases hmem with
    | head => exact hshows.on_screen
    | tail _ hmem => exact hshows.stores index hmem

theorem Console.Shows.putChar (hfits : Fits width height)
    (hshows : console.Shows canvas width height entry) {ch : BitVec 8}
    (hch : LaidOut ch) :
    (console.putChar ch).ShowsFrom (canvas.put width entry ch) width height
        (canvas.top width height) entry ∧
      (console.putChar ch).cursorPos < 2 ^ 16 := by
  obtain rfl := hshows.width_eq
  have hwidth := hfits.width_pos
  have harea := hfits.area_le
  have hscreen := hshows.on_screen
  have hcursor := hshows.cursor
  have hrow : canvas.cursor / console.width =
      console.cursorPos / console.width + canvas.top console.width height := by
    rw [← hcursor, Nat.add_mul_div_right _ _ hwidth]
  have hle : console.cursorPos / console.width * console.width ≤ console.cursorPos :=
    Nat.div_mul_le_self _ _
  have hsplit := Nat.div_add_mod' console.cursorPos console.width
  have htab : tabSize ≤ max console.width tabSize := Nat.le_max_right _ _
  have hline : console.width ≤ max console.width tabSize := Nat.le_max_left _ _
  have htabSize : tabSize = 4 := rfl
  obtain ⟨hnull, hback, hfeed⟩ := hch
  unfold Console.putChar Canvas.put
  rw [if_neg hback, if_neg hfeed]
  split
  · rw [Nat.mod_eq_of_lt (by omega)]
    exact ⟨hshows.stored ch, by simp only; omega⟩
  · split
    · rw [Nat.mod_eq_of_lt (by omega)]
      exact ⟨hshows.moved (by omega), by simp only; omega⟩
    · split
      · simp only [Console.setCursorPos, Console.getCursorPosY,
          Nat.add_zero]
        rw [Nat.add_mul, Nat.one_mul, Nat.mod_eq_of_lt (by omega)]
        refine ⟨hshows.moved ?_, by omega⟩
        rw [hrow]
        ring
      · split
        · simp only [Console.setCursorPos, Console.getCursorPosX,
            Console.getCursorPosY]
          rw [Nat.add_mul, Nat.one_mul, Nat.mod_eq_of_lt (by omega)]
          exact ⟨hshows.moved (by omega), by omega⟩
        · split
          · simp only [Console.setCursorPos, Console.getCursorPosY,
              Nat.add_zero]
            rw [Nat.mod_eq_of_lt (by omega)]
            refine ⟨hshows.moved ?_, by omega⟩
            rw [hrow]
            ring
          · exact ⟨hshows.toShowsFrom, by omega⟩

end

/-! Whole strings. -/

def consoleMachine : Machine Fault Console (List (BitVec 8)) where
  step := Console.archPrint

section

variable {console : Console} {canvas : Canvas} {width height : Nat}
  {entry : BitVec 8 → Cell}

theorem Console.Shows.printChar (hfits : Fits width height)
    (hshows : console.Shows canvas width height entry) {ch : BitVec 8}
    (hch : LaidOut ch) :
    ∃ after, Console.scrollRep (2 ^ 16) (console.putChar ch) = .ok after ∧
      after.Shows (canvas.put width entry ch) width height entry := by
  have hwidth := hfits.width_pos
  obtain ⟨hput, hsmall⟩ := hshows.putChar hfits hch
  have hrow := @Canvas.put_row_le width entry canvas ch hwidth
  have hblank := fun index => @Canvas.put_blank_below width entry canvas ch
    hwidth hshows.blank_below index
  have hscreen : canvas.cursor / width <
      canvas.top width height + height := by
    have := hfits.height_pos
    unfold Canvas.top
    have hrowScreen : console.cursorPos / width < height := by
      rw [Nat.div_lt_iff_lt_mul hwidth, Nat.mul_comm]
      exact hshows.on_screen
    rw [← hshows.cursor, Nat.add_mul_div_right _ _ hwidth] at *
    unfold Canvas.top at *
    omega
  have hbelow : ∀ index, (canvas.top width height + height) * width ≤ index →
      (canvas.put width entry ch).cells index = entry 0 := by
    intro index hindex
    apply hblank
    exact (Nat.mul_le_mul_right width hscreen).trans hindex
  have hfew : (canvas.put width entry ch).cursor / width -
      (canvas.top width height + (height - 1)) < 2 ^ 16 := by
    have hdiv := Nat.div_le_self (console.putChar ch).cursorPos width
    rw [← hput.cursor, Nat.add_mul_div_right _ _ hwidth]
    omega
  obtain ⟨after, hafter, hafterShows, hlt⟩ :=
    hput.scrollRep hfits hfew hsmall hbelow rfl
  have htop : canvas.top width height +
      ((canvas.put width entry ch).cursor / width -
        (canvas.top width height + (height - 1))) =
      (canvas.put width entry ch).top width height := by
    unfold Canvas.top at *
    omega
  rw [htop] at hafterShows
  refine ⟨after, hafter, hafterShows, hlt, ?_⟩
  intro index hindex
  apply hblank
  exact (Nat.mul_le_mul_right width (Nat.succ_le_succ hrow)).trans hindex

theorem Console.Shows.printChars (hfits : Fits width height)
    {str : List (BitVec 8)} (hstr : ∀ ch ∈ str, LaidOut ch)
    (hshows : console.Shows canvas width height entry) :
    ∃ after, printChars str console = .ok after ∧
      after.Shows (canvas.puts width entry str) width height entry := by
  induction str generalizing console canvas with
  | nil => exact ⟨console, rfl, hshows⟩
  | cons ch str ih =>
      have hch := hstr ch (.head _)
      obtain ⟨middle, hmiddle, hmiddleShows⟩ := hshows.printChar hfits hch
      obtain ⟨after, hafter, hafterShows⟩ :=
        ih (fun other hother => hstr other (.tail _ hother)) hmiddleShows
      refine ⟨after, ?_, hafterShows⟩
      rw [Console.printChars, hmiddle]
      simp only [if_neg hch.1]
      exact hafter

theorem Console.Shows.setCursorPos (hfits : Fits width height)
    (hshows : console.Shows canvas width height entry) :
    console.setCursorPos console.getCursorPosX console.getCursorPosY =
      console := by
  have harea := hfits.area_le
  have hscreen := hshows.on_screen
  rw [Console.setCursorPos, Console.getCursorPosX, Console.getCursorPosY,
    Nat.div_add_mod', Nat.mod_eq_of_lt (by omega)]

theorem Console.Shows.archPrint_eq (hfits : Fits width height)
    {str : List (BitVec 8)} (hstr : ∀ ch ∈ str, LaidOut ch)
    (hshows : console.Shows canvas width height entry) :
    Console.archPrint console str = Console.printChars str console := by
  obtain ⟨after, hafter, hafterShows⟩ := hshows.printChars hfits hstr
  rw [Console.archPrint, hafter]
  simp only [hafterShows.setCursorPos hfits]

theorem printChars_append {first second : List (BitVec 8)}
    (hfirst : ∀ ch ∈ first, LaidOut ch) (console : Console) :
    Console.printChars (first ++ second) console =
      match Console.printChars first console with
      | .error fault => .error fault
      | .ok console => Console.printChars second console := by
  induction first generalizing console with
  | nil => rfl
  | cons ch first ih =>
      have hch := hfirst ch (.head _)
      simp only [List.cons_append, Console.printChars, if_neg hch.1]
      cases Console.scrollRep (2 ^ 16) (console.putChar ch) with
      | error fault => rfl
      | ok middle => exact ih (fun other hother => hfirst other (.tail _ hother)) middle

theorem Console.Shows.archPrint_append (hfits : Fits width height)
    {first second : List (BitVec 8)} (hfirst : ∀ ch ∈ first, LaidOut ch)
    (hsecond : ∀ ch ∈ second, LaidOut ch)
    (hshows : console.Shows canvas width height entry) :
    consoleMachine.run console [first, second] =
      Console.archPrint console (first ++ second) := by
  obtain ⟨middle, hmiddle, hmiddleShows⟩ := hshows.printChars hfits hfirst
  obtain ⟨after, hafter, -⟩ := hmiddleShows.printChars hfits hsecond
  have hboth : ∀ ch ∈ first ++ second, LaidOut ch := by
    intro ch hmem
    rw [List.mem_append] at hmem
    exact hmem.elim (hfirst ch) (hsecond ch)
  rw [hshows.archPrint_eq hfits hboth, printChars_append hfirst, hmiddle]
  simp only [Machine.run, consoleMachine]
  rw [hshows.archPrint_eq hfits hfirst, hmiddle]
  simp only
  rw [hmiddleShows.archPrint_eq hfits hsecond, hafter]

theorem Console.Shows.run (hfits : Fits width height)
    {strings : List (List (BitVec 8))}
    (hstrings : ∀ str ∈ strings, ∀ ch ∈ str, LaidOut ch)
    (hshows : console.Shows canvas width height entry) :
    ∃ last, consoleMachine.run console strings = .ok last ∧
      last.Shows (canvas.puts width entry strings.flatten) width height
        entry := by
  induction strings generalizing console canvas with
  | nil => exact ⟨console, rfl, hshows⟩
  | cons str strings ih =>
      have hstr := hstrings str (.head _)
      obtain ⟨middle, hmiddle, hmiddleShows⟩ := hshows.printChars hfits hstr
      obtain ⟨last, hlast, hlastShows⟩ :=
        ih (fun other hother => hstrings other (.tail _ hother)) hmiddleShows
      refine ⟨last, ?_, ?_⟩
      · rw [Machine.run_cons_ok]
        refine ⟨middle, ?_, hlast⟩
        exact (hshows.archPrint_eq hfits hstr).trans hmiddle
      · rw [List.flatten_cons, Canvas.puts, List.foldl_append]
        exact hlastShows

end

theorem clearScreen_shows {console : Console}
    (hfits : Fits console.width console.height)
    (hstores : console.stores = []) :
    console.clearScreen.Shows (blankCanvas (console.entry 0)) console.width
      console.height console.entry := by
  have hblank := Console.blankCells_blanked 0 0 console.area console
  have harea : console.area = console.width * console.height := by
    have := hfits.area_le
    exact Nat.mod_eq_of_lt (by omega)
  have hsame : console.clearScreen.width = console.width ∧
      console.clearScreen.height = console.height ∧
      console.clearScreen.entry = console.entry ∧
      console.clearScreen.cursorPos = 0 := by
    unfold Console.clearScreen Console.setCursorPos
    rw [hblank.rest]
    exact ⟨rfl, rfl, rfl, by simp⟩
  have hpos : 0 < console.width * console.height :=
    Nat.mul_pos hfits.width_pos hfits.height_pos
  have htop : (blankCanvas (console.entry 0)).top console.width
      console.height = 0 := by
    simp [Canvas.top, blankCanvas]
  refine ⟨⟨hsame.1, hsame.2.1, hsame.2.2.1, ?_, ?_, ?_⟩, ?_, ?_⟩
  · intro index hindex
    have hcell := hblank.cells index
    rw [if_pos ⟨by omega, by omega⟩] at hcell
    exact hcell
  · rw [hsame.2.2.2, htop, Nat.zero_mul]
    rfl
  · intro index hmem
    cases hblank.stores index hmem with
    | inl hold =>
        rw [hstores] at hold
        cases hold
    | inr hlt => omega
  · rw [hsame.2.2.2]
    exact hpos
  · intro index _
    rfl

/-- The console refines the canvas: whatever strings have been printed and
however far into the next one, the screen is the window of the canvas that ends
at the row of the cursor, every store fell on the screen, and joining two
strings changes nothing. -/
theorem archPrint_refines_canvas {console : Console}
    (hfits : Fits console.width console.height) (hstores : console.stores = [])
    {strings : List (List (BitVec 8))}
    (hstrings : ∀ str ∈ strings, ∀ ch ∈ str, LaidOut ch) :
    ∃ last,
      consoleMachine.run console.clearScreen strings = .ok last ∧
      last.Shows
        ((blankCanvas (console.entry 0)).puts console.width console.entry
          strings.flatten) console.width console.height console.entry ∧
      (∀ str : List (BitVec 8), (∀ ch ∈ str, LaidOut ch) →
        ∃ middle, Console.printChars str last = .ok middle ∧
          middle.Shows
            ((blankCanvas (console.entry 0)).puts console.width console.entry
              (strings.flatten ++ str)) console.width console.height
            console.entry) ∧
      ∀ first second : List (BitVec 8), (∀ ch ∈ first, LaidOut ch) →
        (∀ ch ∈ second, LaidOut ch) →
        consoleMachine.run last [first, second] =
          Console.archPrint last (first ++ second) := by
  obtain ⟨last, hrun, hlast⟩ :=
    (clearScreen_shows hfits hstores).run hfits hstrings
  refine ⟨last, hrun, hlast, ?_, ?_⟩
  · intro str hstr
    obtain ⟨middle, hmiddle, hshows⟩ := hlast.printChars hfits hstr
    refine ⟨middle, hmiddle, ?_⟩
    rw [Canvas.puts, List.foldl_append]
    exact hshows
  · intro first second hfirst hsecond
    exact hlast.archPrint_append hfits hfirst hsecond

def smallConsole : Console where
  displayBuffer := fun _ => 0
  width := 5
  height := 2
  foreColor := white
  backColor := black
  cursorPos := 0
  stores := []

/-- A tab, a line feed and a word that runs over the end of the screen. -/
theorem archPrint_refines_small :
    ∃ last, consoleMachine.run smallConsole.clearScreen
        [[0x09, 0x0A], [0x61, 0x62, 0x63, 0x64, 0x65, 0x66]] = .ok last ∧
      last.Shows
        ((blankCanvas 0x0F00).puts 5 smallConsole.entry
          [0x09, 0x0A, 0x61, 0x62, 0x63, 0x64, 0x65, 0x66]) 5 2
        smallConsole.entry := by
  obtain ⟨last, hrun, hlast, -⟩ := @archPrint_refines_canvas smallConsole
    ⟨by decide, by decide, by decide⟩ rfl
    [[0x09, 0x0A], [0x61, 0x62, 0x63, 0x64, 0x65, 0x66]] (by decide)
  exact ⟨last, hrun, hlast⟩

end Synos.Printk

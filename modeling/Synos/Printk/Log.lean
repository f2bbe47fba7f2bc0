import Synos.Boot.Multiboot
import Synos.Mutils.ArrayRun
import Synos.Printk.FormatExact
import Synos.Printk.Rows

namespace Synos.Printk

open Synos.Data (AccessFault Fault Machine)
open Synos.Mutils (AllocString ArrayT Roomy Sized StringBuffer newArray
  newArray_sized newString_takes arrayPush arrayPush_sized numeral numeral_chars
  decimalChar hexChar stringAllocLength)
open Synos.Boot (Framebuffer)

/-! The log on the screen: `printk_init`, and the calls of `printk` down to the
cells of the display buffer. Every `kmalloc` finds a block. -/

inductive LogFault
  | access (fault : AccessFault)
  | console (fault : Fault)
  deriving DecidableEq

/-- The globals of the log and of the console. -/
structure LogState where
  printkEnabled : Bool
  logs : ArrayT
  console : Console

/-- The globals as the kernel is loaded. -/
def loadedLog : LogState where
  printkEnabled := false
  logs := ⟨0, [], 0⟩
  console := ⟨fun _ => 0, 0, 0, white, black, 0, []⟩

/-- The console on the mapped pages, which hold `displayBuffer`. -/
def Console.mapped (console : Console) (framebuffer : Framebuffer)
    (displayBuffer : Nat → Cell) : Console :=
  { console with
    displayBuffer
    width := framebuffer.width.toNat
    height := framebuffer.height.toNat }

def archPrintkInit (framebuffer : Framebuffer) (displayBuffer : Nat → Cell)
    (console : Console) : Option Console :=
  if framebuffer.type ≠ .egaText then none
  else some (console.mapped framebuffer displayBuffer).clearScreen

/-- The order of the pages that `arch_printk_init` maps, whatever the size. -/
def displayOrder : Nat := 2

/-- A page holds 2048 cells. -/
def displayCells : Nat := 2 ^ displayOrder * 2048

/-- `printk_init`; a console that is not there is a panic. -/
def printkInit (framebuffer : Framebuffer) (displayBuffer : Nat → Cell)
    (fresh : Nat → BitVec 64) (state : LogState) : Except LogFault LogState :=
  match archPrintkInit framebuffer displayBuffer state.console with
  | none => .error (.console .panic)
  | some console => .ok ⟨true, newArray fresh, console⟩

/-- A call of `printk`; `own`, `fresh` and `logsFresh` are what the blocks it
gets hold beforehand, and `slot` is the address of its local variable `log`. -/
structure LogCall where
  level : LogLevel
  str : List UInt8
  args : List VarArg
  own : Nat → Nat → UInt8
  fresh : Nat → Nat → UInt8
  logsFresh : Nat → BitVec 64
  slot : BitVec 64

def toChars (str : List UInt8) : List (BitVec 8) := str.map UInt8.toBitVec

/-- `printk` with its effects, in a kernel that is built with `LOGLEVEL`. -/
def LogCall.run (logLevel : Nat) (call : LogCall) (state : LogState) :
    Except LogFault LogState := do
  let made ← (@printk AllocString _ logLevel state.printkEnabled call.own
    call.fresh call.level call.str call.args).mapError .access
  match made with
  | none => pure state
  | some printed =>
      let console ←
        if call.level.code ≤ logLevel then
          (consoleMachine.run state.console
            [toChars timeStamp, toChars (StringBuffer.text printed.lstr),
              [0x0A]]).mapError .console
        else pure state.console
      let logs ←
        (arrayPush call.logsFresh state.logs call.slot).mapError .access
      pure { state with logs, console }

inductive LogOp
  | printkInit (framebuffer : Framebuffer) (displayBuffer : Nat → Cell)
      (fresh : Nat → BitVec 64)
  | printk (call : LogCall)

def logMachine (logLevel : Nat) : Machine LogFault LogState LogOp where
  step state op :=
    match op with
    | .printkInit framebuffer displayBuffer fresh =>
        printkInit framebuffer displayBuffer fresh state
    | .printk call => call.run logLevel state

/-! ### Calls that print a line -/

/-- A call whose format and arguments are given by pieces. -/
structure LogLine where
  level : LogLevel
  pieces : List Piece
  own : Nat → Nat → UInt8
  fresh : Nat → Nat → UInt8
  logsFresh : Nat → BitVec 64
  slot : BitVec 64

namespace LogLine

def call (line : LogLine) : LogCall where
  level := line.level
  str := line.pieces.flatMap Piece.format ++ [0]
  args := line.pieces.flatMap Piece.args
  own := line.own
  fresh := line.fresh
  logsFresh := line.logsFresh
  slot := line.slot

/-- The line is severe enough for the screen. -/
def Shown (logLevel : Nat) (line : LogLine) : Prop :=
  line.level.code ≤ logLevel

instance (logLevel : Nat) : DecidablePred (Shown logLevel) :=
  fun line => inferInstanceAs (Decidable (line.level.code ≤ logLevel))

def text (line : LogLine) : List (BitVec 8) :=
  toChars (timeStamp ++ line.pieces.flatMap Piece.produced)

end LogLine

/-- The piece is printed, and does not end the line. -/
def Piece.OnLine : Piece → Prop
  | literal c _ _ => OnRow c.toBitVec
  | s text _ => ∀ c ∈ text, OnRow c.toBitVec
  | piece => ¬ piece.Zero

instance : (piece : Piece) → Decidable piece.OnLine
  | .literal c _ _ => inferInstanceAs (Decidable (OnRow c.toBitVec))
  | .s text _ => List.decidableBAll (fun c : UInt8 => OnRow c.toBitVec) text
  | .d value => inferInstanceAs (Decidable (¬ (Piece.d value).Zero))
  | .i value => inferInstanceAs (Decidable (¬ (Piece.i value).Zero))
  | .u value => inferInstanceAs (Decidable (¬ (Piece.u value).Zero))
  | .x value => inferInstanceAs (Decidable (¬ (Piece.x value).Zero))
  | .upperX value => inferInstanceAs (Decidable (¬ (Piece.upperX value).Zero))
  | .percent => inferInstanceAs (Decidable (¬ Piece.percent.Zero))

/-- The pieces are printed on one line, and `string_append` has room for each part
of their message. -/
structure Printable (pieces : List Piece) : Prop where
  onLine : ∀ piece ∈ pieces, piece.OnLine
  roomy : Roomy 0 stringAllocLength (segments [] pieces)

instance : DecidablePred Printable := fun pieces =>
  decidable_of_iff ((∀ piece ∈ pieces, piece.OnLine) ∧
      Roomy 0 stringAllocLength (segments [] pieces))
    ⟨fun h => ⟨h.1, h.2⟩, fun h => ⟨h.onLine, h.roomy⟩⟩

theorem Piece.OnLine.not_zero {piece : Piece} (honline : piece.OnLine) :
    ¬ piece.Zero := by
  cases piece with
  | literal c terminal plain => exact id
  | s text terminal => exact id
  | d value => exact honline
  | i value => exact honline
  | u value => exact honline
  | x value => exact honline
  | upperX value => exact honline
  | percent => exact honline

theorem Piece.OnLine.onRow {piece : Piece} (honline : piece.OnLine) :
    ∀ c ∈ piece.produced, OnRow c.toBitVec := by
  have hdecimal : ∀ digit < 10, OnRow (decimalChar digit).toBitVec := by decide
  have hhex : ∀ digit < 16, OnRow (hexChar digit).toBitVec := by decide
  have hlower : ∀ digit < 16, OnRow (lowerHexChar digit).toBitVec := by decide
  cases piece with
  | literal c terminal plain =>
      intro other hother
      rw [List.mem_singleton.mp hother]
      exact honline
  | s text terminal => exact honline
  | d value => exact numeral_chars (by decide) hdecimal
  | i value => exact numeral_chars (by decide) hdecimal
  | u value => exact numeral_chars (by decide) hdecimal
  | x value => exact numeral_chars (by decide) hlower
  | upperX value => exact numeral_chars (by decide) hhex
  | percent =>
      intro other hother
      rw [List.mem_singleton.mp hother]
      decide

theorem LogLine.text_onRow {line : LogLine}
    (hprintable : Printable line.pieces) : ∀ ch ∈ line.text, OnRow ch := by
  intro ch hch
  obtain ⟨c, hc, rfl⟩ := List.mem_map.mp hch
  rcases List.mem_append.mp hc with hstamp | hpieces
  · have hall : timeStamp.all fun c => OnRow c.toBitVec := by decide
    exact of_decide_eq_true (List.all_eq_true.mp hall c hstamp)
  · obtain ⟨piece, hpiece, hmem⟩ := List.mem_flatMap.mp hpieces
    exact (hprintable.onLine piece hpiece).onRow c hmem

theorem LogLine.text_laidOut {line : LogLine}
    (hprintable : Printable line.pieces) : ∀ ch ∈ line.text, LaidOut ch :=
  fun ch hch => (LogLine.text_onRow hprintable ch hch).1

/-! ### Runs -/

/-- The lines that are severe enough, as they are printed. -/
def shownTexts (logLevel : Nat) (lines : List LogLine) :
    List (List (BitVec 8)) :=
  (lines.filter fun line => decide (line.Shown logLevel)).map LogLine.text

theorem shownTexts_append (logLevel : Nat) (lines : List LogLine)
    (line : LogLine) :
    shownTexts logLevel (lines ++ [line]) =
      if line.Shown logLevel then shownTexts logLevel lines ++ [line.text]
      else shownTexts logLevel lines := by
  rw [shownTexts, List.filter_append, List.map_append]
  by_cases hshown : line.Shown logLevel
  · rw [if_pos hshown, List.filter_singleton, decide_eq_true hshown]
    rfl
  · rw [if_neg hshown, List.filter_singleton, decide_eq_false hshown]
    exact List.append_nil _

/-- So far the lines have been logged, on a screen that has been blanked. -/
structure LogState.Logged (state : LogState) (logLevel width height : Nat)
    (entry : BitVec 8 → Cell) (lines : List LogLine) : Prop where
  enabled : state.printkEnabled = true
  logs : Sized (lines.map LogLine.slot) state.logs
  console : ∃ canvas, state.console.Shows canvas width height entry ∧
    canvas.Reads (entry 0) (textCells width entry (shownTexts logLevel lines))
  blanked : ∀ index < width * height, index ∈ state.console.stores

section

variable {logLevel width height : Nat} {entry : BitVec 8 → Cell}
  {state : LogState}

theorem LogState.Logged.print (hfits : Fits width height)
    {lines : List LogLine}
    (hlogged : state.Logged logLevel width height entry lines)
    {line : LogLine} (hprintable : Printable line.pieces) {text : List UInt8}
    (htext : text = line.pieces.flatMap Piece.produced) :
    ∃ console, consoleMachine.run state.console
        [toChars timeStamp, toChars text, [0x0A]] = .ok console ∧
      (∃ canvas, console.Shows canvas width height entry ∧
        canvas.Reads (entry 0)
          (textCells width entry (shownTexts logLevel lines ++ [line.text]))) ∧
      ∀ index ∈ state.console.stores, index ∈ console.stores := by
  obtain ⟨canvas, hshows, hreads⟩ := hlogged.console
  have hjoined : [toChars timeStamp, toChars text, [0x0A]].flatten =
      line.text ++ [0x0A] := by
    rw [htext, LogLine.text, toChars, toChars, toChars, List.map_append]
    simp
  have hlaid : ∀ str ∈ [toChars timeStamp, toChars text, [0x0A]],
      ∀ ch ∈ str, LaidOut ch := by
    intro str hstr ch hch
    have hmem : ch ∈ line.text ++ [0x0A] := by
      rw [← hjoined]
      exact List.mem_flatten.mpr ⟨str, hstr, hch⟩
    rcases List.mem_append.mp hmem with hline | hfeed
    · exact LogLine.text_laidOut hprintable ch hline
    · rw [List.mem_singleton.mp hfeed]
      decide
  obtain ⟨console, hrun, hafter⟩ := hshows.run hfits hlaid
  rw [hjoined] at hafter
  refine ⟨console, hrun, ⟨_, hafter, ?_⟩, ?_⟩
  · exact hreads.line hfits.width_pos (LogLine.text_onRow hprintable)
  · intro index hindex
    exact Console.mem_run hrun hindex

theorem printk_of_enabled {line : LogLine}
    (henabled : state.printkEnabled = true) :
    @printk AllocString _ logLevel state.printkEnabled line.own line.fresh
        line.level (line.pieces.flatMap Piece.format ++ [0])
        (line.pieces.flatMap Piece.args) =
      printkPieces logLevel line.own line.fresh line.level line.pieces := by
  rw [henabled]
  rfl

theorem LogLine.run_shown {line : LogLine} {printed : Printed AllocString}
    {console : Console} {logs : ArrayT}
    (hprintk : printkPieces logLevel line.own line.fresh line.level
      line.pieces = .ok (some printed))
    (hshown : line.Shown logLevel) (henabled : state.printkEnabled = true)
    (hconsole : consoleMachine.run state.console
      [toChars timeStamp, toChars (StringBuffer.text printed.lstr), [0x0A]] =
        .ok console)
    (hlogs : arrayPush line.logsFresh state.logs line.slot = .ok logs) :
    line.call.run logLevel state = .ok { state with logs, console } := by
  have hcalled := (printk_of_enabled henabled).trans hprintk
  have hlevel : line.level.code ≤ logLevel := hshown
  simp only [LogCall.run, LogLine.call, hcalled, Except.mapError, bind,
    Except.bind, if_pos hlevel, hconsole, hlogs]
  rfl

theorem LogLine.run_hidden {line : LogLine} {printed : Printed AllocString}
    {logs : ArrayT}
    (hprintk : printkPieces logLevel line.own line.fresh line.level
      line.pieces = .ok (some printed))
    (hhidden : ¬ line.Shown logLevel) (henabled : state.printkEnabled = true)
    (hlogs : arrayPush line.logsFresh state.logs line.slot = .ok logs) :
    line.call.run logLevel state = .ok { state with logs } := by
  have hcalled := (printk_of_enabled henabled).trans hprintk
  have hlevel : ¬ line.level.code ≤ logLevel := hhidden
  simp only [LogCall.run, LogLine.call, hcalled, Except.mapError, bind,
    Except.bind, if_neg hlevel, hlogs, pure, Except.pure]

theorem LogState.Logged.step (hfits : Fits width height)
    {lines : List LogLine}
    (hlogged : state.Logged logLevel width height entry lines)
    {line : LogLine} (hprintable : Printable line.pieces) :
    ∃ after, line.call.run logLevel state = .ok after ∧
      after.Logged logLevel width height entry (lines ++ [line]) := by
  obtain ⟨printed, hprintk, htext⟩ := @printkPieces_ok logLevel line.level
    line.pieces line.own line.fresh AllocString _ _
    (newString_takes hprintable.roomy)
    fun piece hpiece => (hprintable.onLine piece hpiece).not_zero
  obtain ⟨logs, hlogs, hsized⟩ := @arrayPush_sized line.logsFresh _ state.logs
    hlogged.logs line.slot
  have hslots : Sized ((lines ++ [line]).map LogLine.slot) logs := by
    rw [List.map_append]
    exact hsized
  by_cases hshown : line.Shown logLevel
  · obtain ⟨console, hconsole, hcanvas, hstores⟩ :=
      hlogged.print hfits hprintable htext
    refine ⟨_, LogLine.run_shown hprintk hshown hlogged.enabled hconsole hlogs,
      hlogged.enabled, hslots, ?_, ?_⟩
    · rw [shownTexts_append, if_pos hshown]
      exact hcanvas
    · intro index hindex
      exact hstores index (hlogged.blanked index hindex)
  · refine ⟨_, LogLine.run_hidden hprintk hshown hlogged.enabled hlogs,
      hlogged.enabled, hslots, ?_, hlogged.blanked⟩
    rw [shownTexts_append, if_neg hshown]
    exact hlogged.console

theorem LogState.Logged.run (hfits : Fits width height)
    {lines more : List LogLine}
    (hlogged : state.Logged logLevel width height entry lines)
    (hprintable : ∀ line ∈ more, Printable line.pieces) :
    ∃ last, (logMachine logLevel).run state
        (more.map fun line => .printk line.call) = .ok last ∧
      last.Logged logLevel width height entry (lines ++ more) := by
  induction more generalizing state lines with
  | nil =>
      rw [List.append_nil]
      exact ⟨state, rfl, hlogged⟩
  | cons line more ih =>
      obtain ⟨after, hstep, hafter⟩ :=
        hlogged.step hfits (hprintable line (.head _))
      obtain ⟨last, hrun, hlast⟩ :=
        ih hafter fun other hother => hprintable other (.tail _ hother)
      rw [List.append_assoc] at hlast
      exact ⟨last, Machine.run_cons_ok.mpr ⟨after, hstep, hrun⟩, hlast⟩

end

/-- Before `printk_init` nothing is printed, and no format is looked at. -/
theorem run_disabled {logLevel : Nat} {state : LogState}
    (hoff : state.printkEnabled = false) (early : List LogCall) :
    (logMachine logLevel).run state (early.map .printk) = .ok state := by
  induction early with
  | nil => rfl
  | cons call early ih =>
      refine Machine.run_cons_ok.mpr ⟨state, ?_, ih⟩
      simp only [logMachine, LogCall.run, hoff, printk]
      rfl

/-- White on black. -/
def logEntry : BitVec 8 → Cell := charEntry white black

theorem printkInit_logged {logLevel : Nat} {framebuffer : Framebuffer}
    (hega : framebuffer.type = .egaText)
    (hfits : Fits framebuffer.width.toNat framebuffer.height.toNat)
    (displayBuffer : Nat → Cell) (fresh : Nat → BitVec 64) :
    ∃ after, printkInit framebuffer displayBuffer fresh loadedLog = .ok after ∧
      after.Logged logLevel framebuffer.width.toNat framebuffer.height.toNat
        logEntry [] := by
  have hclear := @clearScreen_shows
    (loadedLog.console.mapped framebuffer displayBuffer) hfits rfl
  refine ⟨⟨true, newArray fresh,
    (loadedLog.console.mapped framebuffer displayBuffer).clearScreen⟩, ?_, rfl,
    newArray_sized, ⟨_, hclear, blankCanvas_reads _⟩, ?_⟩
  · simp only [printkInit, archPrintkInit, hega]
    rfl
  · have harea : (loadedLog.console.mapped framebuffer displayBuffer).area =
        framebuffer.width.toNat * framebuffer.height.toNat := by
      have hle := hfits.area_le
      have hlt : framebuffer.width.toNat * framebuffer.height.toNat <
          2 ^ 32 := by omega
      exact Nat.mod_eq_of_lt hlt
    intro index hindex
    rw [← harea] at hindex
    exact Console.mem_clearScreen (.inr hindex)

/-- The stores fill the screen and go nowhere else. -/
theorem LogState.Logged.stores_le_iff {logLevel width height : Nat}
    {entry : BitVec 8 → Cell} {state : LogState} {lines : List LogLine}
    (hfits : Fits width height)
    (hlogged : state.Logged logLevel width height entry lines) (cells : Nat) :
    (∀ index ∈ state.console.stores, index < cells) ↔
      width * height ≤ cells := by
  constructor
  · intro hall
    have hpos := Nat.mul_pos hfits.width_pos hfits.height_pos
    have hlast := hall _ (hlogged.blanked (width * height - 1) (by omega))
    omega
  · obtain ⟨canvas, hshows, -⟩ := hlogged.console
    intro hle index hindex
    exact (hshows.stores index hindex).trans_le hle

/-- The screen after any calls of `printk`. Those before `printk_init` leave no
trace. Afterwards the console displays the last rows of the text of all lines
down to `LOGLEVEL`, each of them behind a time stamp and from the first column
on; `logs` gets one value for every call, the address of a local variable; and
no store misses the mapped pages if and only if the whole screen has room
there. -/
theorem run_displays_log (logLevel : Nat) {framebuffer : Framebuffer}
    (hega : framebuffer.type = .egaText)
    (hfits : Fits framebuffer.width.toNat framebuffer.height.toNat)
    (displayBuffer : Nat → Cell) (fresh : Nat → BitVec 64)
    (early : List LogCall) {lines : List LogLine}
    (hprintable : ∀ line ∈ lines, Printable line.pieces) :
    ∃ last, (logMachine logLevel).run loadedLog (early.map .printk ++
        .printkInit framebuffer displayBuffer fresh ::
          lines.map fun line => .printk line.call) = .ok last ∧
      last.console.Displays framebuffer.width.toNat framebuffer.height.toNat
        (logEntry 0) (textCells framebuffer.width.toNat logEntry
          (shownTexts logLevel lines)) ∧
      Sized (lines.map LogLine.slot) last.logs ∧
      ((∀ index ∈ last.console.stores, index < displayCells) ↔
        framebuffer.width.toNat * framebuffer.height.toNat ≤
          displayCells) := by
  obtain ⟨ready, hinit, hready⟩ :=
    @printkInit_logged logLevel _ hega hfits displayBuffer fresh
  obtain ⟨last, hrun, hlast⟩ := hready.run hfits hprintable
  obtain ⟨canvas, hshows, hreads⟩ := hlast.console
  refine ⟨last, ?_, hshows.displays hreads, hlast.logs,
    hlast.stores_le_iff hfits _⟩
  exact Machine.run_append_ok.mpr ⟨loadedLog, run_disabled rfl early,
    Machine.run_cons_ok.mpr ⟨ready, hinit, hrun⟩⟩

/-- A line for debugging whose string grows, and a fatal one, with a tab and a
number. -/
def debugAndFatal : List LogLine :=
  [⟨.debug, [.s (List.replicate 100 0x61) (by simp)],
      fun _ _ => 1, fun _ _ => 1, fun _ => 1, 16⟩,
    ⟨.fatal, [.literal 0x09 (by decide) (by decide), .upperX 0xB8000],
      fun _ _ => 1, fun _ _ => 1, fun _ => 1, 32⟩]

/-- With the level that both configurations set, which shows all. A call with an
argument too few comes before `printk_init`. -/
theorem run_displays_log_all :
    ∃ last, (logMachine 5).run loadedLog
        ([⟨.fatal, [charPercent, charS, 0], [], fun _ _ => 1, fun _ _ => 1,
            fun _ => 1, 0⟩].map .printk ++
          .printkInit ⟨.egaText, 0xB8000, 80, 25⟩ (fun _ => 7) (fun _ => 9) ::
            debugAndFatal.map fun line => .printk line.call) = .ok last ∧
      last.console.Displays 80 25 (logEntry 0)
        (textCells 80 logEntry (shownTexts 5 debugAndFatal)) ∧
      Sized [16, 32] last.logs ∧
      ((∀ index ∈ last.console.stores, index < displayCells) ↔
        80 * 25 ≤ displayCells) :=
  @run_displays_log 5 ⟨.egaText, 0xB8000, 80, 25⟩ rfl
    ⟨by decide, by decide, by decide⟩ _ _ _ debugAndFatal (by decide)

end Synos.Printk

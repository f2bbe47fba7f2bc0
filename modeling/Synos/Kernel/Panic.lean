import Synos.Boot.Trace
import Synos.Printk.Log
import Mathlib.Data.List.TakeWhile

namespace Synos.Kernel

open Synos.Data (AccessFault Machine Memory encode image load word)
open Synos.Mutils (Roomy hexChar numeral stringAllocLength)
open Synos.Boot (Framebuffer Symbols sampleSymbols traceName)
open Synos.Printk (Cell Fits LogFault LogLevel LogLine LogState OnRow
  Piece Printable charPercent debugAndFatal length_numeral loadedLog logEntry
  logMachine printkInit_logged segments segments_conversion shownTexts
  shownTexts_append textCells timeStamp toChars)

/-! What a panic leaves on the screen: its messages, and the frames of the stack
with the names of their functions. -/

def ascii (text : String) : List UInt8 :=
  text.toList.map fun c => UInt8.ofNat c.toNat

def literals (text : List UInt8) : List Piece :=
  text.filterMap fun c =>
    if h : c ≠ 0 ∧ c ≠ charPercent then some (.literal c h.1 h.2) else none

/-- What a `char*` points to, up to its terminator. -/
abbrev Text := { text : List UInt8 // ∀ c ∈ text, c ≠ 0 }

theorem mem_takeWhile_ne_zero (block : List UInt8) :
    ∀ c ∈ block.takeWhile (· ≠ 0), c ≠ 0 := by
  intro c hc
  have htaken := List.mem_takeWhile_imp hc
  exact of_decide_eq_true htaken

def cString (block : List UInt8) : Except AccessFault Text :=
  if 0 ∈ block then .ok ⟨block.takeWhile (· ≠ 0), mem_takeWhile_ne_zero block⟩
  else .error .outOfBounds

def funcNoname : Text := ⟨[], fun _ hc => absurd hc List.not_mem_nil⟩

def traceText (symbols : Symbols) (address : BitVec 64) :
    Except AccessFault Text :=
  match traceName symbols address with
  | none => .ok funcNoname
  | some name =>
      cString (symbols.elfStr.contents.drop (name - symbols.elfStr.address))

/-- A call of `printk`, as far as `panic` writes it down. -/
structure Message where
  level : LogLevel
  pieces : List Piece

/-- What the blocks of a call hold beforehand, and where its `log` is. -/
structure CallMemory where
  own : Nat → Nat → UInt8
  fresh : Nat → Nat → UInt8
  logsFresh : Nat → BitVec 64
  slot : BitVec 64

def Message.line (message : Message) (call : CallMemory) : LogLine where
  level := message.level
  pieces := message.pieces
  own := call.own
  fresh := call.fresh
  logsFresh := call.logsFresh
  slot := call.slot

def plain (level : LogLevel) (text : String) : Message :=
  ⟨level, literals (ascii text)⟩

def panicHead (text : Text) : List Message :=
  [plain .fatal "The system kernel has encountered a panic!",
    ⟨.fatal, literals (ascii "Error message: ") ++ [.s text.1 text.2]⟩]

def traceHead : Message :=
  plain .fatal "Stack trace (most recent call first):"

def traceHidden : Message :=
  plain .debug "\tStack trace not shown (debugging disabled)"

/-- `%X` takes an `unsigned int`. -/
def frameMessage (rip : BitVec 64) (name : Text) : Message :=
  ⟨.fatal, literals (ascii "\t0x") ++ .upperX (rip.setWidth 32) ::
    (literals (ascii "    ") ++ [.s name.1 name.2])⟩

def panicTail : List Message :=
  [plain .debug "Suspending all processes...",
    plain .debug "Shutting down cores...",
    plain .debug "All cores except core 0 disabled.",
    plain .debug "Process scheduler disabled, core passed to kernel.",
    plain .warning "System suspended"]

section

variable (logLevel : Nat) (calls : Nat → CallMemory)

/-- The calls from number `index` on. -/
def printMessages : (index : Nat) → List Message → LogState →
    Except LogFault LogState
  | _, [], state => .ok state
  | index, message :: rest, state =>
      match (message.line (calls index)).call.run logLevel state with
      | .error fault => .error fault
      | .ok state => printMessages (index + 1) rest state

def returnAddress (memory : Memory) (stk : BitVec 64) : BitVec 64 :=
  load 64 memory (word (stk.toNat + 8))

def traceFrames (symbols : Symbols) (memory : Memory) :
    (fuel : Nat) → (stk : BitVec 64) → (index : Nat) → LogState →
      Except LogFault (Nat × LogState)
  | 0, _, _, _ => .error (.console .endlessLoop)
  | fuel + 1, stk, index, state =>
      if stk = 0 then .ok (index, state)
      else
        let rip := returnAddress memory stk
        match traceText symbols rip with
        | .error fault => .error (.access fault)
        | .ok name =>
            match ((frameMessage rip name).line (calls index)).call.run
                logLevel state with
            | .error fault => .error fault
            | .ok state =>
                traceFrames symbols memory fuel (load 64 memory stk.toNat)
                  (index + 1) state

/-- `PrintStackTrace`, from the frame in `rbp` on; `kdebug` is whether the
kernel has been built with `KDEBUG`. -/
def printStackTrace (kdebug : Bool) (symbols : Symbols) (memory : Memory)
    (fuel : Nat) (rbp : BitVec 64) (index : Nat) (state : LogState) :
    Except LogFault (Nat × LogState) :=
  if kdebug then
    match printMessages logLevel calls index [traceHead] state with
    | .error fault => .error fault
    | .ok state =>
        traceFrames logLevel calls symbols memory fuel rbp (index + 1) state
  else
    match printMessages logLevel calls index [traceHidden] state with
    | .error fault => .error fault
    | .ok state => .ok (index + 1, state)

/-- `panic`, up to `halt`. -/
def panic (kdebug : Bool) (symbols : Symbols) (memory : Memory) (fuel : Nat)
    (rbp : BitVec 64) (text : Text) (state : LogState) :
    Except LogFault LogState :=
  match printMessages logLevel calls 0 (panicHead text) state with
  | .error fault => .error fault
  | .ok state =>
      match printStackTrace logLevel calls kdebug symbols memory fuel rbp 2
          state with
      | .error fault => .error fault
      | .ok (index, state) =>
          printMessages logLevel calls index panicTail state

end

/-! What is to be seen. -/

/-- The frames from `stk` on, with their return addresses and names. -/
def Backtrace (symbols : Symbols) (memory : Memory) :
    (stk : BitVec 64) → List (BitVec 64 × Text) → Prop
  | stk, [] => stk = 0
  | stk, (rip, name) :: rest =>
      stk ≠ 0 ∧ returnAddress memory stk = rip ∧
        traceText symbols rip = .ok name ∧
        Backtrace symbols memory (load 64 memory stk.toNat) rest

def stamped (text : List UInt8) : List (BitVec 8) := toChars (timeStamp ++ text)

def frameText (rip : BitVec 64) (name : Text) : List (BitVec 8) :=
  stamped (ascii "\t0x" ++ numeral 16 hexChar (rip.toNat % 2 ^ 32) ++
    ascii "    " ++ name.1)

/-- Lines of a level that may be too low for the screen. -/
def atLevel (logLevel : Nat) (level : LogLevel) (lines : List String) :
    List (List (BitVec 8)) :=
  if level.code ≤ logLevel then lines.map fun line => stamped (ascii line)
  else []

def panicTexts (logLevel : Nat) (kdebug : Bool) (text : Text)
    (trace : List (BitVec 64 × Text)) : List (List (BitVec 8)) :=
  [stamped (ascii "The system kernel has encountered a panic!"),
      stamped (ascii "Error message: " ++ text.1)] ++
    (if kdebug then
      stamped (ascii "Stack trace (most recent call first):") ::
        trace.map fun (rip, name) => frameText rip name
    else
      atLevel logLevel .debug
        ["\tStack trace not shown (debugging disabled)"]) ++
    atLevel logLevel .debug
      ["Suspending all processes...", "Shutting down cores...",
        "All cores except core 0 disabled.",
        "Process scheduler disabled, core passed to kernel."] ++
    atLevel logLevel .warning ["System suspended"]

/-- The text stays on its row, and `string_append` has room for it in a message
of `panic`. -/
structure Fitting (text : Text) : Prop where
  length : text.1.length ≤ 112
  onRow : ∀ c ∈ text.1, OnRow c.toBitVec

/-- Bytes that stand for themselves, in a format and on a row. -/
def Plain (text : List UInt8) : Prop :=
  (text.all fun c => c ≠ 0 ∧ c ≠ charPercent ∧ OnRow c.toBitVec) = true

instance (text : List UInt8) : Decidable (Plain text) :=
  inferInstanceAs (Decidable (_ = true))

section

variable {text : List UInt8}

theorem Plain.mem (hplain : Plain text) {c : UInt8} (hc : c ∈ text) :
    c ≠ 0 ∧ c ≠ charPercent ∧ OnRow c.toBitVec :=
  of_decide_eq_true (List.all_eq_true.mp hplain c hc)

theorem literals_produced (hplain : Plain text) :
    (literals text).flatMap Piece.produced = text := by
  have hall : ∀ c ∈ text, c ≠ 0 ∧ c ≠ charPercent := by
    intro c hc
    obtain ⟨hzero, hpercent, -⟩ := hplain.mem hc
    exact ⟨hzero, hpercent⟩
  clear hplain
  induction text with
  | nil => rfl
  | cons c rest ih =>
      rw [literals, List.filterMap_cons, dif_pos (hall c (.head _))]
      exact congrArg (c :: ·)
        (ih fun other hother => hall other (.tail _ hother))

theorem segments_literals (hplain : Plain text) (waiting : List UInt8)
    (pieces : List Piece) :
    segments waiting (literals text ++ pieces) =
      segments (waiting ++ text) pieces := by
  have hall : ∀ c ∈ text, c ≠ 0 ∧ c ≠ charPercent := by
    intro c hc
    obtain ⟨hzero, hpercent, -⟩ := hplain.mem hc
    exact ⟨hzero, hpercent⟩
  clear hplain
  induction text generalizing waiting with
  | nil => rw [List.append_nil]; rfl
  | cons c rest ih =>
      rw [literals, List.filterMap_cons, dif_pos (hall c (.head _)),
        List.append_cons waiting]
      exact ih (waiting ++ [c]) fun other hother => hall other (.tail _ hother)

theorem literals_onLine (hplain : Plain text) :
    ∀ piece ∈ literals text, piece.OnLine := by
  intro piece hpiece
  obtain ⟨c, hc, hsome⟩ := List.mem_filterMap.mp hpiece
  obtain ⟨hzero, hpercent, honrow⟩ := hplain.mem hc
  rw [dif_pos ⟨hzero, hpercent⟩] at hsome
  cases hsome
  exact honrow

end

def Message.shown (logLevel : Nat) (message : Message) :
    List (List (BitVec 8)) :=
  if message.level.code ≤ logLevel then
    [stamped (message.pieces.flatMap Piece.produced)]
  else []

theorem plain_shown {logLevel : Nat} {level : LogLevel} {text : String}
    (hplain : Plain (ascii text)) :
    (plain level text).shown logLevel = atLevel logLevel level [text] := by
  simp only [Message.shown, plain, atLevel, literals_produced hplain,
    List.map_singleton]

/-- The screen has been blanked, and shows these lines. -/
def Screens (state : LogState) (logLevel width height : Nat)
    (entry : BitVec 8 → Cell) (texts : List (List (BitVec 8))) : Prop :=
  ∃ lines, state.Logged logLevel width height entry lines ∧
    shownTexts logLevel lines = texts

section

variable {logLevel : Nat} {calls : Nat → CallMemory} {symbols : Symbols}
  {memory : Memory} {width height : Nat} {entry : BitVec 8 → Cell}
  {state : LogState} {texts : List (List (BitVec 8))}
  {messages : List Message}

theorem Screens.print
    (hscreens : Screens state logLevel width height entry texts)
    (hfits : Fits width height) {message : Message}
    (hprintable : Printable message.pieces) (call : CallMemory) :
    ∃ after, (message.line call).call.run logLevel state = .ok after ∧
      Screens after logLevel width height entry
        (texts ++ message.shown logLevel) := by
  obtain ⟨lines, hlogged, rfl⟩ := hscreens
  obtain ⟨after, hrun, hafter⟩ := @LogState.Logged.step _ _ _ _ _ hfits _
    hlogged (message.line call) hprintable
  refine ⟨after, hrun, _, hafter, ?_⟩
  rw [shownTexts_append, Message.shown]
  by_cases hlevel : message.level.code ≤ logLevel
  · rw [if_pos hlevel]
    exact if_pos hlevel
  · rw [if_neg hlevel, List.append_nil]
    exact if_neg hlevel

theorem Screens.printAll
    (hscreens : Screens state logLevel width height entry texts)
    (hfits : Fits width height)
    (hprintable : ∀ message ∈ messages, Printable message.pieces)
    (index : Nat) :
    ∃ after, printMessages logLevel calls index messages state = .ok after ∧
      Screens after logLevel width height entry
        (texts ++ messages.flatMap (Message.shown logLevel)) := by
  induction messages generalizing state texts index with
  | nil =>
      rw [List.flatMap_nil, List.append_nil]
      exact ⟨state, rfl, hscreens⟩
  | cons message rest ih =>
      obtain ⟨middle, hrun, hmiddle⟩ :=
        hscreens.print hfits (hprintable message (.head _)) (calls index)
      obtain ⟨after, hrest, hafter⟩ := ih hmiddle
        (fun other hother => hprintable other (.tail _ hother)) (index + 1)
      refine ⟨after, ?_, ?_⟩
      · rw [printMessages, hrun]
        exact hrest
      · rw [List.flatMap_cons, ← List.append_assoc]
        exact hafter

/-! The messages of `panic`. -/

theorem mem_onLine_append {first second : List Piece}
    (hfirst : ∀ piece ∈ first, piece.OnLine)
    (hsecond : ∀ piece ∈ second, piece.OnLine) :
    ∀ piece ∈ first ++ second, piece.OnLine := by
  intro piece hpiece
  rcases List.mem_append.mp hpiece with hleft | hright
  · exact hfirst piece hleft
  · exact hsecond piece hright

theorem text_onLine {name : Text} (hname : ∀ c ∈ name.1, OnRow c.toBitVec) :
    ∀ piece ∈ [Piece.s name.1 name.2], piece.OnLine := by
  intro piece hpiece
  obtain rfl := List.mem_singleton.mp hpiece
  exact hname

theorem errorMessage_printable {text : Text} (htext : Fitting text) :
    Printable (literals (ascii "Error message: ") ++
      [.s text.1 text.2]) := by
  have herror : Plain (ascii "Error message: ") := by decide +kernel
  have hlength : (ascii "Error message: ").length = 15 := by decide +kernel
  have hshort := htext.length
  refine ⟨mem_onLine_append (literals_onLine herror) (text_onLine htext.onRow),
    ?_⟩
  rw [segments_literals herror]
  simp only [segments, Piece.produced, Piece.expected, List.nil_append,
    if_true, Roomy, hlength, stringAllocLength, Synos.Data.wordSize, and_true]
  split_ifs <;> omega

theorem length_hex_le (value : BitVec 32) :
    (numeral 16 hexChar value.toNat).length ≤ 8 := by
  by_cases hzero : value.toNat = 0
  · rw [hzero]
    decide
  · rw [length_numeral hzero]
    exact (Nat.digits_length_le_iff (by decide) _).mpr value.isLt

theorem frameMessage_printable {name : Text} (hname : Fitting name)
    (rip : BitVec 64) : Printable (frameMessage rip name).pieces := by
  have hhead : Plain (ascii "\t0x") := by decide +kernel
  have hgap : Plain (ascii "    ") := by decide +kernel
  have hheadLength : (ascii "\t0x").length = 3 := by decide +kernel
  have hgapLength : (ascii "    ").length = 4 := by decide +kernel
  have hdigits := length_hex_le (rip.setWidth 32)
  have hshort := hname.length
  constructor
  · refine mem_onLine_append (literals_onLine hhead) ?_
    intro piece hpiece
    rcases List.mem_cons.mp hpiece with rfl | hrest
    · exact id
    · exact mem_onLine_append (literals_onLine hgap) (text_onLine hname.onRow)
        piece hrest
  · rw [frameMessage, segments_literals hhead, segments_conversion rfl,
      segments_literals hgap]
    simp only [segments, Piece.produced, Piece.expected, List.nil_append,
      if_true, Roomy, hheadLength, hgapLength, stringAllocLength,
      Synos.Data.wordSize, and_true]
    split_ifs <;> omega

theorem frameMessage_shown (rip : BitVec 64) (name : Text) :
    (frameMessage rip name).shown logLevel = [frameText rip name] := by
  have hhead : Plain (ascii "\t0x") := by decide +kernel
  have hgap : Plain (ascii "    ") := by decide +kernel
  have hlevel : LogLevel.fatal.code ≤ logLevel := Nat.zero_le _
  rw [Message.shown, frameMessage, if_pos hlevel, frameText,
    List.flatMap_append, List.flatMap_cons, List.flatMap_append,
    literals_produced hhead, literals_produced hgap]
  simp [Piece.produced, Piece.expected]

theorem Screens.traceFrames {trace : List (BitVec 64 × Text)}
    (hfits : Fits width height) (hnames : ∀ frame ∈ trace, Fitting frame.2)
    {stk : BitVec 64}
    (hscreens : Screens state logLevel width height entry texts)
    (htrace : Backtrace symbols memory stk trace) {fuel : Nat}
    (hfuel : trace.length < fuel) (index : Nat) :
    ∃ after, traceFrames logLevel calls symbols memory fuel stk index state =
        .ok (index + trace.length, after) ∧
      Screens after logLevel width height entry
        (texts ++ trace.map fun (rip, name) => frameText rip name) := by
  induction trace generalizing stk state texts fuel index with
  | nil =>
      obtain ⟨fuel, rfl⟩ :=
        Nat.exists_eq_succ_of_ne_zero (Nat.zero_lt_of_lt hfuel).ne'
      have hnull : stk = 0 := htrace
      rw [List.map_nil, List.append_nil, Kernel.traceFrames, if_pos hnull]
      exact ⟨state, rfl, hscreens⟩
  | cons frame rest ih =>
      obtain ⟨rip, name⟩ := frame
      obtain ⟨hne, hrip, hname, hrest⟩ := htrace
      obtain ⟨fuel, rfl⟩ :=
        Nat.exists_eq_succ_of_ne_zero (Nat.zero_lt_of_lt hfuel).ne'
      obtain ⟨middle, hrun, hmiddle⟩ := hscreens.print hfits
        (frameMessage_printable (hnames _ (.head _)) rip) (calls index)
      rw [frameMessage_shown] at hmiddle
      rw [List.length_cons] at hfuel
      obtain ⟨after, hloop, hafter⟩ := ih
        (fun other hother => hnames other (.tail _ hother)) hmiddle hrest
        (Nat.lt_of_succ_lt_succ hfuel) (index + 1)
      refine ⟨after, ?_, ?_⟩
      · rw [Kernel.traceFrames, if_neg hne]
        simp only [hrip, hname, hrun]
        rw [hloop, List.length_cons, Nat.add_assoc, Nat.add_comm 1]
      · rw [List.append_assoc] at hafter
        exact hafter

theorem Screens.printStackTrace {trace : List (BitVec 64 × Text)}
    {kdebug : Bool} (hfits : Fits width height)
    (hnames : ∀ frame ∈ trace, Fitting frame.2)
    (hscreens : Screens state logLevel width height entry texts)
    {rbp : BitVec 64} {fuel : Nat} (htrace : kdebug = true →
      Backtrace symbols memory rbp trace ∧ trace.length < fuel) (index : Nat) :
    ∃ next after, printStackTrace logLevel calls kdebug symbols memory fuel rbp
        index state = .ok (next, after) ∧
      Screens after logLevel width height entry (texts ++
        if kdebug then
          stamped (ascii "Stack trace (most recent call first):") ::
            trace.map fun (rip, name) => frameText rip name
        else
          atLevel logLevel .debug
            ["\tStack trace not shown (debugging disabled)"]) := by
  cases kdebug with
  | true =>
      have hhead : Plain (ascii "Stack trace (most recent call first):") := by
        decide +kernel
      have hprintable : ∀ message ∈ [traceHead], Printable message.pieces := by
        decide +kernel
      obtain ⟨middle, hprint, hmiddle⟩ := @Screens.printAll _ calls _ _ _ _ _ _
        hscreens hfits hprintable index
      obtain ⟨after, hloop, hafter⟩ :=
        @Screens.traceFrames _ calls _ _ _ _ _ _ _ _ hfits hnames _ hmiddle
          (htrace rfl).1 _ (htrace rfl).2 (index + 1)
      refine ⟨index + 1 + trace.length, after, ?_, ?_⟩
      · simp only [Kernel.printStackTrace, if_true, hprint, hloop]
      · rw [List.flatMap_singleton, traceHead, plain_shown hhead, atLevel,
          if_pos (show LogLevel.fatal.code ≤ logLevel from Nat.zero_le _),
          List.append_assoc] at hafter
        exact hafter
  | false =>
      have hhidden :
          Plain (ascii "\tStack trace not shown (debugging disabled)") := by
        decide +kernel
      have hprintable :
          ∀ message ∈ [traceHidden], Printable message.pieces := by
        decide +kernel
      obtain ⟨after, hprint, hafter⟩ := @Screens.printAll _ calls _ _ _ _ _ _
        hscreens hfits hprintable index
      rw [List.flatMap_singleton, traceHidden, plain_shown hhidden] at hafter
      refine ⟨index + 1, after, ?_, hafter⟩
      simp only [Kernel.printStackTrace, Bool.false_eq_true, if_false, hprint]

theorem panicTail_shown :
    (∀ message ∈ panicTail, Printable message.pieces) ∧
      panicTail.flatMap (Message.shown logLevel) =
        atLevel logLevel .debug
            ["Suspending all processes...", "Shutting down cores...",
              "All cores except core 0 disabled.",
              "Process scheduler disabled, core passed to kernel."] ++
          atLevel logLevel .warning ["System suspended"] := by
  have hprocesses : Plain (ascii "Suspending all processes...") := by
    decide +kernel
  have hcores : Plain (ascii "Shutting down cores...") := by decide +kernel
  have hdisabled : Plain (ascii "All cores except core 0 disabled.") := by
    decide +kernel
  have hscheduler :
      Plain (ascii "Process scheduler disabled, core passed to kernel.") := by
    decide +kernel
  have hsuspended : Plain (ascii "System suspended") := by decide +kernel
  refine ⟨by decide +kernel, ?_⟩
  simp only [panicTail, List.flatMap_cons, List.flatMap_nil,
    plain_shown hprocesses, plain_shown hcores, plain_shown hdisabled,
    plain_shown hscheduler, plain_shown hsuspended, List.append_nil,
    ← List.append_assoc]
  congr 1
  simp only [atLevel]
  split <;> rfl

theorem panicHead_shown {text : Text} (htext : Fitting text) :
    (∀ message ∈ panicHead text, Printable message.pieces) ∧
      (panicHead text).flatMap (Message.shown logLevel) =
        [stamped (ascii "The system kernel has encountered a panic!"),
          stamped (ascii "Error message: " ++ text.1)] := by
  have hpanic : Plain (ascii "The system kernel has encountered a panic!") := by
    decide +kernel
  have herror : Plain (ascii "Error message: ") := by decide +kernel
  have hlevel : LogLevel.fatal.code ≤ logLevel := Nat.zero_le _
  constructor
  · simp only [panicHead, List.forall_mem_cons]
    exact ⟨by decide +kernel, errorMessage_printable htext,
      fun _ hnone => absurd hnone List.not_mem_nil⟩
  · have hsecond : Message.shown logLevel
        ⟨.fatal, literals (ascii "Error message: ") ++
          [.s text.1 text.2]⟩ =
          [stamped (ascii "Error message: " ++ text.1)] := by
      simp only [Message.shown, if_pos hlevel, List.flatMap_append,
        literals_produced herror, List.flatMap_singleton, Piece.produced,
        Piece.expected]
    simp only [panicHead, List.flatMap_cons, List.flatMap_nil,
      plain_shown hpanic, atLevel, if_pos hlevel, hsecond]
    rfl

theorem Screens.panic {trace : List (BitVec 64 × Text)} {kdebug : Bool}
    (hfits : Fits width height) (hnames : ∀ frame ∈ trace, Fitting frame.2)
    (hscreens : Screens state logLevel width height entry texts)
    {rbp : BitVec 64} {text : Text} (htext : Fitting text) {fuel : Nat}
    (htrace : kdebug = true →
      Backtrace symbols memory rbp trace ∧ trace.length < fuel) :
    ∃ last, panic logLevel calls kdebug symbols memory fuel rbp text state =
        .ok last ∧
      Screens last logLevel width height entry
        (texts ++ panicTexts logLevel kdebug text trace) := by
  obtain ⟨hhead, hheadShown⟩ := @panicHead_shown logLevel _ htext
  obtain ⟨htail, htailShown⟩ := @panicTail_shown logLevel
  obtain ⟨first, hfirst, hopened⟩ :=
    @Screens.printAll _ calls _ _ _ _ _ _ hscreens hfits hhead 0
  obtain ⟨next, middle, hmiddle, htraced⟩ :=
    @Screens.printStackTrace _ calls symbols memory _ _ _ _ _ _ kdebug hfits
      hnames hopened _ _ htrace 2
  obtain ⟨last, hlast, hclosed⟩ :=
    @Screens.printAll _ calls _ _ _ _ _ _ htraced hfits htail next
  refine ⟨last, ?_, ?_⟩
  · simp only [Kernel.panic, hfirst, hmiddle, hlast]
  · rw [hheadShown, htailShown] at hclosed
    simp only [panicTexts, List.append_assoc] at hclosed ⊢
    exact hclosed

/-- The loop only ends at a null pointer. -/
theorem exists_backtrace {fuel : Nat} {stk : BitVec 64} {index next : Nat}
    {after : LogState}
    (hloop : traceFrames logLevel calls symbols memory fuel stk index state =
      .ok (next, after)) :
    ∃ trace, Backtrace symbols memory stk trace ∧ trace.length < fuel := by
  induction fuel generalizing stk index state with
  | zero => cases hloop
  | succ fuel ih =>
      by_cases hnull : stk = 0
      · exact ⟨[], hnull, Nat.succ_pos fuel⟩
      · rw [traceFrames, if_neg hnull] at hloop
        cases hname : traceText symbols (returnAddress memory stk) with
        | error fault =>
            simp only [hname] at hloop
            cases hloop
        | ok name =>
            simp only [hname] at hloop
            cases hrun : ((frameMessage (returnAddress memory stk) name).line
                (calls index)).call.run logLevel state with
            | error fault =>
                rw [hrun] at hloop
                cases hloop
            | ok middle =>
                rw [hrun] at hloop
                obtain ⟨trace, htrace, hlength⟩ := ih hloop
                exact ⟨(returnAddress memory stk, name) :: trace,
                  ⟨hnull, rfl, hname, htrace⟩, Nat.succ_lt_succ hlength⟩

/-- A panic that gets as far as `halt` has come to the end of the chain. -/
theorem panic_backtrace {fuel : Nat} {rbp : BitVec 64} {text : Text}
    {last : LogState}
    (hpanic : panic logLevel calls true symbols memory fuel rbp text state =
      .ok last) :
    ∃ trace, Backtrace symbols memory rbp trace ∧ trace.length < fuel := by
  unfold panic at hpanic
  split at hpanic
  · cases hpanic
  · next first _ =>
      cases htraced : printStackTrace logLevel calls true symbols memory fuel
          rbp 2 first with
      | error fault =>
          rw [htraced] at hpanic
          cases hpanic
      | ok reply =>
          simp only [printStackTrace, if_true] at htraced
          split at htraced
          · cases htraced
          · exact exists_backtrace htraced

theorem Backtrace.unique {stk : BitVec 64}
    {trace other : List (BitVec 64 × Text)}
    (htrace : Backtrace symbols memory stk trace)
    (hother : Backtrace symbols memory stk other) : trace = other := by
  induction trace generalizing stk other with
  | nil =>
      cases other with
      | nil => rfl
      | cons frame rest => exact absurd htrace hother.1
  | cons frame rest ih =>
      cases other with
      | nil => exact absurd hother htrace.1
      | cons frame' rest' =>
          obtain ⟨rip, name⟩ := frame
          obtain ⟨rip', name'⟩ := frame'
          obtain ⟨-, rfl, hname, hrest⟩ := htrace
          obtain ⟨-, rfl, hname', hrest'⟩ := hother
          obtain rfl := Except.ok.inj (hname.symm.trans hname')
          rw [ih hrest hrest']

end

/-- After any calls of `printk`, a panic gets as far as `halt` just when there
are no frames to print or their chain ends, and then the screen has its texts
behind the ones before. -/
theorem panic_displays (logLevel : Nat) {framebuffer : Framebuffer}
    (hega : framebuffer.type = .egaText)
    (hfits : Fits framebuffer.width.toNat framebuffer.height.toNat)
    (displayBuffer : Nat → Cell) (fresh : Nat → BitVec 64)
    {lines : List LogLine}
    (hprintable : ∀ line ∈ lines, Printable line.pieces)
    {symbols : Symbols} {memory : Memory} {rbp : BitVec 64}
    (hnames : ∀ trace, Backtrace symbols memory rbp trace →
      ∀ frame ∈ trace, Fitting frame.2)
    {text : Text} (htext : Fitting text) (kdebug : Bool)
    (calls : Nat → CallMemory) :
    ∃ state,
      (logMachine logLevel).run loadedLog
          (.printkInit framebuffer displayBuffer fresh ::
            lines.map fun line => .printk line.call) = .ok state ∧
        ((∃ fuel last, panic logLevel calls kdebug symbols memory fuel rbp text
            state = .ok last) ↔
          kdebug = false ∨ ∃ trace, Backtrace symbols memory rbp trace) ∧
        ∀ fuel last, panic logLevel calls kdebug symbols memory fuel rbp text
            state = .ok last →
          ∃ trace, (kdebug = true → Backtrace symbols memory rbp trace) ∧
            last.console.Displays framebuffer.width.toNat
              framebuffer.height.toNat (logEntry 0)
              (textCells framebuffer.width.toNat logEntry
                (shownTexts logLevel lines ++
                  panicTexts logLevel kdebug text trace)) := by
  obtain ⟨ready, hinit, hready⟩ :=
    @printkInit_logged logLevel _ hega hfits displayBuffer fresh
  obtain ⟨state, hrun, hlogged⟩ := hready.run hfits hprintable
  have hscreens : Screens state logLevel _ _ _ (shownTexts logLevel lines) :=
    ⟨_, hlogged, rfl⟩
  have hpanic : ∀ fuel trace, (kdebug = true →
      Backtrace symbols memory rbp trace ∧ trace.length < fuel) →
      (∀ frame ∈ trace, Fitting frame.2) → _ :=
    fun fuel trace htrace hfitting =>
      @Screens.panic _ calls symbols memory _ _ _ _ _ trace kdebug hfits
        hfitting hscreens rbp text htext fuel htrace
  refine ⟨state, Machine.run_cons_ok.mpr ⟨ready, hinit, hrun⟩, ?_, ?_⟩
  · constructor
    · rintro ⟨fuel, last, hlast⟩
      cases kdebug with
      | false => exact .inl rfl
      | true =>
          obtain ⟨trace, htrace, -⟩ := panic_backtrace hlast
          exact .inr ⟨trace, htrace⟩
    · rintro (rfl | ⟨trace, htrace⟩)
      · obtain ⟨last, hlast, -⟩ := hpanic 0 []
          (fun hfalse => Bool.noConfusion hfalse)
          fun _ hnone => absurd hnone List.not_mem_nil
        exact ⟨0, last, hlast⟩
      · obtain ⟨last, hlast, -⟩ := hpanic (trace.length + 1) trace
          (fun _ => ⟨htrace, Nat.lt_succ_self _⟩) (hnames trace htrace)
        exact ⟨_, last, hlast⟩
  · intro fuel last hlast
    obtain ⟨trace, htrace, hfitting⟩ : ∃ trace, (kdebug = true →
        Backtrace symbols memory rbp trace ∧ trace.length < fuel) ∧
        ∀ frame ∈ trace, Fitting frame.2 := by
      cases kdebug with
      | false =>
          exact ⟨[], fun hfalse => Bool.noConfusion hfalse,
            fun _ hnone => absurd hnone List.not_mem_nil⟩
      | true =>
          obtain ⟨trace, htrace, hlength⟩ := panic_backtrace hlast
          exact ⟨trace, fun _ => ⟨htrace, hlength⟩, hnames trace htrace⟩
    obtain ⟨other, hother, lastLines, hlogs, htexts⟩ :=
      hpanic fuel trace htrace hfitting
    obtain rfl := Except.ok.inj (hother.symm.trans hlast)
    obtain ⟨canvas, hshows, hreads⟩ := hlogs.console
    rw [htexts] at hreads
    exact ⟨trace, fun hdebug => (htrace hdebug).1, hshows.displays hreads⟩

/-! Two frames, of `printk` in its middle and of `kfree` at its start. -/

def textOf (text : String) : Text :=
  ⟨(ascii text).takeWhile (· ≠ 0), mem_takeWhile_ne_zero _⟩

def tracedSymbols : Symbols :=
  { sampleSymbols with
    elfStr := ⟨0x1100C0, 0 :: ascii "printk" ++ 0 :: ascii "System" ++
      0 :: ascii "kfree" ++ [0]⟩ }

def frameMemory : Memory :=
  image 0x7000 (encode .little 0x7010#64 ++ encode .little 0x100210#64 ++
    encode .little 0#64 ++ encode .little 0x100100#64)

def tracedFrames : List (BitVec 64 × Text) :=
  [(0x100210#64, textOf "printk"), (0x100100#64, textOf "kfree")]

theorem panic_displays_frames :
    ∃ state,
      (logMachine 5).run loadedLog
          (.printkInit ⟨.egaText, 0xB8000, 80, 25⟩ (fun _ => 7) (fun _ => 9) ::
            debugAndFatal.map fun line => .printk line.call) = .ok state ∧
        ∃ fuel last,
          panic 5 (fun _ => ⟨fun _ _ => 1, fun _ _ => 1, fun _ => 1, 48⟩) true
            tracedSymbols frameMemory fuel 0x7000 (textOf "Out of memory")
            state = .ok last ∧
          last.console.Displays 80 25 (logEntry 0) (textCells 80 logEntry
            (shownTexts 5 debugAndFatal ++
              panicTexts 5 true (textOf "Out of memory") tracedFrames)) := by
  have hplain : ∀ frame ∈ tracedFrames, Plain frame.2.1 := by decide +kernel
  have hshort : ∀ frame ∈ tracedFrames, frame.2.1.length ≤ 112 := by
    decide +kernel
  have htext : Plain (textOf "Out of memory").1 := by decide +kernel
  have htrace : Backtrace tracedSymbols frameMemory 0x7000 tracedFrames :=
    ⟨by decide, by decide +kernel, by decide +kernel, by decide +kernel,
      by decide +kernel, by decide +kernel,
      show load 64 frameMemory
        (load 64 frameMemory (0x7000#64).toNat).toNat = 0#64 by decide +kernel⟩
  have hnames : ∀ trace, Backtrace tracedSymbols frameMemory 0x7000 trace →
      ∀ frame ∈ trace, Fitting frame.2 := by
    intro trace hother frame hframe
    rw [hother.unique htrace] at hframe
    exact ⟨hshort frame hframe, fun c hc => ((hplain frame hframe).mem hc).2.2⟩
  obtain ⟨state, hrun, hiff, hdisplays⟩ :=
    @panic_displays 5 ⟨.egaText, 0xB8000, 80, 25⟩ rfl
      ⟨by decide, by decide, by decide⟩ (fun _ => 7) (fun _ => 9)
      debugAndFatal (by decide) _ _ _ hnames _
      ⟨by decide +kernel, fun c hc => (htext.mem hc).2.2⟩ true
      fun _ => ⟨fun _ _ => 1, fun _ _ => 1, fun _ => 1, 48⟩
  obtain ⟨fuel, last, hlast⟩ := hiff.mpr (.inr ⟨_, htrace⟩)
  obtain ⟨trace, hbacktrace, hshown⟩ := hdisplays fuel last hlast
  rw [(hbacktrace rfl).unique htrace] at hshown
  exact ⟨state, hrun, fuel, last, hlast, hshown⟩

end Synos.Kernel

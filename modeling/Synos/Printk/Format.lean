import Synos.Mutils.Digits

namespace Synos.Printk

open Synos.Data
open Synos.Mutils (GrowingString StringBuffer strlen cStr hexStr toLower
  decimalChar hexChar numeral)
open Synos.Mutils.StringBuffer (append appendString)

/-! Formatted messages, over any kind of string for the message. The block that a
conversion gets for its digits holds something of its own beforehand. -/

def charPercent : UInt8 := 0x25

def charUpperX : UInt8 := 0x58

def charD : UInt8 := 0x64

def charI : UInt8 := 0x69

def charO : UInt8 := 0x6F

def charS : UInt8 := 0x73

def charU : UInt8 := 0x75

def charX : UInt8 := 0x78

/-- What stands in a variable argument list: a number in 32 bits, or a pointer
to a block. -/
inductive VarArg
  | int (value : BitVec 32)
  | pointer (block : List UInt8)

/-- `va_arg` of an `int` or an `unsigned int`. -/
def vaInt : List VarArg → Except AccessFault (BitVec 32 × List VarArg)
  | .int value :: args => .ok (value, args)
  | _ => .error .outOfBounds

def vaPointer : List VarArg → Except AccessFault (List UInt8 × List VarArg)
  | .pointer block :: args => .ok (block, args)
  | _ => .error .outOfBounds

section

variable {S : Type} [StringBuffer S]

/-- The inner `switch`, with `i` at the character behind the `%`. -/
def convert (fresh : Nat → UInt8) (str : List UInt8) (i : Nat)
    (args : List VarArg) (lstr : S) :
    Except AccessFault (List VarArg × S) := do
  let c ← readCell str i
  if c = charD ∨ c = charI then
    let (value, args) ← vaInt args
    -- an `int` goes into a `size_t`
    let tempStr ← cStr fresh (value.signExtend 64)
    let lstr ← appendString lstr tempStr
    pure (args, lstr)
  else if c = charU then
    let (value, args) ← vaInt args
    let tempStr ← cStr fresh (value.setWidth 64)
    let lstr ← appendString lstr tempStr
    pure (args, lstr)
  else if c = charO then
    let (_, args) ← vaInt args
    pure (args, lstr)
  else if c = charX then
    let (value, args) ← vaInt args
    let tempStr ← hexStr fresh (value.setWidth 64)
    let tempStr ← toLower tempStr
    let lstr ← appendString lstr tempStr
    pure (args, lstr)
  else if c = charUpperX then
    let (value, args) ← vaInt args
    let tempStr ← hexStr fresh (value.setWidth 64)
    let lstr ← appendString lstr tempStr
    pure (args, lstr)
  else if c = charS then
    let (tempStr, args) ← vaPointer args
    let lstr ← appendString lstr tempStr
    pure (args, lstr)
  else
    let lstr ← append lstr (str.drop i) 1
    pure (args, lstr)

/-- The variables of the loop of `printk`, `i` apart. -/
structure Line (S : Type) where
  lstart : Nat
  lcpy : Nat
  args : List VarArg
  lstr : S

/-- The loop of `printk` over `i`. Each round moves `i` on, and the fuel is the
length of the format. `fresh i` is what the block holds that the conversion at
`i` gets. -/
def printkLoop (fresh : Nat → Nat → UInt8) (str : List UInt8) (orgLen : Nat) :
    (fuel i : Nat) → Line S → Except AccessFault (Line S)
  | 0, _, line => pure line
  | fuel + 1, i, line =>
      if i < orgLen then do
        let c ← readCell str i
        if c = charPercent then
          if i = orgLen - 1 then printkLoop fresh str orgLen fuel (i + 1) line
          else
            let lstr ← append line.lstr (str.drop line.lstart) line.lcpy
            let (args, lstr) ← convert (fresh i) str (i + 1) line.args lstr
            printkLoop fresh str orgLen fuel (i + 2) ⟨i + 2, 0, args, lstr⟩
        else
          printkLoop fresh str orgLen fuel (i + 1)
            { line with lcpy := line.lcpy + 1 }
      else pure line

end

inductive LogLevel
  | fatal
  | critical
  | error
  | warning
  | info
  | debug
  deriving DecidableEq

def LogLevel.code : LogLevel → Nat
  | .fatal => 0
  | .critical => 1
  | .error => 2
  | .warning => 3
  | .info => 4
  | .debug => 5

/-- `struct LogEnt`; `message` points into the string buffer. -/
structure LogEnt where
  level : LogLevel
  seconds : Nat
  microseconds : Nat
  message : List UInt8

/-- The message with its length, its entry in the log, and what goes to
`arch_print`. -/
structure Printed (S : Type) where
  lstr : S
  log : LogEnt
  output : List UInt8

/-- `"[ 0.000000 ] "` -/
def timeStamp : List UInt8 :=
  [0x5B, 0x20, 0x30, 0x2E, 0x30, 0x30, 0x30, 0x30, 0x30, 0x30, 0x20, 0x5D,
    0x20]

/-- `printk`, which does nothing until it is enabled, in a kernel that is built
with `LOGLEVEL`; `own` is what the blocks of the message hold beforehand. What
goes into `logs` is the address of a local variable, and is left out. -/
def printk {S : Type} [StringBuffer S] (logLevel : Nat) (enabled : Bool)
    (own : Nat → Nat → UInt8) (fresh : Nat → Nat → UInt8) (level : LogLevel)
    (str : List UInt8) (args : List VarArg) :
    Except AccessFault (Option (Printed S)) :=
  if !enabled then pure none
  else do
    let orgLen ← strlen str
    let line ← printkLoop fresh str orgLen orgLen 0
      ⟨0, 0, args, (StringBuffer.new own : S)⟩
    let lstr ←
      if 0 < line.lcpy then
        append line.lstr (str.drop line.lstart) line.lcpy
      else pure line.lstr
    let output :=
      if level.code ≤ logLevel then
        timeStamp ++ StringBuffer.text lstr ++ [0x0A]
      else []
    pure (some ⟨lstr, ⟨level, 0, 0, StringBuffer.str lstr⟩, output⟩)

/-! ### What C prints -/

/-- A character of the format, or a conversion with its argument. -/
inductive Piece
  | literal (c : UInt8) (terminal : c ≠ 0) (plain : c ≠ charPercent)
  | d (value : BitVec 32)
  | i (value : BitVec 32)
  | u (value : BitVec 32)
  | x (value : BitVec 32)
  | upperX (value : BitVec 32)
  | s (text : List UInt8) (terminal : ∀ c ∈ text, c ≠ 0)
  | percent

namespace Piece

def format : Piece → List UInt8
  | literal c _ _ => [c]
  | d _ => [charPercent, charD]
  | i _ => [charPercent, charI]
  | u _ => [charPercent, charU]
  | x _ => [charPercent, charX]
  | upperX _ => [charPercent, charUpperX]
  | s _ _ => [charPercent, charS]
  | percent => [charPercent, charPercent]

def args : Piece → List VarArg
  | literal _ _ _ => []
  | d value => [.int value]
  | i value => [.int value]
  | u value => [.int value]
  | x value => [.int value]
  | upperX value => [.int value]
  | s text _ => [.pointer (text ++ [0])]
  | percent => []

end Piece

def lowerHexChar (c : Nat) : UInt8 :=
  if c < 0xA then UInt8.ofNat (c + 0x30) else UInt8.ofNat (c - 0xA + 0x61)

/-- A signed number in decimal, with a minus sign in front of a negative one. -/
def signedDecimal (value : BitVec 32) : List UInt8 :=
  if value.toInt < 0 then 0x2D :: numeral 10 decimalChar value.toInt.natAbs
  else numeral 10 decimalChar value.toNat

def Piece.expected : Piece → List UInt8
  | literal c _ _ => [c]
  | d value => signedDecimal value
  | i value => signedDecimal value
  | u value => numeral 10 decimalChar value.toNat
  | x value => numeral 16 lowerHexChar value.toNat
  | upperX value => numeral 16 hexChar value.toNat
  | s text _ => text
  | percent => [charPercent]

/-- The call of `printk` that the pieces make, and the message it builds. -/
def printkPieces {S : Type} [StringBuffer S] (logLevel : Nat)
    (own : Nat → Nat → UInt8) (fresh : Nat → Nat → UInt8) (level : LogLevel)
    (pieces : List Piece) : Except AccessFault (Option (Printed S)) :=
  printk logLevel true own fresh level (pieces.flatMap Piece.format ++ [0])
    (pieces.flatMap Piece.args)

/-- In a string that grows as needed, and whatever the blocks hold beforehand, the
message is what C prints. -/
def PrintsLikeC (level : LogLevel) (pieces : List Piece) : Prop :=
  ∀ logLevel own fresh,
    Returns (@printkPieces GrowingString _ logLevel own fresh level pieces)
      fun printed => printed.map (fun call => call.lstr.text) =
        some (pieces.flatMap Piece.expected)

/-- Numbers in decimal, which neither the sign nor the loop over the digits of
zero stands in the way of. -/
def Piece.Positive : Piece → Prop
  | d value => 0 < value.toInt
  | i value => 0 < value.toInt
  | u value => value ≠ 0
  | _ => True

instance : (piece : Piece) → Decidable piece.Positive
  | .literal _ _ _ => .isTrue trivial
  | .d value => inferInstanceAs (Decidable (0 < value.toInt))
  | .i value => inferInstanceAs (Decidable (0 < value.toInt))
  | .u value => inferInstanceAs (Decidable (value ≠ 0))
  | .x _ => .isTrue trivial
  | .upperX _ => .isTrue trivial
  | .s _ _ => .isTrue trivial
  | .percent => .isTrue trivial

end Synos.Printk

import Synos.Data.Machine
import Synos.Elf.Format
import Mathlib.Tactic.IntervalCases

namespace Synos.Elf

open Synos.Data

/-! The header parser on X86_64, where `uintptr_t` has eight bytes. -/

def isLittleEndian : Bool := true

def isBigEndian : Bool := false

def eiClass : Nat := 4

def eiData : Nat := 5

def fileIsElf (memory : Memory) (file : Nat) : Bool :=
  memory (word file) = 0x7F && memory (word (file + 1)) = 0x45 &&
    memory (word (file + 2)) = 0x4C && memory (word (file + 3)) = 0x46

def swapUint16 (val : BitVec 16) : BitVec 16 :=
  (val <<< 8) ||| (val >>> 8)

def swapUint32 (val : BitVec 32) : BitVec 32 :=
  let val := ((val <<< 8) &&& 0xFF00FF00#32) ||| ((val >>> 8) &&& 0xFF00FF#32)
  (val <<< 16) ||| (val >>> 16)

/-- The bytes of `val` and `retVal` as they stand in memory, `i` counting down. -/
def swapUintptrLoop (val : List UInt8) : (i : Nat) → (retVal : List UInt8) →
    List UInt8
  | 0, retVal => retVal
  | i + 1, retVal => swapUintptrLoop val i (retVal.set (7 - i) (val.getD i 0))

def swapUintptr (val : BitVec 64) : BitVec 64 :=
  -- `retVal` starts uninitialised, and the loop sets every byte of it
  BitVec.ofNat 64
    (fromBytes (swapUintptrLoop (toBytes 8 val.toNat) 8 (toBytes 8 0)))

/-- `header_length` is left out: no function sets it. -/
structure ElfHeader where
  header : Nat
  eIdent : Nat
  eType : BitVec 16
  eMachine : BitVec 16
  eVersion : BitVec 32
  eEntry : BitVec 64
  ePhoff : BitVec 64
  eShoff : BitVec 64
  eFlags : BitVec 32
  eEhsize : BitVec 16
  ePhentsize : BitVec 16
  ePhnum : BitVec 16
  eShentsize : BitVec 16
  eShnum : BitVec 16
  eShstrndx : BitVec 16
  deriving DecidableEq

/-- The byte order in `e_ident` is not that of the processor. -/
def orderMismatch (memory : Memory) (eIdent : Nat) : Bool :=
  (isLittleEndian && memory (word (eIdent + eiData)) = 2) ||
    (isBigEndian && memory (word (eIdent + eiData)) = 1)

def readHeader (memory : Memory) (header : Nat) : ElfHeader :=
  let wide : Bool := memory (word (header + eiClass)) = 2
  let eFlagsStart := if wide then 0x30 else 0x24
  { header := header
    eIdent := header
    eType := load 16 memory (header + 0x10)
    eMachine := load 16 memory (header + 0x12)
    eVersion := load 32 memory (header + 0x14)
    eEntry := load 64 memory (header + 0x18)
    ePhoff := load 64 memory (header + if wide then 0x20 else 0x1C)
    eShoff := load 64 memory (header + if wide then 0x28 else 0x20)
    eFlags := load 32 memory (header + eFlagsStart)
    eEhsize := load 16 memory (header + (eFlagsStart + 4))
    ePhentsize := load 16 memory (header + (eFlagsStart + 6))
    ePhnum := load 16 memory (header + (eFlagsStart + 8))
    eShentsize := load 16 memory (header + (eFlagsStart + 10))
    eShnum := load 16 memory (header + (eFlagsStart + 12))
    eShstrndx := load 16 memory (header + (eFlagsStart + 14)) }

def swapHeader (hdr : ElfHeader) : ElfHeader :=
  let hdr := { hdr with eType := swapUint16 hdr.eType }
  let hdr := { hdr with eMachine := swapUint16 hdr.eMachine }
  -- the field is swapped a second time
  let hdr := { hdr with eMachine := swapUint16 hdr.eMachine }
  let hdr := { hdr with eVersion := swapUint32 hdr.eVersion }
  let hdr := { hdr with eEntry := swapUintptr hdr.eEntry }
  let hdr := { hdr with ePhoff := swapUintptr hdr.ePhoff }
  -- from `e_phoff`, which is swapped by now
  let hdr := { hdr with eShoff := swapUintptr hdr.ePhoff }
  let hdr := { hdr with eFlags := swapUint32 hdr.eFlags }
  let hdr := { hdr with eEhsize := swapUint16 hdr.eEhsize }
  let hdr := { hdr with ePhentsize := swapUint16 hdr.ePhentsize }
  let hdr := { hdr with ePhnum := swapUint16 hdr.ePhnum }
  let hdr := { hdr with eShentsize := swapUint16 hdr.eShentsize }
  let hdr := { hdr with eShnum := swapUint16 hdr.eShnum }
  { hdr with eShstrndx := swapUint16 hdr.eShstrndx }

/-- `ParseELF_HEADER`, where `block` is what `kmalloc` answers: a block apart
from the file, or 0, which the code does not check for. `NULL` is `none`. -/
def parseElfHeader (memory : Memory) (header block : Nat) :
    Except Fault (Option ElfHeader) :=
  if !fileIsElf memory header then .ok none
  else if block = 0 then .error .nullDereference
  else
    let hdr := readHeader memory header
    .ok (some (if orderMismatch memory hdr.eIdent then swapHeader hdr else hdr))

theorem orderMismatch_eq {memory : Memory} {eIdent : Nat} {order : ByteOrder}
    (hdata : memory (word (eIdent + eiData)) = orderCode order) :
    orderMismatch memory eIdent = (order == .big) := by
  rw [orderMismatch, hdata]
  cases order <;> rfl

/-! ### The swaps -/

theorem swapUint16_eq (val : BitVec 16) : swapUint16 val = byteSwap val := by
  apply BitVec.eq_of_getLsbD_eq
  intro bit hbit
  rw [getLsbD_byteSwap (by decide) _ hbit]
  interval_cases bit <;> simp [swapUint16]

theorem swapUint32_eq (val : BitVec 32) : swapUint32 val = byteSwap val := by
  apply BitVec.eq_of_getLsbD_eq
  intro bit hbit
  rw [getLsbD_byteSwap (by decide) _ hbit]
  interval_cases bit <;> simp [swapUint32]

/-- The bytes below `8 - i` are done; what `retVal` held above is irrelevant. -/
theorem swapUintptrLoop_reverse {val retVal : List UInt8} {i : Nat}
    (hval : val.length = 8) (hretVal : retVal.length = 8) (hi : i ≤ 8)
    (hdone : ∀ place, place < 8 - i → retVal[place]? = val.reverse[place]?) :
    swapUintptrLoop val i retVal = val.reverse := by
  induction i generalizing retVal with
  | zero =>
      apply List.ext_getElem?
      intro place
      by_cases hplace : place < 8
      · exact hdone place hplace
      · rw [swapUintptrLoop, List.getElem?_eq_none (by omega),
          List.getElem?_eq_none (by rw [List.length_reverse]; omega)]
  | succ i ih =>
      apply ih (by rw [List.length_set, hretVal]) (by omega)
      intro place hplace
      rw [List.getElem?_set]
      split
      · next heq =>
          subst heq
          have hopposite : 8 - 1 - (7 - i) = i := by omega
          rw [if_pos (by omega), List.getElem?_reverse (by omega), hval,
            hopposite, List.getD_eq_getElem?_getD,
            List.getElem?_eq_getElem (by omega)]
          rfl
      · next hne => exact hdone place (by omega)

theorem swapUintptr_eq (val : BitVec 64) : swapUintptr val = byteSwap val := by
  have hloop := @swapUintptrLoop_reverse (toBytes 8 val.toNat) (toBytes 8 0) 8
    (length_toBytes _ _) (length_toBytes _ _) (Nat.le_refl _)
    (fun place hplace => absurd hplace (by omega))
  rw [swapUintptr, hloop]
  rfl

/-! Each swap undoes the other byte order. -/

theorem swapUint16_byteSwap (value : BitVec 16) :
    swapUint16 (byteSwap value) = value := by
  rw [swapUint16_eq]
  exact byteSwap_byteSwap (by decide) value

theorem swapUint32_byteSwap (value : BitVec 32) :
    swapUint32 (byteSwap value) = value := by
  rw [swapUint32_eq]
  exact byteSwap_byteSwap (by decide) value

theorem swapUintptr_byteSwap (value : BitVec 64) :
    swapUintptr (byteSwap value) = value := by
  rw [swapUintptr_eq]
  exact byteSwap_byteSwap (by decide) value

end Synos.Elf

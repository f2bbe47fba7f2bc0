import Synos.Data.Traced
import Synos.Elf.Program
import Synos.Elf.Section

namespace Synos.Elf

open Synos.Data

/-! The parsers once more, with the loads they make from the file. -/

/-- The comparison of `FileIsELF`, which stops at the first other byte. -/
def matchTraced (memory : Memory) (file : Nat) : Nat → List UInt8 → Traced Bool
  | _, [] => pure true
  | offset, byte :: rest => do
      let found ← loadByte memory (file + offset)
      if found = byte then matchTraced memory file (offset + 1) rest
      else pure false

def elfMagic : List UInt8 := [0x7F, 0x45, 0x4C, 0x46]

def fileIsElfTraced (memory : Memory) (file : Nat) : Traced Bool :=
  matchTraced memory file 0 elfMagic

def orderMismatchTraced (memory : Memory) (eIdent : Nat) : Traced Bool := do
  let data ← loadByte memory (eIdent + eiData)
  -- `isBigEndian` is false, which spares the second comparison its load
  pure ((isLittleEndian && data = 2) || (isBigEndian && data = 1))

def wideTraced (memory : Memory) (eIdent : Nat) : Traced Bool := do
  let cls ← loadByte memory (eIdent + eiClass)
  pure (cls = 2)

def readHeaderTraced (memory : Memory) (header : Nat) : Traced ElfHeader := do
  let eType ← loadTraced 16 memory (header + 0x10)
  let eMachine ← loadTraced 16 memory (header + 0x12)
  let eVersion ← loadTraced 32 memory (header + 0x14)
  let eEntry ← loadTraced 64 memory (header + 0x18)
  let wide ← wideTraced memory header
  let ePhoff ← loadTraced 64 memory (header + if wide then 0x20 else 0x1C)
  let eShoff ← loadTraced 64 memory (header + if wide then 0x28 else 0x20)
  let eFlagsStart := if wide then 0x30 else 0x24
  let eFlags ← loadTraced 32 memory (header + eFlagsStart)
  let eEhsize ← loadTraced 16 memory (header + (eFlagsStart + 4))
  let ePhentsize ← loadTraced 16 memory (header + (eFlagsStart + 6))
  let ePhnum ← loadTraced 16 memory (header + (eFlagsStart + 8))
  let eShentsize ← loadTraced 16 memory (header + (eFlagsStart + 10))
  let eShnum ← loadTraced 16 memory (header + (eFlagsStart + 12))
  let eShstrndx ← loadTraced 16 memory (header + (eFlagsStart + 14))
  pure ⟨header, header, eType, eMachine, eVersion, eEntry, ePhoff, eShoff,
    eFlags, eEhsize, ePhentsize, ePhnum, eShentsize, eShnum, eShstrndx⟩

def parseElfHeaderTraced (memory : Memory) (header block : Nat) :
    Traced (Except Fault (Option ElfHeader)) := do
  let isElf ← fileIsElfTraced memory header
  if !isElf then pure (.ok none)
  else if block = 0 then pure (.error .nullDereference)
  else
    let hdr ← readHeaderTraced memory header
    let mismatch ← orderMismatchTraced memory hdr.eIdent
    pure (.ok (some (if mismatch then swapHeader hdr else hdr)))

def readProgramTraced (memory : Memory) (eIdent hdrEnt hdrEntSize
    pOffsetOffset : Nat) : Traced ElfProgramHeader := do
  let pType ← loadTraced 32 memory hdrEnt
  let pOffset ← loadTraced 64 memory (hdrEnt + pOffsetOffset)
  let wide ← wideTraced memory eIdent
  let pVaddr ← loadTraced 64 memory (hdrEnt + if wide then 0x10 else 0x08)
  let pPaddr ← loadTraced 64 memory (hdrEnt + if wide then 0x18 else 0x0C)
  let pFilesz ← loadTraced 64 memory (hdrEnt + if wide then 0x20 else 0x10)
  let pMemsz ← loadTraced 64 memory (hdrEnt + if wide then 0x28 else 0x14)
  let pAlign ← loadTraced 64 memory (hdrEnt + if wide then 0x30 else 0x1C)
  let pFlags ← loadTraced 32 memory (hdrEnt + if wide then 0x04 else 0x18)
  pure ⟨hdrEnt, hdrEntSize, pType, pFlags, pOffset, pVaddr, pPaddr, pFilesz,
    pMemsz, pAlign⟩

def programLoopTraced (memory : Memory) (hdr : ElfHeader)
    (prgHdrStart hdrEntSize pOffsetOffset : Nat) : (count i : Nat) →
    Traced (List ElfProgramHeader)
  | 0, _ => pure []
  | count + 1, i => do
      let prg ← readProgramTraced memory hdr.eIdent
        (prgHdrStart + hdrEntSize * i) hdrEntSize pOffsetOffset
      let mismatch ← orderMismatchTraced memory hdr.eIdent
      let rest ← programLoopTraced memory hdr prgHdrStart hdrEntSize
        pOffsetOffset count (i + 1)
      pure ((if mismatch then swapProgram prg else prg) :: rest)

def parseElfPrgHeaderTraced (memory : Memory) (hdr : ElfHeader)
    (prgHdrStart block : Nat) :
    Traced (Except Fault (List ElfProgramHeader)) := do
  let wide ← wideTraced memory hdr.eIdent
  if 0 < hdr.ePhnum.toNat ∧ block = 0 then pure (.error .nullDereference)
  else
    let array ← programLoopTraced memory hdr prgHdrStart
      (if wide then 0x38 else 0x20) (if wide then 0x08 else 0x04)
      hdr.ePhnum.toNat 0
    pure (.ok array)

def readSectionTraced (memory : Memory) (ent : Nat) :
    Traced ElfSectionHeader := do
  let shName ← loadTraced 32 memory ent
  let shType ← loadTraced 32 memory (ent + 0x04)
  let shFlags ← loadTraced 64 memory (ent + 0x08)
  let shAddr ← loadTraced 64 memory (ent + (0x08 + 8))
  let shOffset ← loadTraced 64 memory (ent + (0x08 + 8 * 2))
  let shSize ← loadTraced 64 memory (ent + (0x08 + 8 * 3))
  let shLinkOffset := (0x08 + 8 * 4) % 256
  let shLink ← loadTraced 32 memory (ent + shLinkOffset)
  let shInfo ← loadTraced 32 memory (ent + (shLinkOffset + 4))
  let shAddralign ← loadTraced 64 memory (ent + (shLinkOffset + 4 * 2))
  let shEntsize ← loadTraced 64 memory (ent + (shLinkOffset + 4 * 2 + 8))
  pure ⟨shName, shType, shFlags, shAddr, shOffset, shSize, shLink, shInfo,
    shAddralign, shEntsize⟩

def sectionLoopTraced (memory : Memory) (hdr : ElfHeader)
    (sctHdrStart hdrEntSize : Nat) : (count i : Nat) →
    Traced (List ElfSectionHeader)
  | 0, _ => pure []
  | count + 1, i => do
      let sct ← readSectionTraced memory (sctHdrStart + hdrEntSize * i)
      let mismatch ← orderMismatchTraced memory hdr.eIdent
      let rest ← sectionLoopTraced memory hdr sctHdrStart hdrEntSize count
        (i + 1)
      pure ((if mismatch then swapSection sct else sct) :: rest)

def parseElfSctHeaderTraced (memory : Memory) (hdr : ElfHeader)
    (sctHdrStart block : Nat) :
    Traced (Except Fault (List ElfSectionHeader)) := do
  let wide ← wideTraced memory hdr.eIdent
  if 0 < hdr.eShnum.toNat ∧ block = 0 then pure (.error .nullDereference)
  else
    let array ← sectionLoopTraced memory hdr sctHdrStart
      (if wide then 0x40 else 0x28) hdr.eShnum.toNat 0
    pure (.ok array)

/-! ### Recording the loads changes no result -/

section

variable (memory : Memory)

theorem matchTraced_cons_result (file offset : Nat) (byte : UInt8)
    (rest : List UInt8) :
    (matchTraced memory file offset (byte :: rest)).result =
      (decide (memory (word (file + offset)) = byte) &&
        (matchTraced memory file (offset + 1) rest).result) := by
  change (if memory (word (file + offset)) = byte then
    matchTraced memory file (offset + 1) rest else pure false).result = _
  by_cases hmatch : memory (word (file + offset)) = byte
  · rw [if_pos hmatch, decide_eq_true hmatch, Bool.true_and]
  · rw [if_neg hmatch, decide_eq_false hmatch, Bool.false_and]
    rfl

theorem fileIsElfTraced_result (file : Nat) :
    (fileIsElfTraced memory file).result = fileIsElf memory file := by
  simp only [fileIsElfTraced, elfMagic, matchTraced_cons_result, fileIsElf,
    Bool.and_assoc, Nat.add_zero, Nat.zero_add, Nat.reduceAdd]
  simp only [matchTraced, Traced.result_pure, Bool.and_true]

@[simp] theorem orderMismatchTraced_result (eIdent : Nat) :
    (orderMismatchTraced memory eIdent).result =
      orderMismatch memory eIdent := rfl

@[simp] theorem wideTraced_result (eIdent : Nat) :
    (wideTraced memory eIdent).result =
      decide (memory (word (eIdent + eiClass)) = 2) := rfl

@[simp] theorem orderMismatchTraced_loads {property : Access → Prop}
    (eIdent : Nat) :
    (orderMismatchTraced memory eIdent).Loads property ↔
      property ⟨eIdent + eiData, 1⟩ := by
  simp only [orderMismatchTraced, Traced.loads_bind, loadByte_loads,
    Traced.loads_pure, and_true]

@[simp] theorem wideTraced_loads {property : Access → Prop} (eIdent : Nat) :
    (wideTraced memory eIdent).Loads property ↔
      property ⟨eIdent + eiClass, 1⟩ := by
  simp only [wideTraced, Traced.loads_bind, loadByte_loads, Traced.loads_pure,
    and_true]

@[simp] theorem readHeaderTraced_result (header : Nat) :
    (readHeaderTraced memory header).result = readHeader memory header := rfl

theorem parseElfHeaderTraced_result (header block : Nat) :
    (parseElfHeaderTraced memory header block).result =
      parseElfHeader memory header block := by
  simp only [parseElfHeaderTraced, parseElfHeader, Traced.result_bind,
    fileIsElfTraced_result]
  split
  · rfl
  · split
    · rfl
    · rfl

theorem readProgramTraced_result (eIdent hdrEnt hdrEntSize
    pOffsetOffset : Nat) :
    (readProgramTraced memory eIdent hdrEnt hdrEntSize pOffsetOffset).result =
      readProgram memory (memory (word (eIdent + eiClass)) = 2) hdrEnt
        hdrEntSize pOffsetOffset := by
  simp only [readProgramTraced, readProgram, Traced.result_bind,
    Traced.result_pure, loadTraced_result, wideTraced_result]
  split
  · next hwide => simp only [hwide, if_true]
  · next hnarrow => simp only [hnarrow, Bool.false_eq_true, if_false]

theorem programLoopTraced_result (hdr : ElfHeader) (prgHdrStart hdrEntSize
    pOffsetOffset count i : Nat) :
    (programLoopTraced memory hdr prgHdrStart hdrEntSize pOffsetOffset count
        i).result =
      programLoop memory hdr prgHdrStart hdrEntSize pOffsetOffset count i := by
  induction count generalizing i with
  | zero => rfl
  | succ count ih =>
      simp only [programLoopTraced, programLoop, Traced.result_bind,
        Traced.result_pure, readProgramTraced_result,
        orderMismatchTraced_result, ih]
      rfl

theorem parseElfPrgHeaderTraced_result (hdr : ElfHeader)
    (prgHdrStart block : Nat) :
    (parseElfPrgHeaderTraced memory hdr prgHdrStart block).result =
      parseElfPrgHeader memory hdr prgHdrStart block := by
  simp only [parseElfPrgHeaderTraced, parseElfPrgHeader, Traced.result_bind,
    wideTraced_result]
  split
  · rfl
  · simp only [Traced.result_bind, Traced.result_pure,
      programLoopTraced_result]
    rfl

theorem readSectionTraced_result (ent : Nat) :
    (readSectionTraced memory ent).result = readSection memory ent := rfl

theorem sectionLoopTraced_result (hdr : ElfHeader)
    (sctHdrStart hdrEntSize count i : Nat) :
    (sectionLoopTraced memory hdr sctHdrStart hdrEntSize count i).result =
      sectionLoop memory hdr sctHdrStart hdrEntSize count i := by
  induction count generalizing i with
  | zero => rfl
  | succ count ih =>
      simp only [sectionLoopTraced, sectionLoop, Traced.result_bind,
        Traced.result_pure, readSectionTraced_result,
        orderMismatchTraced_result, ih]
      rfl

theorem parseElfSctHeaderTraced_result (hdr : ElfHeader)
    (sctHdrStart block : Nat) :
    (parseElfSctHeaderTraced memory hdr sctHdrStart block).result =
      parseElfSctHeader memory hdr sctHdrStart block := by
  simp only [parseElfSctHeaderTraced, parseElfSctHeader, Traced.result_bind,
    wideTraced_result]
  split
  · rfl
  · simp only [Traced.result_bind, Traced.result_pure,
      sectionLoopTraced_result, decide_eq_true_eq]

end

end Synos.Elf

import Synos.Elf.Header

namespace Synos.Elf

open Synos.Data

/-! The parser of the program header table. -/

structure ElfProgramHeader where
  header : Nat
  headerLength : Nat
  pType : BitVec 32
  pFlags : BitVec 32
  pOffset : BitVec 64
  pVaddr : BitVec 64
  pPaddr : BitVec 64
  pFilesz : BitVec 64
  pMemsz : BitVec 64
  pAlign : BitVec 64
  deriving DecidableEq

/-- The fields that come from the file. -/
def ElfProgramHeader.entry (prg : ElfProgramHeader) : ProgramHeader where
  pType := prg.pType
  pFlags := prg.pFlags
  pOffset := prg.pOffset
  pVaddr := prg.pVaddr
  pPaddr := prg.pPaddr
  pFilesz := prg.pFilesz
  pMemsz := prg.pMemsz
  pAlign := prg.pAlign

def readProgram (memory : Memory) (wide : Bool)
    (hdrEnt hdrEntSize pOffsetOffset : Nat) : ElfProgramHeader :=
  if wide then
    { header := hdrEnt
      headerLength := hdrEntSize
      pType := load 32 memory hdrEnt
      pOffset := load 64 memory (hdrEnt + pOffsetOffset)
      pVaddr := load 64 memory (hdrEnt + 0x10)
      pPaddr := load 64 memory (hdrEnt + 0x18)
      pFilesz := load 64 memory (hdrEnt + 0x20)
      pMemsz := load 64 memory (hdrEnt + 0x28)
      pAlign := load 64 memory (hdrEnt + 0x30)
      pFlags := load 32 memory (hdrEnt + 0x04) }
  else
    -- addresses and sizes have four bytes here, and are read as eight
    { header := hdrEnt
      headerLength := hdrEntSize
      pType := load 32 memory hdrEnt
      pOffset := load 64 memory (hdrEnt + pOffsetOffset)
      pVaddr := load 64 memory (hdrEnt + 0x08)
      pPaddr := load 64 memory (hdrEnt + 0x0C)
      pFilesz := load 64 memory (hdrEnt + 0x10)
      pMemsz := load 64 memory (hdrEnt + 0x14)
      pAlign := load 64 memory (hdrEnt + 0x1C)
      pFlags := load 32 memory (hdrEnt + 0x18) }

def swapProgram (prg : ElfProgramHeader) : ElfProgramHeader :=
  let prg := { prg with pType := swapUint32 prg.pType }
  let prg := { prg with pFlags := swapUint32 prg.pFlags }
  let prg := { prg with pOffset := swapUintptr prg.pOffset }
  let prg := { prg with pVaddr := swapUintptr prg.pVaddr }
  let prg := { prg with pPaddr := swapUintptr prg.pPaddr }
  let prg := { prg with pFilesz := swapUintptr prg.pFilesz }
  let prg := { prg with pMemsz := swapUintptr prg.pMemsz }
  { prg with pAlign := swapUintptr prg.pAlign }

def programLoop (memory : Memory) (hdr : ElfHeader)
    (prgHdrStart hdrEntSize pOffsetOffset : Nat) : (count i : Nat) →
    List ElfProgramHeader
  | 0, _ => []
  | count + 1, i =>
      let wide : Bool := memory (word (hdr.eIdent + eiClass)) = 2
      let prg := readProgram memory wide (prgHdrStart + hdrEntSize * i)
        hdrEntSize pOffsetOffset
      (if orderMismatch memory hdr.eIdent then swapProgram prg else prg) ::
        programLoop memory hdr prgHdrStart hdrEntSize pOffsetOffset count
          (i + 1)

/-- `ParseELF_PRG_HEADER`, with `kmalloc`'s answer as for the file header. An
empty table writes nothing, so `block` may be 0 for it. -/
def parseElfPrgHeader (memory : Memory) (hdr : ElfHeader)
    (prgHdrStart block : Nat) : Except Fault (List ElfProgramHeader) :=
  let wide : Bool := memory (word (hdr.eIdent + eiClass)) = 2
  let hdrEntSize := if wide then 0x38 else 0x20
  let pOffsetOffset := if wide then 0x08 else 0x04
  if 0 < hdr.ePhnum.toNat ∧ block = 0 then .error .nullDereference
  else
    .ok (programLoop memory hdr prgHdrStart hdrEntSize pOffsetOffset
      hdr.ePhnum.toNat 0)

/-- The 64-bit file that `hdr` belongs to has the table at `start`. -/
structure HasProgramTable (memory : Memory) (hdr : ElfHeader) (start : Nat)
    (order : ByteOrder) (entries : List ProgramHeader) : Prop where
  wide : memory (word (hdr.eIdent + eiClass)) = ElfClass.elf64.code
  data : memory (word (hdr.eIdent + eiData)) = orderCode order
  count : hdr.ePhnum.toNat = entries.length
  table : Placed memory start (programTableBytes order entries)

/-- The array element for an entry that stands at `address`. -/
def decodedProgram (address : Nat) (entry : ProgramHeader) :
    ElfProgramHeader where
  header := address
  headerLength := 0x38
  pType := entry.pType
  pFlags := entry.pFlags
  pOffset := entry.pOffset
  pVaddr := entry.pVaddr
  pPaddr := entry.pPaddr
  pFilesz := entry.pFilesz
  pMemsz := entry.pMemsz
  pAlign := entry.pAlign

section

variable {memory : Memory} {hdr : ElfHeader} {start : Nat} {order : ByteOrder}
  {entries : List ProgramHeader}

theorem readProgram_raw {entry : ProgramHeader} {ent : Nat}
    (hplaced : Placed memory ent (entry.bytes order)) :
    readProgram memory true ent 0x38 0x08 =
      { header := ent
        headerLength := 0x38
        pType := order.stored entry.pType
        pFlags := order.stored entry.pFlags
        pOffset := order.stored entry.pOffset
        pVaddr := order.stored entry.pVaddr
        pPaddr := order.stored entry.pPaddr
        pFilesz := order.stored entry.pFilesz
        pMemsz := order.stored entry.pMemsz
        pAlign := order.stored entry.pAlign } := by
  simp only [ProgramHeader.bytes, placed_append, length_encode,
    Nat.reduceDiv, Nat.add_assoc, Nat.reduceAdd] at hplaced
  obtain ⟨htype, hflags, hoffset, hvaddr, hpaddr, hfilesz, hmemsz, halign⟩ :=
    hplaced
  simp only [readProgram, if_true, ElfProgramHeader.mk.injEq, true_and]
  exact ⟨htype.load_eq (by decide), hflags.load_eq (by decide),
    hoffset.load_eq (by decide), hvaddr.load_eq (by decide),
    hpaddr.load_eq (by decide), hfilesz.load_eq (by decide),
    hmemsz.load_eq (by decide), halign.load_eq (by decide)⟩

theorem readProgram_decoded {entry : ProgramHeader} {ent : Nat}
    (hplaced : Placed memory ent (entry.bytes order)) :
    (if (order == .big) = true then
        swapProgram (readProgram memory true ent 0x38 0x08)
      else readProgram memory true ent 0x38 0x08) =
      decodedProgram ent entry := by
  rw [readProgram_raw hplaced]
  cases order with
  | little => rfl
  | big =>
      simp only [beq_self_eq_true, if_true, swapProgram, decodedProgram,
        ByteOrder.stored, swapUint32_byteSwap, swapUintptr_byteSwap]

theorem programLoop_decoded
    (hwide : memory (word (hdr.eIdent + eiClass)) = ElfClass.elf64.code)
    (hdata : memory (word (hdr.eIdent + eiData)) = orderCode order) {i : Nat}
    (htable : Placed memory (start + 0x38 * i)
      (programTableBytes order entries)) :
    programLoop memory hdr start 0x38 0x08 entries.length i =
      entries.mapIdx fun place entry =>
        decodedProgram (start + 0x38 * (i + place)) entry := by
  induction entries generalizing i with
  | nil => rfl
  | cons entry rest ih =>
      rw [programTableBytes, List.flatMap_cons, placed_append,
        ProgramHeader.length_bytes] at htable
      obtain ⟨hentry, hrest⟩ := htable
      rw [List.length_cons, programLoop, List.mapIdx_cons, hwide,
        orderMismatch_eq hdata,
        ih (by rw [Nat.mul_succ, ← Nat.add_assoc]; exact hrest)]
      have hhead := readProgram_decoded hentry
      simp only [ElfClass.code, decide_true, Nat.add_zero, hhead,
        Nat.add_assoc, Nat.add_comm 1]

theorem parseElfPrgHeader_decoded {block : Nat}
    (htable : HasProgramTable memory hdr start order entries)
    (hblock : entries ≠ [] → block ≠ 0) :
    parseElfPrgHeader memory hdr start block =
      .ok (entries.mapIdx fun i entry =>
        decodedProgram (start + 0x38 * i) entry) := by
  have hno : ¬(0 < hdr.ePhnum.toNat ∧ block = 0) := by
    rintro ⟨hpos, hzero⟩
    rw [htable.count] at hpos
    exact hblock (List.ne_nil_of_length_pos hpos) hzero
  have hloop := @programLoop_decoded memory hdr start order entries htable.wide
    htable.data 0 htable.table
  simp only [Nat.zero_add] at hloop
  rw [parseElfPrgHeader, if_neg hno, htable.wide, htable.count, ← hloop]
  rfl

end

/-- The array holds the entries of the table at `start`. -/
structure Holds (array : List ElfProgramHeader) (start : Nat)
    (entries : List ProgramHeader) : Prop where
  length_eq : array.length = entries.length
  element : ∀ (i : Nat) (prg : ElfProgramHeader) (entry : ProgramHeader),
    array[i]? = some prg → entries[i]? = some entry →
      prg.entry = entry ∧ prg.header = start + 0x38 * i

theorem holds_decoded (start : Nat) (entries : List ProgramHeader) :
    Holds (entries.mapIdx fun i entry => decodedProgram (start + 0x38 * i) entry)
      start entries := by
  constructor
  · exact List.length_mapIdx
  · intro i prg entry hprg hentry
    rw [List.getElem?_mapIdx, hentry, Option.map_some, Option.some.injEq] at hprg
    subst hprg
    exact ⟨rfl, rfl⟩

theorem Holds.entries_eq {array : List ElfProgramHeader} {start : Nat}
    {entries : List ProgramHeader} (hholds : Holds array start entries) :
    array.map ElfProgramHeader.entry = entries := by
  apply List.ext_getElem (by rw [List.length_map, hholds.length_eq])
  intro i hleft hright
  rw [List.length_map] at hleft
  rw [List.getElem_map]
  exact (hholds.element i _ _ (List.getElem?_eq_getElem hleft)
    (List.getElem?_eq_getElem hright)).1

/-- The two encodings of a table are parsed to the same fields, those of its
entries. -/
theorem parseElfPrgHeader_alike {entries : List ProgramHeader}
    {memory other : Memory} {hdr otherHdr : ElfHeader}
    {start otherStart block otherBlock : Nat}
    (hlittle : HasProgramTable memory hdr start .little entries)
    (hbig : HasProgramTable other otherHdr otherStart .big entries)
    (hblock : entries ≠ [] → block ≠ 0)
    (hotherBlock : entries ≠ [] → otherBlock ≠ 0) :
    ∃ array otherArray,
      parseElfPrgHeader memory hdr start block = .ok array ∧
      parseElfPrgHeader other otherHdr otherStart otherBlock = .ok otherArray ∧
      array.map ElfProgramHeader.entry =
        otherArray.map ElfProgramHeader.entry ∧
      Holds array start entries ∧ Holds otherArray otherStart entries := by
  have hfirst := holds_decoded start entries
  have hsecond := holds_decoded otherStart entries
  exact ⟨_, _, parseElfPrgHeader_decoded hlittle hblock,
    parseElfPrgHeader_decoded hbig hotherBlock,
    hfirst.entries_eq.trans hsecond.entries_eq.symm, hfirst, hsecond⟩

def loadSegments : List ProgramHeader :=
  [⟨1, 5, 0x1000#64, 0x100000#64, 0x100000#64, 0x2345#64, 0x2345#64, 0x1000#64⟩,
    ⟨1, 6, 0x4000#64, 0x103000#64, 0x103000#64, 0x80#64, 0x200#64, 0x1000#64⟩]

def programImage (order : ByteOrder) (entries : List ProgramHeader) : Memory :=
  image 0x1000 (identBytes .elf64 order (Vector.replicate 10 0) ++
    programTableBytes order entries)

def programHeader (count : BitVec 16) : ElfHeader :=
  ⟨0x1000, 0x1000, 0, 0, 0, 0, 0, 0, 0, 0, 0x38, count, 0, 0, 0⟩

theorem parseElfPrgHeader_alike_load :
    ∃ array otherArray,
      parseElfPrgHeader (programImage .little loadSegments) (programHeader 2)
        0x1010 0x4000 = .ok array ∧
      parseElfPrgHeader (programImage .big loadSegments) (programHeader 2)
        0x1010 0x4000 = .ok otherArray ∧
      array.map ElfProgramHeader.entry =
        otherArray.map ElfProgramHeader.entry ∧
      Holds array 0x1010 loadSegments ∧ Holds otherArray 0x1010 loadSegments :=
  @parseElfPrgHeader_alike loadSegments (programImage .little loadSegments)
    (programImage .big loadSegments) (programHeader 2) (programHeader 2) 0x1010
    0x1010 0x4000 0x4000
    ⟨by decide +kernel, by decide +kernel, rfl, by decide +kernel⟩
    ⟨by decide +kernel, by decide +kernel, rfl, by decide +kernel⟩
    (fun _ => by decide) (fun _ => by decide)

end Synos.Elf

import Synos.Elf.Loads

namespace Synos.Elf

open Synos.Data

/-! `ParseELF`, which hands no length to the parsers, and when their loads stay
inside the file all the same. -/

/-- The answers of `kmalloc`, in the order of the calls. -/
structure ElfBlocks where
  obj : Nat
  file : Nat
  header : Nat
  programs : Nat
  sections : Nat

structure ElfObj where
  file : Nat
  fileLength : Nat
  header : ElfHeader
  programHeaders : List ElfProgramHeader
  sectionHeaders : List ElfSectionHeader

/-- A call of `ParseELF`: its result, and the bytes loaded through the pointers
to the input and to the copy. -/
structure ElfRun where
  result : Except Fault (Option ElfObj)
  inputLoads : List Access
  copyLoads : List Access

def parseCopyTraced (memory : Memory) (len : Nat) (blocks : ElfBlocks) :
    Traced (Except Fault (Option ElfObj)) := do
  match ← parseElfHeaderTraced memory blocks.file blocks.header with
  | .error fault => pure (.error fault)
  -- `obj->header->e_phoff`
  | .ok none => pure (.error .nullDereference)
  | .ok (some hdr) =>
      match ← parseElfPrgHeaderTraced memory hdr
          (wordAdd blocks.file hdr.ePhoff.toNat) blocks.programs with
      | .error fault => pure (.error fault)
      | .ok programHeaders =>
          match ← parseElfSctHeaderTraced memory hdr
              (wordAdd blocks.file hdr.eShoff.toNat) blocks.sections with
          | .error fault => pure (.error fault)
          | .ok sectionHeaders =>
              pure (.ok (some
                ⟨blocks.file, len, hdr, programHeaders, sectionHeaders⟩))

/-- `len` is recorded and copied by, and nothing is compared with it. -/
def parseElf (memory : Memory) (file len : Nat) (blocks : ElfBlocks) :
    ElfRun :=
  let isElf := fileIsElfTraced memory file
  if !isElf.result then
    ⟨.ok none, isElf.loads, []⟩
  else if blocks.obj = 0 ∨ blocks.file = 0 then
    ⟨.error .nullDereference, isElf.loads, []⟩
  else
    let memory := copyBytes memory blocks.file file len
    let copy := parseCopyTraced memory len blocks
    ⟨copy.result, isElf.loads, copy.loads⟩

/-- Every byte loaded lies in the file or in its copy. -/
def ElfRun.Bounded (run : ElfRun) (file copy len : Nat) : Prop :=
  (∀ access ∈ run.inputLoads, Within file len access) ∧
    ∀ access ∈ run.copyLoads, Within copy len access

instance (run : ElfRun) (file copy len : Nat) :
    Decidable (run.Bounded file copy len) :=
  inferInstanceAs (Decidable (_ ∧ _))

/-! ### What fits -/

def headerExtent (wide : Bool) : Nat := if wide then 0x40 else 0x34

def programStride (wide : Bool) : Nat := if wide then 0x38 else 0x20

/-- The loads from an entry of a 32-bit file go four bytes past it. -/
def programExtent (wide : Bool) : Nat := if wide then 0x38 else 0x24

def sectionStride (wide : Bool) : Nat := if wide then 0x40 else 0x28

def sectionExtent : Nat := 0x40

def loadedHeader (memory : Memory) (header : Nat) : ElfHeader :=
  let hdr := readHeader memory header
  if orderMismatch memory hdr.eIdent then swapHeader hdr else hdr

/-- The table of so many entries ends inside the file. -/
def TableFits (length start stride extent entries : Nat) : Prop :=
  entries = 0 ∨ start + stride * (entries - 1) + extent ≤ length

instance (length start stride extent entries : Nat) :
    Decidable (TableFits length start stride extent entries) :=
  inferInstanceAs (Decidable (_ ∨ _))

/-- The file is as long as its own header says. -/
structure Fits (bytes : List UInt8) (hdr : ElfHeader) (wide : Bool) : Prop where
  header : headerExtent wide ≤ bytes.length
  programs : TableFits bytes.length hdr.ePhoff.toNat (programStride wide)
    (programExtent wide) hdr.ePhnum.toNat
  sections : TableFits bytes.length hdr.eShoff.toNat (sectionStride wide)
    sectionExtent hdr.eShnum.toNat

/-- The header as it is decoded from the file's own bytes. -/
def fileHeader (bytes : List UInt8) : ElfHeader :=
  loadedHeader (image 0 bytes) 0

def fileWide (bytes : List UInt8) : Bool := bytes.getD eiClass 0 = 2

def Differs (bytes : List UInt8) : Prop :=
  ∃ (k : Nat) (byte found : UInt8), elfMagic[k]? = some byte ∧
    bytes[k]? = some found ∧ found ≠ byte

/-! ### The loads of each parser -/

section

variable {memory : Memory} {base length : Nat}

theorem matchTraced_within {offset : Nat} {bytes : List UInt8}
    (hoffset : offset ≤ length) (hspace : offset + bytes.length ≤ wordSize) :
    (matchTraced memory base offset bytes).Loads (Within base length) ↔
      offset + bytes.length ≤ length ∨
        ∃ (k : Nat) (byte : UInt8), bytes[k]? = some byte ∧
          offset + k < length ∧
          memory (word (base + (offset + k))) ≠ byte := by
  induction bytes generalizing offset with
  | nil =>
      simp only [matchTraced, Traced.loads_pure, List.length_nil, Nat.add_zero,
        true_iff]
      exact .inl hoffset
  | cons byte rest ih =>
      rw [List.length_cons] at hspace ⊢
      have hhere : Within base length ⟨base + offset, 1⟩ ↔
          offset + 1 ≤ length := within_iff (by omega) (by decide)
      rw [matchTraced, Traced.loads_bind, loadByte_loads, hhere]
      change offset + 1 ≤ length ∧ (if memory (word (base + offset)) = byte then
        matchTraced memory base (offset + 1) rest else pure false).Loads _ ↔ _
      by_cases hmatch : memory (word (base + offset)) = byte
      · rw [if_pos hmatch]
        constructor
        · rintro ⟨hlt, hrest⟩
          rcases (ih hlt (by omega)).mp hrest with hshort | hstop
          · exact .inl (by omega)
          · obtain ⟨k, other, hother, hbound, hne⟩ := hstop
            refine .inr ⟨k + 1, other, hother, by omega, ?_⟩
            rwa [Nat.add_comm k, ← Nat.add_assoc offset]
        · intro hside
          have hlt : offset + 1 ≤ length := by
            rcases hside with hshort | ⟨k, _, _, hbound, _⟩
            · omega
            · omega
          refine ⟨hlt, (ih hlt (by omega)).mpr ?_⟩
          rcases hside with hshort | ⟨k, other, hother, hbound, hne⟩
          · exact .inl (by omega)
          · cases k with
            | zero =>
                cases hother
                exact absurd hmatch hne
            | succ k =>
                refine .inr ⟨k, other, hother, by omega, ?_⟩
                rwa [Nat.add_assoc offset, Nat.add_comm 1]
      · rw [if_neg hmatch]
        constructor
        · rintro ⟨hlt, -⟩
          exact .inr ⟨0, byte, rfl, by omega, hmatch⟩
        · intro hside
          refine ⟨?_, (Traced.loads_pure _).mpr trivial⟩
          rcases hside with hshort | ⟨k, _, _, hbound, _⟩
          · omega
          · omega

theorem readHeader_within {wide : Bool}
    (hwide : (wideTraced memory base).result = wide) :
    (readHeaderTraced memory base).Loads (Within base length) ↔
      headerExtent wide ≤ length := by
  have hfield : ∀ {offset count : Nat}, offset ≤ 0x40 → 0 < count → count ≤ 8 →
      (Within base length ⟨base + offset, count⟩ ↔
        offset + count ≤ length) := by
    intro offset count hoffset hpos hcount
    exact within_iff (by simp only [wordSize]; omega) hpos
  simp only [readHeaderTraced, Traced.loads_bind, loadTraced_loads,
    wideTraced_loads, Traced.loads_pure, hwide, headerExtent, eiClass, and_true]
  cases wide with
  | false =>
      simp only [Bool.false_eq_true, if_false]
      simp (disch := decide) only [hfield]
      omega
  | true =>
      simp only [if_true]
      simp (disch := decide) only [hfield]
      omega

variable {start stride extent : Nat}

theorem readProgram_within {size : Nat} {wide : Bool}
    (hwide : (wideTraced memory base).result = wide)
    (hclass : Within base length ⟨base + eiClass, 1⟩) {offset : Nat} :
    (readProgramTraced memory base (wordAdd base start + offset) size
        (if wide then 0x08 else 0x04)).Loads (Within base length) ↔
      ∀ k < programExtent wide, word (start + offset + k) < length := by
  simp only [readProgramTraced, Traced.loads_bind, loadTraced_loads,
    wideTraced_loads, Traced.loads_pure, hwide, hclass, and_true, true_and,
    Nat.add_assoc, within_wordAdd_iff, Nat.reduceDiv]
  cases wide with
  | false =>
      have hfields := @fields_iff [(0, 4), (4, 8), (8, 8), (0xC, 8), (0x10, 8),
        (0x14, 8), (0x1C, 8), (0x18, 4)] 0x24
        (fun k => word (start + (offset + k)) < length) (by decide) (by decide)
      simp only [List.forall_mem_cons, List.not_mem_nil, IsEmpty.forall_iff,
        implies_true, and_true, Nat.zero_add] at hfields
      exact hfields
  | true =>
      have hfields := @fields_iff [(0, 4), (8, 8), (0x10, 8), (0x18, 8),
        (0x20, 8), (0x28, 8), (0x30, 8), (4, 4)] 0x38
        (fun k => word (start + (offset + k)) < length) (by decide) (by decide)
      simp only [List.forall_mem_cons, List.not_mem_nil, IsEmpty.forall_iff,
        implies_true, and_true, Nat.zero_add] at hfields
      exact hfields

theorem readSection_within {offset : Nat} :
    (readSectionTraced memory (wordAdd base start + offset)).Loads
        (Within base length) ↔
      ∀ k < sectionExtent, word (start + offset + k) < length := by
  simp only [readSectionTraced, Traced.loads_bind, loadTraced_loads,
    Traced.loads_pure, and_true, Nat.add_assoc, within_wordAdd_iff,
    Nat.reduceDiv, Nat.reduceAdd, Nat.reduceMul, Nat.reduceMod]
  have hfields := @fields_iff [(0, 4), (4, 4), (8, 8), (0x10, 8), (0x18, 8),
    (0x20, 8), (0x28, 4), (0x2C, 4), (0x30, 8), (0x38, 8)] 0x40
    (fun k => word (start + (offset + k)) < length) (by decide) (by decide)
  simp only [List.forall_mem_cons, List.not_mem_nil, IsEmpty.forall_iff,
    implies_true, and_true, Nat.zero_add] at hfields
  exact hfields

variable {hdr : ElfHeader} {count i : Nat}

theorem programLoop_within {size : Nat} {wide : Bool}
    (hident : hdr.eIdent = base)
    (hwide : (wideTraced memory base).result = wide)
    (hclass : Within base length ⟨base + eiClass, 1⟩)
    (hdata : Within base length ⟨base + eiData, 1⟩) :
    (programLoopTraced memory hdr (wordAdd base start) size
        (if wide then 0x08 else 0x04) count i).Loads (Within base length) ↔
      ∀ j < count, ∀ k < programExtent wide,
        word (start + size * (i + j) + k) < length := by
  induction count generalizing i with
  | zero => simp [programLoopTraced]
  | succ count ih =>
      simp only [programLoopTraced, Traced.loads_bind, Traced.loads_pure,
        orderMismatchTraced_loads, hident, hdata, and_true, true_and,
        readProgram_within hwide hclass, ih]
      rw [Nat.forall_lt_succ_left]
      simp only [Nat.add_zero, Nat.add_assoc, Nat.add_comm 1]

theorem sectionLoop_within {size : Nat} (hident : hdr.eIdent = base)
    (hdata : Within base length ⟨base + eiData, 1⟩) :
    (sectionLoopTraced memory hdr (wordAdd base start) size count i).Loads
        (Within base length) ↔
      ∀ j < count, ∀ k < sectionExtent,
        word (start + size * (i + j) + k) < length := by
  induction count generalizing i with
  | zero => simp [sectionLoopTraced]
  | succ count ih =>
      simp only [sectionLoopTraced, Traced.loads_bind, Traced.loads_pure,
        orderMismatchTraced_loads, hident, hdata, and_true, true_and,
        readSection_within, ih]
      rw [Nat.forall_lt_succ_left]
      simp only [Nat.add_zero, Nat.add_assoc, Nat.add_comm 1]

theorem tableFits_iff (hlength : length < wordSize) (hstart : start < wordSize)
    (hstride : 0 < stride) (hextent : stride ≤ extent) :
    (∀ j < count, ∀ k < extent, word (start + stride * (0 + j) + k) < length) ↔
      TableFits length start stride extent count := by
  simp only [Nat.zero_add, TableFits]
  rcases Nat.eq_zero_or_pos count with hzero | hpos
  · simp [hzero]
  · rw [table_within_iff hlength hstart hstride hextent hpos]
    constructor
    · exact .inr
    · rintro (hzero | hfits)
      · omega
      · exact hfits

theorem parseElfPrgHeader_within {wide : Bool} {block : Nat}
    (hlength : length < wordSize) (hident : hdr.eIdent = base)
    (hwide : (wideTraced memory base).result = wide)
    (hclass : Within base length ⟨base + eiClass, 1⟩)
    (hdata : Within base length ⟨base + eiData, 1⟩) (hblock : block ≠ 0) :
    (parseElfPrgHeaderTraced memory hdr (wordAdd base hdr.ePhoff.toNat)
        block).Loads (Within base length) ↔
      TableFits length hdr.ePhoff.toNat (programStride wide)
        (programExtent wide) hdr.ePhnum.toNat := by
  have hstride : 0 < programStride wide := by cases wide <;> decide
  have hextent : programStride wide ≤ programExtent wide := by
    cases wide <;> decide
  rw [← tableFits_iff hlength hdr.ePhoff.isLt hstride hextent,
    ← programLoop_within hident hwide hclass hdata]
  simp only [parseElfPrgHeaderTraced, Traced.loads_bind, wideTraced_loads,
    hident, hwide, hclass, true_and]
  rw [if_neg (fun hnull => hblock hnull.2)]
  simp only [Traced.loads_bind, Traced.loads_pure, and_true, programStride]

theorem parseElfSctHeader_within {wide : Bool} {block : Nat}
    (hlength : length < wordSize) (hident : hdr.eIdent = base)
    (hwide : (wideTraced memory base).result = wide)
    (hclass : Within base length ⟨base + eiClass, 1⟩)
    (hdata : Within base length ⟨base + eiData, 1⟩) (hblock : block ≠ 0) :
    (parseElfSctHeaderTraced memory hdr (wordAdd base hdr.eShoff.toNat)
        block).Loads (Within base length) ↔
      TableFits length hdr.eShoff.toNat (sectionStride wide) sectionExtent
        hdr.eShnum.toNat := by
  have hstride : 0 < sectionStride wide := by cases wide <;> decide
  have hextent : sectionStride wide ≤ sectionExtent := by
    cases wide <;> decide
  have hloop := @sectionLoop_within memory base length hdr.eShoff.toNat hdr
    hdr.eShnum.toNat 0 (sectionStride wide) hident hdata
  rw [← tableFits_iff hlength hdr.eShoff.isLt hstride hextent, ← hloop]
  simp only [parseElfSctHeaderTraced, Traced.loads_bind, wideTraced_loads,
    hident, hwide, hclass, true_and]
  rw [if_neg (fun hnull => hblock hnull.2)]
  simp only [Traced.loads_bind, Traced.loads_pure, and_true, sectionStride]

end

/-! ### The copy and the file -/

section

variable {memory other : Memory} {base place : Nat} {wide : Bool}

theorem readHeader_moved
    (hwide : (wideTraced memory base).result = wide)
    (hsame : ∀ k < headerExtent wide,
      memory (word (base + k)) = other (word (place + k))) :
    readHeader memory base =
      { readHeader other place with header := base, eIdent := base } := by
  have hload : ∀ {width offset : Nat}, offset + width / 8 ≤ headerExtent wide →
      load width memory (base + offset) = load width other (place + offset) := by
    intro width offset hfits
    apply load_moved
    intro k hk
    rw [Nat.add_assoc, Nat.add_assoc]
    exact hsame _ (by omega)
  have hclass := hsame eiClass (by cases wide <;> decide)
  rw [wideTraced_result] at hwide
  cases wide with
  | false =>
      simp only [readHeader, ← hclass, hwide, Bool.false_eq_true, if_false]
      simp (disch := decide) only [hload]
  | true =>
      simp only [readHeader, ← hclass, hwide, if_true]
      simp (disch := decide) only [hload]

theorem loadedHeader_moved
    (hwide : (wideTraced memory base).result = wide)
    (hsame : ∀ k < headerExtent wide,
      memory (word (base + k)) = other (word (place + k))) :
    loadedHeader memory base =
      { loadedHeader other place with header := base, eIdent := base } := by
  have hdata := hsame eiData (by cases wide <;> decide)
  have hmismatch : orderMismatch memory base = orderMismatch other place := by
    rw [orderMismatch, orderMismatch, hdata]
  rw [loadedHeader, loadedHeader, readHeader_moved hwide hsame]
  have hident : (readHeader other place).eIdent = place := rfl
  simp only [hident, hmismatch]
  split
  · rfl
  · rfl

end

/-! ### The whole call -/

/-- `kmalloc` answers every call, and the copy's block is apart from the file. -/
structure ElfBlocks.Fresh (blocks : ElfBlocks) (input len : Nat) : Prop where
  obj : blocks.obj ≠ 0
  file : blocks.file ≠ 0
  header : blocks.header ≠ 0
  programs : blocks.programs ≠ 0
  sections : blocks.sections ≠ 0
  space : blocks.file + len ≤ wordSize
  apart : blocks.file + len ≤ input ∨ input + len ≤ blocks.file

section

variable {memory : Memory} {base length : Nat}

theorem matchTraced_eq_true_iff {offset : Nat} {bytes : List UInt8} :
    (matchTraced memory base offset bytes).result = true ↔
      ∀ (k : Nat) (byte : UInt8), bytes[k]? = some byte →
        memory (word (base + (offset + k))) = byte := by
  induction bytes generalizing offset with
  | nil => simp [matchTraced]
  | cons first rest ih =>
      rw [matchTraced_cons_result, Bool.and_eq_true, decide_eq_true_eq, ih]
      constructor
      · rintro ⟨hfirst, hrest⟩ k byte hbyte
        cases k with
        | zero =>
            cases hbyte
            exact hfirst
        | succ k =>
            rw [Nat.add_comm k, ← Nat.add_assoc offset]
            exact hrest k byte hbyte
      · intro hall
        refine ⟨hall 0 first rfl, ?_⟩
        intro k byte hbyte
        rw [Nat.add_assoc offset, Nat.add_comm 1]
        exact hall (k + 1) byte hbyte

variable {bytes : List UInt8}

theorem matchMagic_within (hplaced : Placed memory base bytes) :
    (fileIsElfTraced memory base).Loads (Within base bytes.length) ↔
      4 ≤ bytes.length ∨ Differs bytes := by
  have hscan := @matchTraced_within memory base bytes.length 0 elfMagic
    (Nat.zero_le _) (by decide)
  rw [fileIsElfTraced, hscan]
  simp only [Nat.zero_add]
  apply or_congr Iff.rfl
  constructor
  · rintro ⟨k, byte, hbyte, hlt, hne⟩
    have hfound := List.getElem?_eq_getElem hlt
    rw [hplaced.byte_eq hfound] at hne
    exact ⟨k, byte, bytes[k], hbyte, hfound, hne⟩
  · rintro ⟨k, byte, found, hbyte, hfound, hne⟩
    have hlt := (List.getElem?_eq_some_iff.mp hfound).1
    refine ⟨k, byte, hbyte, hlt, ?_⟩
    rwa [hplaced.byte_eq hfound]

/-- A file with room for the magic number has it unless it differs from it. -/
theorem fileIsElf_iff (hplaced : Placed memory base bytes)
    (hroom : 4 ≤ bytes.length) :
    fileIsElf memory base = true ↔ ¬ Differs bytes := by
  rw [← fileIsElfTraced_result, fileIsElfTraced, matchTraced_eq_true_iff]
  simp only [Nat.zero_add]
  constructor
  · rintro hall ⟨k, byte, found, hbyte, hfound, hne⟩
    have hplace := hall k byte hbyte
    rw [hplaced.byte_eq hfound] at hplace
    exact hne hplace
  · intro hsame k byte hbyte
    have hk : k < 4 := (List.getElem?_eq_some_iff.mp hbyte).1
    have hfound := List.getElem?_eq_getElem (show k < bytes.length by omega)
    by_contra hne
    rw [hplaced.byte_eq hfound] at hne
    exact hsame ⟨k, byte, bytes[k], hbyte, hfound, hne⟩

theorem fileIsElf_of_differs (hplaced : Placed memory base bytes)
    (hdiffers : Differs bytes) : fileIsElf memory base = false := by
  obtain ⟨k, byte, found, hbyte, hfound, hne⟩ := hdiffers
  rw [← fileIsElfTraced_result, Bool.eq_false_iff, fileIsElfTraced, Ne,
    matchTraced_eq_true_iff]
  intro hall
  have hplace := hall k byte hbyte
  rw [Nat.zero_add, hplaced.byte_eq hfound] at hplace
  exact hne hplace

theorem copyBytes_placed {target source : Nat}
    (hplaced : Placed memory source bytes)
    (hsource : source + bytes.length ≤ wordSize)
    (htarget : target + bytes.length ≤ wordSize)
    (hapart : target + bytes.length ≤ source ∨
      source + bytes.length ≤ target) :
    ∀ k < bytes.length, copyBytes memory target source bytes.length
        (word (target + k)) = bytes.getD k 0 := by
  intro k hk
  have hfound := List.getElem?_eq_getElem hk
  have hbyte := hplaced.byte_eq hfound
  rw [word_of_lt (by omega)] at hbyte ⊢
  rw [copyBytes_inside htarget hsource hapart hk, hbyte,
    List.getD_eq_getElem?_getD, hfound, Option.getD_some]

theorem parseElfPrgHeader_ok {hdr : ElfHeader} {start block : Nat}
    (hblock : block ≠ 0) :
    ∃ array, parseElfPrgHeader memory hdr start block = .ok array :=
  ⟨_, by rw [parseElfPrgHeader, if_neg (fun hnull => hblock hnull.2)]⟩

theorem parseElfSctHeader_ok {hdr : ElfHeader} {start block : Nat}
    (hblock : block ≠ 0) :
    ∃ array, parseElfSctHeader memory hdr start block = .ok array :=
  ⟨_, by rw [parseElfSctHeader, if_neg (fun hnull => hblock hnull.2)]⟩

theorem parseElfHeader_loaded {block : Nat}
    (hisElf : fileIsElf memory base = true) (hblock : block ≠ 0) :
    parseElfHeader memory base block = .ok (some (loadedHeader memory base)) := by
  rw [parseElfHeader, hisElf, if_neg (by decide), if_neg hblock]
  rfl

theorem parseElfHeader_within {block : Nat} {wide : Bool}
    (hisElf : fileIsElf memory base = true) (hblock : block ≠ 0)
    (hmagic : (fileIsElfTraced memory base).Loads (Within base length))
    (hwide : (wideTraced memory base).result = wide) :
    (parseElfHeaderTraced memory base block).Loads (Within base length) ↔
      headerExtent wide ≤ length := by
  have hdata : Within base length ⟨base + eiData, 1⟩ ↔ eiData + 1 ≤ length :=
    within_iff (by decide) (by decide)
  have hident : (readHeader memory base).eIdent = base := rfl
  have hpast : eiData + 1 ≤ headerExtent wide := by cases wide <;> decide
  simp only [parseElfHeaderTraced, Traced.loads_bind, hmagic, true_and,
    fileIsElfTraced_result, hisElf, Bool.not_true, Bool.false_eq_true, if_false]
  rw [if_neg hblock]
  simp only [Traced.loads_bind, Traced.loads_pure, readHeader_within hwide,
    readHeaderTraced_result, hident, orderMismatchTraced_loads, hdata, and_true]
  omega

theorem parseCopy_within {blocks : ElfBlocks} {input len : Nat} {wide : Bool}
    (hfresh : blocks.Fresh input len) (hlength : length < wordSize)
    (hisElf : fileIsElf memory blocks.file = true)
    (hmagic : (fileIsElfTraced memory blocks.file).Loads
      (Within blocks.file length))
    (hwide : (wideTraced memory blocks.file).result = wide) :
    (parseCopyTraced memory len blocks).Loads (Within blocks.file length) ↔
      headerExtent wide ≤ length ∧
        TableFits length (loadedHeader memory blocks.file).ePhoff.toNat
          (programStride wide) (programExtent wide)
          (loadedHeader memory blocks.file).ePhnum.toNat ∧
        TableFits length (loadedHeader memory blocks.file).eShoff.toNat
          (sectionStride wide) sectionExtent
          (loadedHeader memory blocks.file).eShnum.toNat := by
  have hheader := parseElfHeaderTraced_result memory blocks.file blocks.header
  rw [parseElfHeader_loaded hisElf hfresh.header] at hheader
  rw [parseCopyTraced, Traced.loads_bind, hheader,
    parseElfHeader_within hisElf hfresh.header hmagic hwide]
  apply and_congr_right
  intro hroom
  have hident : (loadedHeader memory blocks.file).eIdent = blocks.file := by
    rw [loadedHeader]
    split
    · rfl
    · rfl
  have hpast : 6 ≤ headerExtent wide := by cases wide <;> decide
  have hclass : Within blocks.file length ⟨blocks.file + eiClass, 1⟩ :=
    (within_iff (by decide) (by decide)).mpr (by rw [eiClass]; omega)
  have hdata : Within blocks.file length ⟨blocks.file + eiData, 1⟩ :=
    (within_iff (by decide) (by decide)).mpr (by rw [eiData]; omega)
  obtain ⟨programs, hprograms⟩ := @parseElfPrgHeader_ok memory
    (loadedHeader memory blocks.file)
    (wordAdd blocks.file (loadedHeader memory blocks.file).ePhoff.toNat)
    blocks.programs hfresh.programs
  obtain ⟨sections, hsections⟩ := @parseElfSctHeader_ok memory
    (loadedHeader memory blocks.file)
    (wordAdd blocks.file (loadedHeader memory blocks.file).eShoff.toNat)
    blocks.sections hfresh.sections
  rw [← parseElfPrgHeaderTraced_result] at hprograms
  rw [← parseElfSctHeaderTraced_result] at hsections
  simp only [Traced.loads_bind, hprograms, hsections, Traced.loads_pure,
    and_true,
    parseElfPrgHeader_within hlength hident hwide hclass hdata hfresh.programs,
    parseElfSctHeader_within hlength hident hwide hclass hdata hfresh.sections]

theorem parseCopy_ne_none (len : Nat) (blocks : ElfBlocks) :
    (parseCopyTraced memory len blocks).result ≠ .ok none := by
  rw [parseCopyTraced, Traced.result_bind]
  cases (parseElfHeaderTraced memory blocks.file blocks.header).result with
  | error fault => simp
  | ok header =>
      cases header with
      | none => simp
      | some hdr =>
          simp only [Traced.result_bind]
          cases (parseElfPrgHeaderTraced memory hdr
            (wordAdd blocks.file hdr.ePhoff.toNat) blocks.programs).result with
          | error fault => simp
          | ok programs =>
              simp only [Traced.result_bind]
              cases (parseElfSctHeaderTraced memory hdr
                (wordAdd blocks.file hdr.eShoff.toNat)
                blocks.sections).result with
              | error fault => simp
              | ok sections => simp

end

section

variable {memory : Memory} {file : Nat} {blocks : ElfBlocks}
  {bytes : List UInt8}

theorem eiClass_lt_headerExtent (wide : Bool) : eiClass < headerExtent wide := by
  cases wide <;> decide

theorem wide_placed {base : Nat}
    (hbytes : ∀ k < bytes.length, memory (word (base + k)) = bytes.getD k 0)
    (hclass : eiClass < bytes.length) :
    (wideTraced memory base).result = fileWide bytes := by
  rw [wideTraced_result, hbytes eiClass hclass]
  rfl

theorem loadedHeader_placed {base : Nat} (hlength : bytes.length < wordSize)
    (hbytes : ∀ k < bytes.length, memory (word (base + k)) = bytes.getD k 0)
    (hextent : headerExtent (fileWide bytes) ≤ bytes.length) :
    loadedHeader memory base =
      { fileHeader bytes with header := base, eIdent := base } := by
  have hpast := eiClass_lt_headerExtent (fileWide bytes)
  refine loadedHeader_moved (wide_placed hbytes (by omega)) ?_
  intro k hk
  rw [hbytes k (by omega), image, Nat.zero_add, word_of_lt (by omega)]
  rfl

theorem parseElf_copy_within (hplaced : Placed memory file bytes)
    (hspace : file + bytes.length ≤ wordSize)
    (hfresh : blocks.Fresh file bytes.length) (hroom : 4 ≤ bytes.length)
    (hsame : ¬ Differs bytes) :
    (parseCopyTraced (copyBytes memory blocks.file file bytes.length)
        bytes.length blocks).Loads (Within blocks.file bytes.length) ↔
      Fits bytes (fileHeader bytes) (fileWide bytes) := by
  have hlength : bytes.length < wordSize := by
    have hne := hfresh.file
    have hcopy := hfresh.space
    omega
  have hcopied := copyBytes_placed hplaced hspace hfresh.space hfresh.apart
  have hcopyPlaced : Placed (copyBytes memory blocks.file file bytes.length)
      blocks.file bytes := placed_of_getD hcopied
  have hisElf := (fileIsElf_iff hcopyPlaced hroom).mpr hsame
  have hmagic := (matchMagic_within hcopyPlaced).mpr (.inl hroom)
  rw [parseCopy_within hfresh hlength hisElf hmagic rfl]
  constructor
  · rintro ⟨hextent, hprograms, hsections⟩
    have hpast := eiClass_lt_headerExtent
      (wideTraced (copyBytes memory blocks.file file bytes.length)
        blocks.file).result
    have hwide := wide_placed hcopied (by omega)
    rw [hwide] at hextent hprograms hsections
    rw [loadedHeader_placed hlength hcopied hextent] at hprograms hsections
    exact ⟨hextent, hprograms, hsections⟩
  · rintro ⟨hextent, hprograms, hsections⟩
    have hpast := eiClass_lt_headerExtent (fileWide bytes)
    rw [wide_placed hcopied (by omega),
      loadedHeader_placed hlength hcopied hextent]
    exact ⟨hextent, hprograms, hsections⟩

/-- `ParseELF` rejects a file for its magic number only, and stays inside it just
when that number already differs or the file is as long as its header says. -/
theorem parseElf_bounded_iff (hplaced : Placed memory file bytes)
    (hspace : file + bytes.length ≤ wordSize)
    (hfresh : blocks.Fresh file bytes.length) :
    ((parseElf memory file bytes.length blocks).Bounded file blocks.file
        bytes.length ↔
      Differs bytes ∨ Fits bytes (fileHeader bytes) (fileWide bytes)) ∧
    ((parseElf memory file bytes.length blocks).result = .ok none ↔
      fileIsElf memory file = false) := by
  have hmagic := matchMagic_within hplaced
  have hblocks : ¬(blocks.obj = 0 ∨ blocks.file = 0) :=
    not_or.mpr ⟨hfresh.obj, hfresh.file⟩
  have hextent : 0x34 ≤ headerExtent (fileWide bytes) := by
    cases fileWide bytes <;> decide
  rw [parseElf, fileIsElfTraced_result]
  by_cases hisElf : fileIsElf memory file = true
  · have hdiffers : ¬ Differs bytes := by
      intro hdiffers
      rw [fileIsElf_of_differs hplaced hdiffers] at hisElf
      cases hisElf
    rw [hisElf, if_neg (by decide), if_neg hblocks]
    refine ⟨?_, iff_of_false (parseCopy_ne_none _ _) (by decide)⟩
    by_cases hroom : 4 ≤ bytes.length
    · have hinput := hmagic.mpr (.inl hroom)
      have hcopy := parseElf_copy_within hplaced hspace hfresh hroom hdiffers
      exact (and_iff_right hinput).trans
        (hcopy.trans (or_iff_right hdiffers).symm)
    · refine iff_of_false ?_ ?_
      · rintro ⟨hinput, -⟩
        exact (hmagic.mp hinput).elim hroom hdiffers
      · rintro (hdiff | hfits)
        · exact hdiffers hdiff
        · have hfit := hfits.header
          omega
  · rw [Bool.not_eq_true] at hisElf
    rw [hisElf, if_pos (by decide)]
    refine ⟨?_, iff_of_true rfl rfl⟩
    have hdiffers : 4 ≤ bytes.length → Differs bytes := by
      intro hroom
      by_contra hsame
      rw [(fileIsElf_iff hplaced hroom).mpr hsame] at hisElf
      cases hisElf
    constructor
    · rintro ⟨hinput, -⟩
      exact .inl ((hmagic.mp hinput).elim hdiffers id)
    · rintro (hdiff | hfits)
      · exact ⟨hmagic.mpr (.inr hdiff), fun _ hmem => by cases hmem⟩
      · have hfit := hfits.header
        exact ⟨hmagic.mpr (.inl (by omega)), fun _ hmem => by cases hmem⟩

end

def sampleBlocks : ElfBlocks := ⟨0x2000, 0x3000, 0x4000, 0x5000, 0x6000⟩

def segmentFile : List UInt8 :=
  identBytes .elf64 .little (Vector.replicate 10 0) ++
    @FileHeader.bytes .elf64 .little
      ⟨2, 62, 1, 0x100000#64, 64#64, 0#64, 0, 64, 0x38, 1, 0x40, 0, 0⟩ ++
    ProgramHeader.bytes .little
      ⟨1, 5, 0#64, 0x100000#64, 0x100000#64, 0x78#64, 0x78#64, 0x1000#64⟩

theorem parseElf_bounded_segment :
    ((parseElf (image 0x1000 segmentFile) 0x1000 segmentFile.length
        sampleBlocks).Bounded 0x1000 sampleBlocks.file segmentFile.length ↔
      Differs segmentFile ∨
        Fits segmentFile (fileHeader segmentFile) (fileWide segmentFile)) ∧
    ((parseElf (image 0x1000 segmentFile) 0x1000 segmentFile.length
        sampleBlocks).result = .ok none ↔
      fileIsElf (image 0x1000 segmentFile) 0x1000 = false) :=
  parseElf_bounded_iff (by decide +kernel) (by decide +kernel)
    ⟨by decide, by decide, by decide, by decide, by decide, by decide +kernel,
      by decide +kernel⟩

/-- Four bytes are enough to be taken for an ELF file. -/
theorem parseElf_reads_past :
    ¬ (parseElf (image 0x1000 elfMagic) 0x1000 elfMagic.length
        sampleBlocks).Bounded 0x1000 sampleBlocks.file elfMagic.length := by
  decide +kernel

end Synos.Elf

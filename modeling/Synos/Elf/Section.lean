import Synos.Elf.Header

namespace Synos.Elf

open Synos.Data

/-! The parser of the section header table. -/

def readSection (memory : Memory) (ent : Nat) : ElfSectionHeader :=
  -- `sh_link_offset` is a `uint8_t`
  let shLinkOffset := (0x08 + 8 * 4) % 256
  { shName := load 32 memory ent
    shType := load 32 memory (ent + 0x04)
    shFlags := load 64 memory (ent + 0x08)
    shAddr := load 64 memory (ent + (0x08 + 8))
    shOffset := load 64 memory (ent + (0x08 + 8 * 2))
    shSize := load 64 memory (ent + (0x08 + 8 * 3))
    shLink := load 32 memory (ent + shLinkOffset)
    shInfo := load 32 memory (ent + (shLinkOffset + 4))
    shAddralign := load 64 memory (ent + (shLinkOffset + 4 * 2))
    shEntsize := load 64 memory (ent + (shLinkOffset + 4 * 2 + 8)) }

def swapSection (sct : ElfSectionHeader) : ElfSectionHeader :=
  let sct := { sct with shName := swapUint32 sct.shName }
  let sct := { sct with shType := swapUint32 sct.shType }
  let sct := { sct with shFlags := swapUintptr sct.shFlags }
  let sct := { sct with shAddr := swapUintptr sct.shAddr }
  -- from `sh_flags`, which is swapped by now
  let sct := { sct with shOffset := swapUintptr sct.shFlags }
  let sct := { sct with shSize := swapUintptr sct.shSize }
  let sct := { sct with shLink := swapUint32 sct.shLink }
  let sct := { sct with shInfo := swapUint32 sct.shInfo }
  let sct := { sct with shAddralign := swapUintptr sct.shAddralign }
  { sct with shEntsize := swapUintptr sct.shEntsize }

def sectionLoop (memory : Memory) (hdr : ElfHeader)
    (sctHdrStart hdrEntSize : Nat) : (count i : Nat) → List ElfSectionHeader
  | 0, _ => []
  | count + 1, i =>
      let sct := readSection memory (sctHdrStart + hdrEntSize * i)
      (if orderMismatch memory hdr.eIdent then swapSection sct else sct) ::
        sectionLoop memory hdr sctHdrStart hdrEntSize count (i + 1)

/-- `ParseELF_SCT_HEADER`, with `kmalloc`'s answer as for the file header. An
empty table writes nothing, so `block` may be 0 for it. -/
def parseElfSctHeader (memory : Memory) (hdr : ElfHeader)
    (sctHdrStart block : Nat) : Except Fault (List ElfSectionHeader) :=
  let hdrEntSize :=
    if memory (word (hdr.eIdent + eiClass)) = 2 then 0x40 else 0x28
  if 0 < hdr.eShnum.toNat ∧ block = 0 then .error .nullDereference
  else .ok (sectionLoop memory hdr sctHdrStart hdrEntSize hdr.eShnum.toNat 0)

/-- The 64-bit file that `hdr` belongs to has the table at `start`. -/
structure HasTable (memory : Memory) (hdr : ElfHeader) (start : Nat)
    (order : ByteOrder) (entries : List ElfSectionHeader) : Prop where
  wide : memory (word (hdr.eIdent + eiClass)) = ElfClass.elf64.code
  data : memory (word (hdr.eIdent + eiData)) = orderCode order
  count : hdr.eShnum.toNat = entries.length
  table : Placed memory start (tableBytes order entries)

/-- What becomes of an entry: a foreign `sh_offset` is the stored `sh_flags`. -/
def decodedSection (order : ByteOrder) (entry : ElfSectionHeader) :
    ElfSectionHeader :=
  match order with
  | .little => entry
  | .big => { entry with shOffset := byteSwap entry.shFlags }

section

variable {memory : Memory} {hdr : ElfHeader} {start : Nat} {order : ByteOrder}
  {entries : List ElfSectionHeader}

theorem readSection_raw {entry : ElfSectionHeader} {ent : Nat}
    (hplaced : Placed memory ent (entry.bytes order)) :
    readSection memory ent =
      { shName := order.stored entry.shName
        shType := order.stored entry.shType
        shFlags := order.stored entry.shFlags
        shAddr := order.stored entry.shAddr
        shOffset := order.stored entry.shOffset
        shSize := order.stored entry.shSize
        shLink := order.stored entry.shLink
        shInfo := order.stored entry.shInfo
        shAddralign := order.stored entry.shAddralign
        shEntsize := order.stored entry.shEntsize } := by
  simp only [ElfSectionHeader.bytes, placed_append, length_encode,
    Nat.reduceDiv, Nat.add_assoc, Nat.reduceAdd] at hplaced
  obtain ⟨hname, htype, hflags, haddr, hoffset, hsize, hlink, hinfo, halign,
    hentsize⟩ := hplaced
  simp only [readSection, ElfSectionHeader.mk.injEq, Nat.reduceAdd,
    Nat.reduceMul, Nat.reduceMod]
  exact ⟨hname.load_eq (by decide), htype.load_eq (by decide),
    hflags.load_eq (by decide), haddr.load_eq (by decide),
    hoffset.load_eq (by decide), hsize.load_eq (by decide),
    hlink.load_eq (by decide), hinfo.load_eq (by decide),
    halign.load_eq (by decide), hentsize.load_eq (by decide)⟩

theorem readSection_decoded {entry : ElfSectionHeader} {ent : Nat}
    (hplaced : Placed memory ent (entry.bytes order)) :
    (if (order == .big) = true then swapSection (readSection memory ent)
      else readSection memory ent) = decodedSection order entry := by
  rw [readSection_raw hplaced]
  cases order with
  | little => rfl
  | big =>
      simp only [beq_self_eq_true, if_true, swapSection, decodedSection,
        ByteOrder.stored, swapUint32_byteSwap, swapUintptr_byteSwap]
      -- `sh_offset` comes from `sh_flags`
      rw [swapUintptr_eq]

theorem sectionLoop_decoded
    (hdata : memory (word (hdr.eIdent + eiData)) = orderCode order) {i : Nat}
    (htable : Placed memory (start + 0x40 * i) (tableBytes order entries)) :
    sectionLoop memory hdr start 0x40 entries.length i =
      entries.map (decodedSection order) := by
  induction entries generalizing i with
  | nil => rfl
  | cons entry rest ih =>
      rw [tableBytes, List.flatMap_cons, placed_append,
        ElfSectionHeader.length_bytes] at htable
      obtain ⟨hentry, hrest⟩ := htable
      rw [List.length_cons, sectionLoop, List.map_cons,
        orderMismatch_eq hdata, readSection_decoded hentry,
        ih (by rw [Nat.mul_succ, ← Nat.add_assoc]; exact hrest)]

theorem parseElfSctHeader_decoded {block : Nat}
    (htable : HasTable memory hdr start order entries)
    (hblock : entries ≠ [] → block ≠ 0) :
    parseElfSctHeader memory hdr start block =
      .ok (entries.map (decodedSection order)) := by
  have hno : ¬(0 < hdr.eShnum.toNat ∧ block = 0) := by
    rintro ⟨hpos, hzero⟩
    rw [htable.count] at hpos
    exact hblock (List.ne_nil_of_length_pos hpos) hzero
  rw [parseElfSctHeader, if_neg hno, htable.wide, htable.count]
  exact congrArg Except.ok (sectionLoop_decoded htable.data htable.table)

theorem decodedSections_eq_self :
    entries.map (decodedSection order) = entries ↔
      ∀ entry ∈ entries, decodedSection order entry = entry := by
  have hmap := @List.map_inj_left _ _ entries (decodedSection order) id
  rwa [List.map_id] at hmap

theorem parseElfSctHeader_ok_iff {block : Nat}
    (htable : HasTable memory hdr start order entries) :
    parseElfSctHeader memory hdr start block = .ok entries ↔
      (entries ≠ [] → block ≠ 0) ∧
        ∀ entry ∈ entries, decodedSection order entry = entry := by
  by_cases hblock : entries ≠ [] → block ≠ 0
  · rw [parseElfSctHeader_decoded htable hblock, Except.ok.injEq,
      decodedSections_eq_self]
    exact (and_iff_right hblock).symm
  · have hfault : parseElfSctHeader memory hdr start block =
        .error .nullDereference := by
      obtain ⟨hne, hzero⟩ := Classical.not_imp.mp hblock
      have hpos := List.length_pos_of_ne_nil hne
      rw [← htable.count] at hpos
      rw [parseElfSctHeader, if_pos ⟨hpos, Classical.not_not.mp hzero⟩]
    rw [hfault]
    exact iff_of_false (fun hok => by cases hok) fun hboth => hblock hboth.1

end

theorem decodedSection_big_eq_self {entry : ElfSectionHeader} :
    decodedSection .big entry = entry ↔
      entry.shOffset = byteSwap entry.shFlags := by
  constructor
  · intro heq
    exact (congrArg ElfSectionHeader.shOffset heq).symm
  · intro heq
    simp only [decodedSection, ← heq]

/-- Both encodings of a table give its entries exactly when `kmalloc` answers and
every `sh_offset` happens to be `sh_flags` with its bytes reversed. -/
theorem parseElfSctHeader_alike_iff {entries : List ElfSectionHeader}
    {memory other : Memory} {hdr otherHdr : ElfHeader}
    {start otherStart block otherBlock : Nat}
    (hlittle : HasTable memory hdr start .little entries)
    (hbig : HasTable other otherHdr otherStart .big entries) :
    (parseElfSctHeader memory hdr start block =
          parseElfSctHeader other otherHdr otherStart otherBlock ∧
        parseElfSctHeader memory hdr start block = .ok entries) ↔
      (entries ≠ [] → block ≠ 0 ∧ otherBlock ≠ 0) ∧
        ∀ entry ∈ entries, entry.shOffset = byteSwap entry.shFlags := by
  simp only [← decodedSection_big_eq_self]
  have hfirst := @parseElfSctHeader_ok_iff _ _ _ _ _ block hlittle
  have hsecond := @parseElfSctHeader_ok_iff _ _ _ _ _ otherBlock hbig
  constructor
  · rintro ⟨halike, hok⟩
    rw [hok] at halike
    obtain ⟨hblock, -⟩ := hfirst.mp hok
    obtain ⟨hotherBlock, hsame⟩ := hsecond.mp halike.symm
    exact ⟨fun hne => ⟨hblock hne, hotherBlock hne⟩, hsame⟩
  · rintro ⟨hblocks, hsame⟩
    have hok := hfirst.mpr ⟨fun hne => (hblocks hne).1, fun _ _ => rfl⟩
    have hotherOk := hsecond.mpr ⟨fun hne => (hblocks hne).2, hsame⟩
    exact ⟨hok.trans hotherOk.symm, hok⟩

def nullSection : ElfSectionHeader :=
  ⟨0, 0, 0, 0, 0, 0, 0, 0, 0, 0⟩

def tableImage (order : ByteOrder) (entries : List ElfSectionHeader) : Memory :=
  image 0x1000 (identBytes .elf64 order (Vector.replicate 10 0) ++
    tableBytes order entries)

def tableHeader (count : BitVec 16) : ElfHeader :=
  ⟨0x1000, 0x1000, 0, 0, 0, 0, 0, 0, 0, 0, 0, 0, 0, count, 0⟩

/-- The null section and one without contents in the file. -/
def emptySections : List ElfSectionHeader :=
  [nullSection, { nullSection with shType := 8, shAddr := 0x100000, shSize := 64 }]

theorem parseElfSctHeader_alike_noBits :
    parseElfSctHeader (tableImage .little emptySections) (tableHeader 2) 0x1010
        0x4000 =
      parseElfSctHeader (tableImage .big emptySections) (tableHeader 2) 0x1010
        0x4000 ∧
    parseElfSctHeader (tableImage .little emptySections) (tableHeader 2) 0x1010
        0x4000 = .ok emptySections :=
  (@parseElfSctHeader_alike_iff emptySections (tableImage .little emptySections)
    (tableImage .big emptySections) (tableHeader 2) (tableHeader 2) 0x1010 0x1010
    0x4000 0x4000
    ⟨by decide +kernel, by decide +kernel, rfl, by decide +kernel⟩
    ⟨by decide +kernel, by decide +kernel, rfl, by decide +kernel⟩).mpr
    ⟨fun _ => by decide, by decide +kernel⟩

/-- The null section and a code section. -/
def codeSections : List ElfSectionHeader :=
  [nullSection, { nullSection with shType := 1, shFlags := 6, shOffset := 0x1000 }]

theorem parseElfSctHeader_misplaces :
    ¬(parseElfSctHeader (tableImage .little codeSections) (tableHeader 2) 0x1010
          0x4000 =
        parseElfSctHeader (tableImage .big codeSections) (tableHeader 2) 0x1010
          0x4000 ∧
      parseElfSctHeader (tableImage .little codeSections) (tableHeader 2) 0x1010
          0x4000 = .ok codeSections) := by
  rintro ⟨halike, hok⟩
  have hoffsets : (parseElfSctHeader (tableImage .big codeSections)
        (tableHeader 2) 0x1010 0x4000).map (List.map ElfSectionHeader.shOffset) =
      .ok [0, 0x600000000000000] := by
    decide +kernel
  rw [← halike, hok] at hoffsets
  exact absurd (Except.ok.inj hoffsets) (by decide)

end Synos.Elf

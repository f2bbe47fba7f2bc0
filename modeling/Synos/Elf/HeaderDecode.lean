import Synos.Elf.Header

namespace Synos.Elf

open Synos.Data

/-! What the header parser makes of a header that is laid out as the format
prescribes, field by field. -/

structure FileHeader.Matches {cls : ElfClass} (file : FileHeader cls)
    (hdr : ElfHeader) : Prop where
  eType : hdr.eType = file.eType
  eMachine : hdr.eMachine = file.eMachine
  eVersion : hdr.eVersion = file.eVersion
  eEntry : hdr.eEntry = file.eEntry.setWidth 64
  ePhoff : hdr.ePhoff = file.ePhoff.setWidth 64
  eShoff : hdr.eShoff = file.eShoff.setWidth 64
  eFlags : hdr.eFlags = file.eFlags
  eEhsize : hdr.eEhsize = file.eEhsize
  ePhentsize : hdr.ePhentsize = file.ePhentsize
  ePhnum : hdr.ePhnum = file.ePhnum
  eShentsize : hdr.eShentsize = file.eShentsize
  eShnum : hdr.eShnum = file.eShnum
  eShstrndx : hdr.eShstrndx = file.eShstrndx

/-- Where the parser's own slips and eight-byte reads do no harm. -/
def FileHeader.Decodable : {cls : ElfClass} → ByteOrder → FileHeader cls → Prop
  | .elf64, .little, _ => True
  | .elf64, .big, file =>
      byteSwap file.eMachine = file.eMachine ∧
        file.eShoff = byteSwap file.ePhoff
  | .elf32, .little, file =>
      file.ePhoff = 0 ∧ file.eShoff = 0 ∧ file.eFlags = 0
  | .elf32, .big, file =>
      byteSwap file.eMachine = file.eMachine ∧ file.eEntry = 0 ∧
        file.ePhoff = 0 ∧ file.eShoff = 0

/-! ### The eight bytes behind an address field

In a 32-bit file the read takes the field after it along. -/

def FileHeader.entryWord : {cls : ElfClass} → ByteOrder → FileHeader cls →
    BitVec 64
  | .elf32, order, file => @ByteOrder.join 32 order file.eEntry file.ePhoff
  | .elf64, _, file => file.eEntry

def FileHeader.phoffWord : {cls : ElfClass} → ByteOrder → FileHeader cls →
    BitVec 64
  | .elf32, order, file => @ByteOrder.join 32 order file.ePhoff file.eShoff
  | .elf64, _, file => file.ePhoff

def FileHeader.shoffWord : {cls : ElfClass} → ByteOrder → FileHeader cls →
    BitVec 64
  | .elf32, order, file => @ByteOrder.join 32 order file.eShoff file.eFlags
  | .elf64, _, file => file.eShoff

def rawHeader {cls : ElfClass} (start : Nat) (order : ByteOrder)
    (file : FileHeader cls) : ElfHeader where
  header := start
  eIdent := start
  eType := order.stored file.eType
  eMachine := order.stored file.eMachine
  eVersion := order.stored file.eVersion
  eEntry := order.stored (file.entryWord order)
  ePhoff := order.stored (file.phoffWord order)
  eShoff := order.stored (file.shoffWord order)
  eFlags := order.stored file.eFlags
  eEhsize := order.stored file.eEhsize
  ePhentsize := order.stored file.ePhentsize
  ePhnum := order.stored file.ePhnum
  eShentsize := order.stored file.eShentsize
  eShnum := order.stored file.eShnum
  eShstrndx := order.stored file.eShstrndx

/-- What the parser makes of the header: in a foreign file `e_machine` stays as
it was loaded, and `e_shoff` is the stored `e_phoff`. -/
def decodedHeader {cls : ElfClass} (start : Nat) (order : ByteOrder)
    (file : FileHeader cls) : ElfHeader where
  header := start
  eIdent := start
  eType := file.eType
  eMachine := order.stored file.eMachine
  eVersion := file.eVersion
  eEntry := file.entryWord order
  ePhoff := file.phoffWord order
  eShoff :=
    match order with
    | .little => file.shoffWord .little
    | .big => byteSwap (file.phoffWord .big)
  eFlags := file.eFlags
  eEhsize := file.eEhsize
  ePhentsize := file.ePhentsize
  ePhnum := file.ePhnum
  eShentsize := file.eShentsize
  eShnum := file.eShnum
  eShstrndx := file.eShstrndx

section

variable {cls : ElfClass} {order : ByteOrder} {rest : Vector UInt8 10}
  {memory : Memory} {start : Nat}

theorem placed_isElf (hident : Placed memory start (identBytes cls order rest)) :
    fileIsElf memory start = true := by
  obtain ⟨hmag0, hmag1, hmag2, hmag3, -⟩ := hident
  simp [fileIsElf, hmag0, hmag1, hmag2, hmag3]

theorem placed_class (hident : Placed memory start (identBytes cls order rest)) :
    memory (word (start + eiClass)) = cls.code := by
  obtain ⟨-, -, -, -, hclass, -⟩ := hident
  exact hclass

theorem placed_order (hident : Placed memory start (identBytes cls order rest)) :
    orderMismatch memory start = (order == .big) := by
  obtain ⟨-, -, -, -, -, hdata, -⟩ := hident
  exact orderMismatch_eq hdata

theorem readHeader_raw {file : FileHeader cls}
    (hident : Placed memory start (identBytes cls order rest))
    (hfields : Placed memory (start + 16) (file.bytes order)) :
    readHeader memory start = rawHeader start order file := by
  cases cls with
  | elf64 =>
      simp only [FileHeader.bytes, placed_append, length_encode] at hfields
      simp only [ElfClass.width, Nat.reduceDiv, Nat.add_assoc, Nat.reduceAdd]
        at hfields
      obtain ⟨htype, hmachine, hversion, hentry, hphoff, hshoff, hflags,
        hehsize, hphentsize, hphnum, hshentsize, hshnum, hshstrndx⟩ := hfields
      simp only [readHeader, placed_class hident, ElfClass.code, decide_true,
        if_true, rawHeader, FileHeader.entryWord, FileHeader.phoffWord,
        FileHeader.shoffWord, ElfHeader.mk.injEq, true_and, Nat.reduceAdd]
      exact ⟨htype.load_eq (by decide), hmachine.load_eq (by decide),
        hversion.load_eq (by decide), hentry.load_eq (by decide),
        hphoff.load_eq (by decide), hshoff.load_eq (by decide),
        hflags.load_eq (by decide), hehsize.load_eq (by decide),
        hphentsize.load_eq (by decide), hphnum.load_eq (by decide),
        hshentsize.load_eq (by decide), hshnum.load_eq (by decide),
        hshstrndx.load_eq (by decide)⟩
  | elf32 =>
      simp only [FileHeader.bytes, placed_append, length_encode] at hfields
      simp only [ElfClass.width, Nat.reduceDiv, Nat.add_assoc, Nat.reduceAdd]
        at hfields
      obtain ⟨htype, hmachine, hversion, hentry, hphoff, hshoff, hflags,
        hehsize, hphentsize, hphnum, hshentsize, hshnum, hshstrndx⟩ := hfields
      have hnarrow : ¬((1 : UInt8) = 2) := by decide
      simp only [readHeader, placed_class hident, ElfClass.code, hnarrow,
        decide_false, Bool.false_eq_true, if_false, rawHeader,
        FileHeader.entryWord, FileHeader.phoffWord,
        FileHeader.shoffWord, ElfHeader.mk.injEq, true_and, Nat.reduceAdd]
      exact ⟨htype.load_eq (by decide), hmachine.load_eq (by decide),
        hversion.load_eq (by decide),
        hentry.load_join (by decide) hphoff,
        hphoff.load_join (by decide) hshoff,
        hshoff.load_join (by decide) hflags,
        hflags.load_eq (by decide), hehsize.load_eq (by decide),
        hphentsize.load_eq (by decide), hphnum.load_eq (by decide),
        hshentsize.load_eq (by decide), hshnum.load_eq (by decide),
        hshstrndx.load_eq (by decide)⟩

theorem swapHeader_raw (file : FileHeader cls) :
    swapHeader (rawHeader start .big file) = decodedHeader start .big file := by
  simp only [swapHeader, rawHeader, decodedHeader, ByteOrder.stored,
    swapUint16_byteSwap, swapUint32_byteSwap, swapUintptr_byteSwap]
  -- `e_machine` is swapped twice, and `e_shoff` comes from `e_phoff`
  rw [swapUint16_eq, swapUintptr_eq]

theorem parseElfHeader_laid {file : FileHeader cls} {block : Nat}
    (hident : Placed memory start (identBytes cls order rest))
    (hfields : Placed memory (start + 16) (file.bytes order))
    (hblock : block ≠ 0) :
    parseElfHeader memory start block =
      .ok (some (decodedHeader start order file)) := by
  rw [parseElfHeader, placed_isElf hident, readHeader_raw hident hfields,
    if_neg (by decide), if_neg hblock]
  cases order with
  | little =>
      simp only [rawHeader, placed_order hident]
      rfl
  | big =>
      rw [← swapHeader_raw]
      simp only [rawHeader, placed_order hident]
      rfl

end

/-! ### Which headers come out right -/

section

variable {width : Nat} {high low : BitVec width}

theorem toNat_append_eq : (high ++ low).toNat =
    high.toNat * 2 ^ width + low.toNat := by
  rw [BitVec.toNat_append, ← Nat.shiftLeft_add_eq_or_of_lt low.isLt,
    Nat.shiftLeft_eq]

theorem append_eq_low :
    high ++ low = low.setWidth (width + width) ↔ high = 0 := by
  have hpos := Nat.two_pow_pos width
  rw [← BitVec.toNat_inj, ← BitVec.toNat_inj, toNat_append_eq,
    BitVec.toNat_setWidth_of_le (by omega)]
  constructor
  · intro heq
    have hzero : high.toNat * 2 ^ width = 0 := by omega
    rcases Nat.mul_eq_zero.mp hzero with hhigh | hpow
    · simpa using hhigh
    · omega
  · intro hhigh
    rw [hhigh]
    simp

theorem append_eq_high (hwidth : 0 < width) :
    high ++ low = high.setWidth (width + width) ↔ high = 0 ∧ low = 0 := by
  have hpow : 2 ^ 1 ≤ 2 ^ width := Nat.pow_le_pow_right (by decide) hwidth
  have hdouble := Nat.mul_le_mul_left high.toNat hpow
  have hzero : (0 : BitVec width).toNat = 0 := by simp
  rw [← BitVec.toNat_inj, ← BitVec.toNat_inj, ← BitVec.toNat_inj,
    toNat_append_eq, BitVec.toNat_setWidth_of_le (by omega), hzero]
  constructor
  · intro heq
    omega
  · rintro ⟨hhigh, hlow⟩
    rw [hhigh, hlow]
    simp

end

theorem matches_decoded {cls : ElfClass} {order : ByteOrder}
    {file : FileHeader cls} {start : Nat} :
    file.Matches (decodedHeader start order file) ↔
      order.stored file.eMachine = file.eMachine ∧
        file.entryWord order = file.eEntry.setWidth 64 ∧
        file.phoffWord order = file.ePhoff.setWidth 64 ∧
        (decodedHeader start order file).eShoff =
          file.eShoff.setWidth 64 := by
  constructor
  · intro hmatches
    exact ⟨hmatches.eMachine, hmatches.eEntry, hmatches.ePhoff,
      hmatches.eShoff⟩
  · rintro ⟨hmachine, hentry, hphoff, hshoff⟩
    exact ⟨rfl, hmachine, rfl, hentry, hphoff, hshoff, rfl, rfl, rfl, rfl,
      rfl, rfl, rfl⟩

theorem matches_iff_decodable {cls : ElfClass} {order : ByteOrder}
    {file : FileHeader cls} {start : Nat} :
    file.Matches (decodedHeader start order file) ↔
      file.Decodable order := by
  rw [matches_decoded]
  cases cls with
  | elf64 =>
      have hentry : file.eEntry = file.eEntry.setWidth 64 :=
        (@BitVec.setWidth_eq 64 file.eEntry).symm
      have hphoff : file.ePhoff = file.ePhoff.setWidth 64 :=
        (@BitVec.setWidth_eq 64 file.ePhoff).symm
      have hshoff : file.eShoff = file.eShoff.setWidth 64 :=
        (@BitVec.setWidth_eq 64 file.eShoff).symm
      cases order with
      | little => exact iff_of_true ⟨rfl, hentry, hphoff, hshoff⟩ trivial
      | big =>
          constructor
          · rintro ⟨hmachine, -, -, hswapped⟩
            exact ⟨hmachine, hshoff.trans hswapped.symm⟩
          · rintro ⟨hmachine, hswapped⟩
            exact ⟨hmachine, hentry, hphoff, hswapped.symm.trans hshoff⟩
  | elf32 =>
      cases order with
      | little =>
          constructor
          · rintro ⟨-, hentry, hphoff, hshoff⟩
            exact ⟨(@append_eq_low 32 _ _).mp hentry,
              (@append_eq_low 32 _ _).mp hphoff,
              (@append_eq_low 32 _ _).mp hshoff⟩
          · rintro ⟨hphoff, hshoff, hflags⟩
            exact ⟨rfl, (@append_eq_low 32 _ _).mpr hphoff,
              (@append_eq_low 32 _ _).mpr hshoff,
              (@append_eq_low 32 _ _).mpr hflags⟩
      | big =>
          have hpos : 0 < 32 := by decide
          constructor
          · rintro ⟨hmachine, hentry, hphoff, -⟩
            have hfirst := (@append_eq_high 32 _ _ hpos).mp hentry
            have hsecond := (@append_eq_high 32 _ _ hpos).mp hphoff
            exact ⟨hmachine, hfirst.1, hsecond.1, hsecond.2⟩
          · rintro ⟨hmachine, hentry, hphoff, hshoff⟩
            refine ⟨hmachine, (@append_eq_high 32 _ _ hpos).mpr ⟨hentry, hphoff⟩,
              (@append_eq_high 32 _ _ hpos).mpr ⟨hphoff, hshoff⟩, ?_⟩
            simp only [decodedHeader, FileHeader.phoffWord, ByteOrder.join,
              hphoff, hshoff]
            decide

/-- A header comes out right in all its fields exactly when `kmalloc` has a block
for it and the fields that are swapped or read wrongly happen not to show it. -/
theorem parseElfHeader_matches_iff {cls : ElfClass} {order : ByteOrder}
    {rest : Vector UInt8 10} {file : FileHeader cls} {memory : Memory}
    {start block : Nat}
    (hplaced : Placed memory start
      (identBytes cls order rest ++ file.bytes order)) :
    (∃ hdr, parseElfHeader memory start block = .ok (some hdr) ∧
        file.Matches hdr) ↔
      block ≠ 0 ∧ file.Decodable order := by
  rw [placed_append, length_identBytes] at hplaced
  obtain ⟨hident, hfields⟩ := hplaced
  by_cases hblock : block = 0
  · have hfault : parseElfHeader memory start block =
        .error .nullDereference := by
      rw [parseElfHeader, placed_isElf hident, if_neg (by decide), if_pos hblock]
    rw [hfault]
    simp [hblock]
  · rw [parseElfHeader_laid hident hfields hblock,
      ← @matches_iff_decodable _ _ _ start]
    constructor
    · rintro ⟨hdr, hparsed, hmatches⟩
      cases hparsed
      exact ⟨hblock, hmatches⟩
    · rintro ⟨-, hmatches⟩
      exact ⟨_, rfl, hmatches⟩

def executableHeader : FileHeader .elf64 where
  eType := 2
  eMachine := 62
  eVersion := 1
  eEntry := 0x100000#64
  ePhoff := 64#64
  eShoff := 0x4000#64
  eFlags := 0
  eEhsize := 64
  ePhentsize := 56
  ePhnum := 3
  eShentsize := 64
  eShnum := 12
  eShstrndx := 11

def executableBytes (order : ByteOrder) : List UInt8 :=
  identBytes .elf64 order (Vector.replicate 10 0) ++
    executableHeader.bytes order

theorem parseElfHeader_matches_executable :
    ∃ hdr, parseElfHeader (image 0x1000 (executableBytes .little)) 0x1000 0x2000 =
        .ok (some hdr) ∧ executableHeader.Matches hdr :=
  (@parseElfHeader_matches_iff .elf64 .little (Vector.replicate 10 0)
    executableHeader (image 0x1000 (executableBytes .little)) 0x1000 0x2000
    (by decide +kernel)).mpr ⟨by decide, trivial⟩

def narrowHeader : FileHeader .elf32 where
  eType := 2
  eMachine := 3
  eVersion := 1
  eEntry := 0x100000#32
  ePhoff := 52#32
  eShoff := 0x4000#32
  eFlags := 0
  eEhsize := 52
  ePhentsize := 32
  ePhnum := 3
  eShentsize := 40
  eShnum := 12
  eShstrndx := 11

def narrowBytes : List UInt8 :=
  identBytes .elf32 .little (Vector.replicate 10 0) ++
    narrowHeader.bytes .little

theorem parseElfHeader_misreads :
    (¬∃ hdr, parseElfHeader (image 0x1000 (executableBytes .big)) 0x1000 0x2000 =
        .ok (some hdr) ∧ executableHeader.Matches hdr) ∧
      ¬∃ hdr, parseElfHeader (image 0x1000 narrowBytes) 0x1000 0x2000 =
        .ok (some hdr) ∧ narrowHeader.Matches hdr := by
  constructor
  · rintro ⟨hdr, hparsed, hmatches⟩
    have hmachine : (parseElfHeader (image 0x1000 (executableBytes .big)) 0x1000
        0x2000).map (Option.map ElfHeader.eMachine) = .ok (some 0x3E00) := by
      decide +kernel
    rw [hparsed] at hmachine
    have hread : hdr.eMachine = 0x3E00 := Option.some.inj (Except.ok.inj hmachine)
    rw [hmatches.eMachine] at hread
    exact absurd hread (by decide)
  · rintro ⟨hdr, hparsed, hmatches⟩
    have hentry : (parseElfHeader (image 0x1000 narrowBytes) 0x1000
        0x2000).map (Option.map ElfHeader.eEntry) =
          .ok (some 0x3400100000) := by
      decide +kernel
    rw [hparsed] at hentry
    have hread : hdr.eEntry = 0x3400100000 :=
      Option.some.inj (Except.ok.inj hentry)
    rw [hmatches.eEntry] at hread
    exact absurd hread (by decide)

end Synos.Elf

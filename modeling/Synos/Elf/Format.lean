import Synos.Data.Endian

namespace Synos.Elf

open Synos.Data

/-! The file format: headers with the fields of their class, and the bytes they
are laid out in. Nothing here is taken from the parser. -/

inductive ElfClass
  | elf32
  | elf64
  deriving DecidableEq, Repr

def ElfClass.code : ElfClass → UInt8
  | .elf32 => 1
  | .elf64 => 2

/-- The width of addresses and file offsets. -/
def ElfClass.width : ElfClass → Nat
  | .elf32 => 32
  | .elf64 => 64

def orderCode : ByteOrder → UInt8
  | .little => 1
  | .big => 2

/-- The fields of a file's header, after the identification bytes. -/
structure FileHeader (cls : ElfClass) where
  eType : BitVec 16
  eMachine : BitVec 16
  eVersion : BitVec 32
  eEntry : BitVec cls.width
  ePhoff : BitVec cls.width
  eShoff : BitVec cls.width
  eFlags : BitVec 32
  eEhsize : BitVec 16
  ePhentsize : BitVec 16
  ePhnum : BitVec 16
  eShentsize : BitVec 16
  eShnum : BitVec 16
  eShstrndx : BitVec 16

/-- The identification bytes after the byte order are left to the file. -/
def identBytes (cls : ElfClass) (order : ByteOrder) (rest : Vector UInt8 10) :
    List UInt8 :=
  [0x7F, 0x45, 0x4C, 0x46, cls.code, orderCode order] ++ rest.toList

def FileHeader.bytes {cls : ElfClass} (order : ByteOrder)
    (header : FileHeader cls) : List UInt8 :=
  encode order header.eType ++ (encode order header.eMachine ++
    (encode order header.eVersion ++ (encode order header.eEntry ++
    (encode order header.ePhoff ++ (encode order header.eShoff ++
    (encode order header.eFlags ++ (encode order header.eEhsize ++
    (encode order header.ePhentsize ++ (encode order header.ePhnum ++
    (encode order header.eShentsize ++ (encode order header.eShnum ++
    encode order header.eShstrndx)))))))))))

/-- An entry of the section header table of a 64-bit file. The parser's own
structure has the same ten fields of the same widths. -/
structure ElfSectionHeader where
  shName : BitVec 32
  shType : BitVec 32
  shFlags : BitVec 64
  shAddr : BitVec 64
  shOffset : BitVec 64
  shSize : BitVec 64
  shLink : BitVec 32
  shInfo : BitVec 32
  shAddralign : BitVec 64
  shEntsize : BitVec 64
  deriving DecidableEq

def ElfSectionHeader.bytes (order : ByteOrder)
    (entry : ElfSectionHeader) : List UInt8 :=
  encode order entry.shName ++ (encode order entry.shType ++
    (encode order entry.shFlags ++ (encode order entry.shAddr ++
    (encode order entry.shOffset ++ (encode order entry.shSize ++
    (encode order entry.shLink ++ (encode order entry.shInfo ++
    (encode order entry.shAddralign ++ encode order entry.shEntsize))))))))

def tableBytes (order : ByteOrder) (entries : List ElfSectionHeader) :
    List UInt8 :=
  entries.flatMap (ElfSectionHeader.bytes order)

/-- An entry of the program header table of a 64-bit file. -/
structure ProgramHeader where
  pType : BitVec 32
  pFlags : BitVec 32
  pOffset : BitVec 64
  pVaddr : BitVec 64
  pPaddr : BitVec 64
  pFilesz : BitVec 64
  pMemsz : BitVec 64
  pAlign : BitVec 64
  deriving DecidableEq

def ProgramHeader.bytes (order : ByteOrder) (entry : ProgramHeader) :
    List UInt8 :=
  encode order entry.pType ++ (encode order entry.pFlags ++
    (encode order entry.pOffset ++ (encode order entry.pVaddr ++
    (encode order entry.pPaddr ++ (encode order entry.pFilesz ++
    (encode order entry.pMemsz ++ encode order entry.pAlign))))))

def programTableBytes (order : ByteOrder) (entries : List ProgramHeader) :
    List UInt8 :=
  entries.flatMap (ProgramHeader.bytes order)

@[simp] theorem length_identBytes (cls : ElfClass) (order : ByteOrder)
    (rest : Vector UInt8 10) : (identBytes cls order rest).length = 16 := by
  simp [identBytes]

@[simp] theorem ElfSectionHeader.length_bytes (order : ByteOrder)
    (entry : ElfSectionHeader) : (entry.bytes order).length = 0x40 := by
  simp [ElfSectionHeader.bytes]

@[simp] theorem ProgramHeader.length_bytes (order : ByteOrder)
    (entry : ProgramHeader) : (entry.bytes order).length = 0x38 := by
  simp [ProgramHeader.bytes]

end Synos.Elf

import Synos.Boot.Trace
import Synos.Elf.Section

namespace Synos.Boot

open Synos.Data
open Synos.Elf (ElfSectionHeader readSection tableBytes)

/-! The search for the kernel's symbol table and its names, in the sections that
the boot loader has left in memory. Blocks of `kmalloc` lie apart from them. -/

def shtNull : BitVec 32 := 0

def shtSymtab : BitVec 32 := 2

def shtStrtab : BitVec 32 := 3

structure Sections where
  elfSh : Nat
  elfShLength : BitVec 32

/-- `elf_sh[i]`, with the fields of `struct ELF64_Shdr` where a file has them. -/
def sectionAt (memory : Memory) (sections : Sections) (i : Nat) :
    ElfSectionHeader :=
  readSection memory (sections.elfSh + 0x40 * i)

def bytesAt (memory : Memory) (start count : Nat) : List UInt8 :=
  (List.range count).map fun k => memory (word (start + k))

/-- `memcpy` into what `kmalloc` has answered. -/
def copyOf (memory : Memory) (source : Nat) (size : BitVec 32)
    (block : Nat) : Except Fault Buffer :=
  if 0 < size.toNat ∧ block = 0 then .error .nullDereference
  else .ok ⟨block, bytesAt memory source size.toNat⟩

/-- The loop over `i`, with `count` entries to go and `calls` blocks taken. -/
def tabLoop (memory : Memory) (sections : Sections) (answer : Nat → Nat) :
    (count i calls : Nat) → Symbols → Except Fault Symbols
  | 0, _, _, symbols => .ok symbols
  | count + 1, i, calls, symbols =>
      let ent := sectionAt memory sections i
      -- the sizes of `X64.symbols` are `uint32_t`
      let size := ent.shSize.setWidth 32
      if symbols.elfSym.address ≠ 0 ∧ symbols.elfStr.address ≠ 0 then
        .ok symbols
      else if symbols.elfSym.address = 0 ∧ ent.shType = shtSymtab then
        match copyOf memory ent.shAddr.toNat size (answer calls) with
        | .error fault => .error fault
        | .ok block =>
            tabLoop memory sections answer count (i + 1) (calls + 1)
              { symbols with elfSym := block, elfSymSize := size }
      else if symbols.elfStr.address = 0 ∧ ent.shType = shtStrtab then
        match copyOf memory ent.shAddr.toNat size (answer calls) with
        | .error fault => .error fault
        | .ok block =>
            tabLoop memory sections answer count (i + 1) (calls + 1)
              { symbols with elfStr := block, elfStrSize := size }
      else tabLoop memory sections answer count (i + 1) calls symbols

def noSymbols : Symbols := ⟨nullBuffer, 0, nullBuffer, 0⟩

/-- `tab_search`, where `answer` has the answers of `kmalloc` in their order. -/
def tabSearch (memory : Memory) (answer : Nat → Nat) (sections : Sections)
    (symbols : Symbols) : Except Fault Symbols :=
  if sections.elfSh = 0 ∨ sections.elfShLength = 0 then .ok symbols
  else
    tabLoop memory sections answer (sections.elfShLength.toNat - 1) 1 0
      noSymbols

/-! ### What the search finds -/

/-- The first section of a kind, the null section at 0 apart. -/
structure First (memory : Memory) (sections : Sections) (kind : BitVec 32)
    (index : Nat) : Prop where
  pos : 1 ≤ index
  type : (sectionAt memory sections index).shType = kind
  before : ∀ i, 1 ≤ i → i < index → (sectionAt memory sections i).shType ≠ kind

/-- The block has the bytes of the section, as many as a 32-bit size counts. -/
structure Taken (memory : Memory) (ent : ElfSectionHeader) (block : Buffer)
    (size : BitVec 32) : Prop where
  address : block.address ≠ 0
  size_eq : size = ent.shSize.setWidth 32
  contents : block.contents = bytesAt memory ent.shAddr.toNat size.toNat

/-- One of the two pointers after the entries below `i`, where `index` is the
first entry of its kind. -/
structure Slot (memory : Memory) (sections : Sections) (index i : Nat)
    (block : Buffer) (size : BitVec 32) : Prop where
  before : i ≤ index → block.address = 0
  after : index < i → Taken memory (sectionAt memory sections index) block size

section

variable {memory : Memory} {sections : Sections} {answer : Nat → Nat}
  {index i sym str : Nat} {block : Buffer} {size : BitVec 32}

theorem Slot.later (hslot : Slot memory sections index i block size)
    (hdone : index < i) {j : Nat} (hle : i ≤ j) :
    Slot memory sections index j block size :=
  ⟨fun hbefore => by omega, fun _ => hslot.after hdone⟩

theorem Slot.keep (hslot : Slot memory sections index i block size)
    (hne : i ≠ index) : Slot memory sections index (i + 1) block size :=
  ⟨fun hbefore => hslot.before (by omega), fun hlt => hslot.after (by omega)⟩

theorem Slot.index_lt (hslot : Slot memory sections index i block size)
    (hset : block.address ≠ 0) : index < i := by
  by_contra hnot
  exact hset (hslot.before (Nat.le_of_not_lt hnot))

theorem Slot.eq_of_kind {kind : BitVec 32}
    (hslot : Slot memory sections index i block size)
    (hfirst : First memory sections kind index) (hpos : 1 ≤ i)
    (hnull : block.address = 0)
    (hkind : (sectionAt memory sections i).shType = kind) : i = index := by
  have hle : i ≤ index := by
    by_contra hnot
    exact (hslot.after (Nat.lt_of_not_le hnot)).address hnull
  by_contra hne
  exact hfirst.before i hpos (by omega) hkind

theorem Slot.ne_of_skip {kind : BitVec 32}
    (hslot : Slot memory sections index i block size)
    (hfirst : First memory sections kind index)
    (hskip : ¬ (block.address = 0 ∧
      (sectionAt memory sections i).shType = kind)) : i ≠ index := by
  rintro rfl
  exact hskip ⟨hslot.before (Nat.le_refl _), hfirst.type⟩

theorem copyOf_taken {ent : ElfSectionHeader} {address : Nat}
    (haddress : address ≠ 0) :
    ∃ block, copyOf memory ent.shAddr.toNat (ent.shSize.setWidth 32) address =
        .ok block ∧ Taken memory ent block (ent.shSize.setWidth 32) :=
  ⟨⟨address, _⟩, if_neg (fun hzero => haddress hzero.2), haddress, rfl, rfl⟩

theorem Slot.take {block : Buffer} {size : BitVec 32}
    (htaken : Taken memory (sectionAt memory sections i) block size) :
    Slot memory sections i (i + 1) block size :=
  ⟨fun hbefore => by omega, fun _ => htaken⟩

theorem tabLoop_slots (hanswer : ∀ call, answer call ≠ 0)
    (hsym : First memory sections shtSymtab sym)
    (hstr : First memory sections shtStrtab str)
    {count calls : Nat} {symbols : Symbols} (hpos : 1 ≤ i)
    (hsymSlot : Slot memory sections sym i symbols.elfSym symbols.elfSymSize)
    (hstrSlot : Slot memory sections str i symbols.elfStr symbols.elfStrSize) :
    ∃ found, tabLoop memory sections answer count i calls symbols = .ok found ∧
      Slot memory sections sym (i + count) found.elfSym found.elfSymSize ∧
      Slot memory sections str (i + count) found.elfStr found.elfStrSize := by
  induction count generalizing i calls symbols with
  | zero => exact ⟨_, rfl, hsymSlot, hstrSlot⟩
  | succ count ih =>
      have hentries : i + (count + 1) = i + 1 + count := by omega
      rw [hentries, tabLoop]
      by_cases hboth : symbols.elfSym.address ≠ 0 ∧ symbols.elfStr.address ≠ 0
      · refine ⟨symbols, if_pos hboth, ?_, ?_⟩
        · exact hsymSlot.later (hsymSlot.index_lt hboth.1) (by omega)
        · exact hstrSlot.later (hstrSlot.index_lt hboth.2) (by omega)
      · rw [if_neg hboth]
        by_cases hsymHere : symbols.elfSym.address = 0 ∧
            (sectionAt memory sections i).shType = shtSymtab
        · obtain rfl := hsymSlot.eq_of_kind hsym hpos hsymHere.1 hsymHere.2
          obtain ⟨block, hcopy, htaken⟩ :=
            @copyOf_taken memory (sectionAt memory sections i) _ (hanswer calls)
          have hother : i ≠ str := by
            rintro rfl
            exact absurd (hsym.type.symm.trans hstr.type) (by decide)
          rw [if_pos hsymHere, hcopy]
          have hsymNext : Slot memory sections i (i + 1) block _ :=
            .take htaken
          exact @ih _ _ { symbols with elfSym := block, elfSymSize := _ }
            (by omega) hsymNext (hstrSlot.keep hother)
        · rw [if_neg hsymHere]
          have hother := hsymSlot.keep (hsymSlot.ne_of_skip hsym hsymHere)
          by_cases hstrHere : symbols.elfStr.address = 0 ∧
              (sectionAt memory sections i).shType = shtStrtab
          · obtain rfl := hstrSlot.eq_of_kind hstr hpos hstrHere.1 hstrHere.2
            obtain ⟨block, hcopy, htaken⟩ := @copyOf_taken memory
              (sectionAt memory sections i) _ (hanswer calls)
            rw [if_pos hstrHere, hcopy]
            have hstrNext : Slot memory sections i (i + 1) block _ :=
              .take htaken
            exact @ih _ _ { symbols with elfStr := block, elfStrSize := _ }
              (by omega) hother hstrNext
          · rw [if_neg hstrHere]
            exact ih (by omega) hother
              (hstrSlot.keep (hstrSlot.ne_of_skip hstr hstrHere))

/-- With blocks for the copies, the search always comes to its end. -/
theorem tabSearch_ok (hanswer : ∀ call, answer call ≠ 0) (symbols : Symbols) :
    ∃ found, tabSearch memory answer sections symbols = .ok found := by
  have hloop : ∀ count i calls symbols, ∃ found,
      tabLoop memory sections answer count i calls symbols = .ok found := by
    intro count
    induction count with
    | zero => exact fun _ _ symbols => ⟨symbols, rfl⟩
    | succ count ih =>
        intro i calls symbols
        obtain ⟨block, hcopy, -⟩ :=
          @copyOf_taken memory (sectionAt memory sections i) _ (hanswer calls)
        simp only [tabLoop, hcopy]
        split
        · exact ⟨symbols, rfl⟩
        · split
          · exact ih _ _ _
          · split
            · exact ih _ _ _
            · exact ih _ _ _
  rw [tabSearch]
  split
  · exact ⟨symbols, rfl⟩
  · exact hloop _ _ _ _

/-- The array has one symbol table, at `sym`, whose link names the string table
at `str`. -/
structure SymbolTable (memory : Memory) (sections : Sections)
    (sym str : Nat) : Prop where
  array : sections.elfSh ≠ 0
  null : (sectionAt memory sections 0).shType = shtNull
  sym_lt : sym < sections.elfShLength.toNat
  sym_kind : (sectionAt memory sections sym).shType = shtSymtab
  sym_only : ∀ i < sections.elfShLength.toNat,
    (sectionAt memory sections i).shType = shtSymtab → i = sym
  link : (sectionAt memory sections sym).shLink.toNat = str
  str_lt : str < sections.elfShLength.toNat
  str_kind : (sectionAt memory sections str).shType = shtStrtab

/-- The block is a copy of the section, with the size of the section. -/
structure IsCopy (memory : Memory) (ent : ElfSectionHeader) (block : Buffer)
    (size : BitVec 32) : Prop where
  size_eq : size.toNat = ent.shSize.toNat
  contents : block.contents =
    bytesAt memory ent.shAddr.toNat ent.shSize.toNat

/-- The symbols come with the names they were written for. -/
structure Paired (memory : Memory) (sections : Sections) (sym str : Nat)
    (symbols : Symbols) : Prop where
  sym : IsCopy memory (sectionAt memory sections sym) symbols.elfSym
    symbols.elfSymSize
  str : IsCopy memory (sectionAt memory sections str) symbols.elfStr
    symbols.elfStrSize

/-- With a 32-bit size, the section passes for the other one. -/
def PassesFor (memory : Memory) (ent other : ElfSectionHeader) : Prop :=
  ent.shSize.toNat % 2 ^ 32 = other.shSize.toNat ∧
    bytesAt memory ent.shAddr.toNat other.shSize.toNat =
      bytesAt memory other.shAddr.toNat other.shSize.toNat

theorem Taken.isCopy_iff {ent other : ElfSectionHeader}
    (htaken : Taken memory ent block size) :
    IsCopy memory other block size ↔ PassesFor memory ent other := by
  have hsize : size.toNat = ent.shSize.toNat % 2 ^ 32 := by
    rw [htaken.size_eq, BitVec.toNat_setWidth]
  constructor
  · intro hcopy
    refine ⟨hsize.symm.trans hcopy.size_eq, ?_⟩
    rw [← hcopy.contents, htaken.contents, hcopy.size_eq]
  · rintro ⟨hsame, hbytes⟩
    have hother := hsize.trans hsame
    refine ⟨hother, ?_⟩
    rw [htaken.contents, hother, hbytes]

theorem passesFor_self_iff {ent : ElfSectionHeader} :
    PassesFor memory ent ent ↔ ent.shSize.toNat < 2 ^ 32 := by
  constructor
  · intro hpasses
    have hmod := Nat.mod_lt ent.shSize.toNat (Nat.two_pow_pos 32)
    rwa [hpasses.1] at hmod
  · exact fun hsmall => ⟨Nat.mod_eq_of_lt hsmall, rfl⟩

theorem First.unique {kind : BitVec 32} {other : Nat}
    (hfirst : First memory sections kind index)
    (hother : First memory sections kind other) : index = other := by
  rcases Nat.lt_trichotomy index other with hlt | heq | hgt
  · exact absurd hfirst.type (hother.before index hfirst.pos hlt)
  · exact heq
  · exact absurd hother.type (hfirst.before other hother.pos hgt)

theorem exists_first {kind : BitVec 32} (hpos : 1 ≤ index)
    (hkind : (sectionAt memory sections index).shType = kind) :
    ∃ first ≤ index, First memory sections kind first := by
  induction index using Nat.strong_induction_on with
  | _ index ih =>
      by_cases hbefore : ∃ i, 1 ≤ i ∧ i < index ∧
          (sectionAt memory sections i).shType = kind
      · obtain ⟨i, hi, hlt, hother⟩ := hbefore
        obtain ⟨first, hle, hfirst⟩ := ih i hlt hi hother
        exact ⟨first, by omega, hfirst⟩
      · refine ⟨index, Nat.le_refl _, hpos, hkind, ?_⟩
        intro i hi hlt hother
        exact hbefore ⟨i, hi, hlt, hother⟩

section

variable (htable : SymbolTable memory sections sym str)

include htable

theorem SymbolTable.pos_of_kind {kind : BitVec 32}
    (hkind : (sectionAt memory sections index).shType = kind)
    (hne : kind ≠ shtNull) : 1 ≤ index := by
  by_contra hzero
  obtain rfl : index = 0 := by omega
  exact hne (hkind.symm.trans htable.null)

theorem SymbolTable.first_sym : First memory sections shtSymtab sym where
  pos := htable.pos_of_kind htable.sym_kind (by decide)
  type := htable.sym_kind
  before i _ hlt hkind := by
    have hlength := htable.sym_lt
    have heq := htable.sym_only i (by omega) hkind
    omega

/-- The link is not looked at: the symbols get the right names exactly when the
first string table passes for theirs. -/
theorem tabSearch_paired_iff (hanswer : ∀ call, answer call ≠ 0)
    {symbols : Symbols} :
    Returns (tabSearch memory answer sections symbols)
        (fun found => Paired memory sections sym str found) ↔
      (sectionAt memory sections sym).shSize.toNat < 2 ^ 32 ∧
        ∃ first, First memory sections shtStrtab first ∧
          PassesFor memory (sectionAt memory sections first)
            (sectionAt memory sections str) := by
  have hsym := htable.first_sym
  have hstrPos := htable.pos_of_kind htable.str_kind (by decide)
  obtain ⟨first, hle, hfirst⟩ := exists_first hstrPos htable.str_kind
  have hlength := htable.str_lt
  have hentries : 1 + (sections.elfShLength.toNat - 1) =
      sections.elfShLength.toNat := by omega
  have hsome : ¬ (sections.elfSh = 0 ∨ sections.elfShLength = 0) := by
    rintro (hnull | hzero)
    · exact htable.array hnull
    · rw [hzero] at hlength
      simp at hlength
  obtain ⟨found, hloop, hsymSlot, hstrSlot⟩ := @tabLoop_slots memory sections
    answer 1 sym first hanswer hsym hfirst (sections.elfShLength.toNat - 1) 0
    noSymbols (Nat.le_refl _) ⟨fun _ => rfl, fun hlt => by
      have hpos := hsym.pos
      omega⟩ ⟨fun _ => rfl, fun hlt => by
      have hpos := hfirst.pos
      omega⟩
  rw [hentries] at hsymSlot hstrSlot
  have hsymTaken := hsymSlot.after htable.sym_lt
  have hstrTaken := hstrSlot.after (by omega)
  rw [tabSearch, if_neg hsome, hloop]
  constructor
  · rintro ⟨hsymCopy, hstrCopy⟩
    exact ⟨passesFor_self_iff.mp (hsymTaken.isCopy_iff.mp hsymCopy),
      first, hfirst, hstrTaken.isCopy_iff.mp hstrCopy⟩
  · rintro ⟨hsmall, other, hother, hpasses⟩
    obtain rfl := hfirst.unique hother
    exact ⟨hsymTaken.isCopy_iff.mpr (passesFor_self_iff.mpr hsmall),
      hstrTaken.isCopy_iff.mpr hpasses⟩

end

end

/-- An entry of the array with the fields the search looks at. -/
def sectionOf (shType : BitVec 32) (shAddr shSize : BitVec 64)
    (shLink : BitVec 32) : ElfSectionHeader :=
  ⟨0, shType, 0, shAddr, 0, shSize, shLink, 0, 0, 0⟩

def sampleSections : Sections := ⟨0x1000, 4⟩

/-- The names of the sections come before the symbols, which link to the names
of the symbols behind them. -/
def namesFirst : Memory :=
  image 0x1000 (tableBytes .little
    [sectionOf shtNull 0 0 0, sectionOf shtStrtab 0x1100 2 0,
      sectionOf shtSymtab 0x1104 24 3, sectionOf shtStrtab 0x1102 2 0] ++
    [0, 0x2E, 0, 0x66])

def namesLast : Memory :=
  image 0x1000 (tableBytes .little
    [sectionOf shtNull 0 0 0, sectionOf shtStrtab 0x1102 2 0,
      sectionOf shtSymtab 0x1104 24 1, sectionOf shtStrtab 0x1100 2 0] ++
    [0, 0x2E, 0, 0x66])

def sampleAnswer (call : Nat) : Nat := 0x200000 + 0x1000 * call

theorem sampleAnswer_ne_zero (call : Nat) : sampleAnswer call ≠ 0 := by
  rw [sampleAnswer]
  omega

/-- The symbols get the names of the sections. -/
theorem tabSearch_unpaired :
    SymbolTable namesFirst sampleSections 2 3 ∧
      (∀ call, sampleAnswer call ≠ 0) ∧
      ¬ Returns (tabSearch namesFirst sampleAnswer sampleSections noSymbols)
        (fun found => Paired namesFirst sampleSections 2 3 found) := by
  refine ⟨⟨by decide, by decide +kernel, by decide, by decide +kernel,
    by decide +kernel, by decide +kernel, by decide, by decide +kernel⟩,
    sampleAnswer_ne_zero, ?_⟩
  intro hreturns
  obtain ⟨found, hfound, hpaired⟩ := returns_iff.mp hreturns
  have hnames : (tabSearch namesFirst sampleAnswer sampleSections
      noSymbols).map (fun found => found.elfStr.contents) =
        .ok [0, 0x2E] := by
    decide +kernel
  rw [hfound] at hnames
  have hcontents : found.elfStr.contents = [0, 0x2E] := Except.ok.inj hnames
  exact absurd (hcontents.symm.trans hpaired.str.contents) (by decide +kernel)

theorem tabSearch_paired_namesLast :
    Returns (tabSearch namesLast sampleAnswer sampleSections noSymbols)
        (fun found => Paired namesLast sampleSections 2 1 found) ↔
      (sectionAt namesLast sampleSections 2).shSize.toNat < 2 ^ 32 ∧
        ∃ first, First namesLast sampleSections shtStrtab first ∧
          PassesFor namesLast (sectionAt namesLast sampleSections first)
            (sectionAt namesLast sampleSections 1) :=
  tabSearch_paired_iff ⟨by decide, by decide +kernel, by decide,
    by decide +kernel, by decide +kernel, by decide +kernel, by decide,
    by decide +kernel⟩ sampleAnswer_ne_zero

end Synos.Boot

import Synos.Data.Endian

namespace Synos.Boot

open Synos.Data

/-! What the boot code knows of the kernel's symbols, and the lookup of the stack
trace in them. -/

/-- A pointer to a block of its own, with the bytes of the block. -/
structure Buffer where
  address : Nat
  contents : List UInt8

def nullBuffer : Buffer := ⟨0, []⟩

structure Symbols where
  elfSym : Buffer
  elfSymSize : BitVec 32
  elfStr : Buffer
  elfStrSize : BitVec 32

/-- The fields of `struct ELF64_Sym` that are looked at. -/
structure ElfSym where
  stName : BitVec 32
  stInfo : UInt8
  stValue : BitVec 64

/-- `sizeof(struct ELF64_Sym)` -/
def symSize : Nat := 24

def sttNotype : UInt8 := 0

def sttFunc : UInt8 := 2

def ElfSym.type (sym : ElfSym) : UInt8 := sym.stInfo &&& 0xF

def symAt (symbols : Symbols) (i : Nat) : ElfSym :=
  let table := image 0 symbols.elfSym.contents
  { stName := load 32 table (symSize * i)
    stInfo := table (word (symSize * i + 4))
    stValue := load 64 table (symSize * i + 8) }

def symCount (symbols : Symbols) : Nat := symbols.elfSymSize.toNat / symSize

/-- The loop over `i`, with `count` entries to go. -/
def traceLoop (symbols : Symbols) (address : BitVec 64) :
    (count i currentSymIndex : Nat) → (currentSymDiff : BitVec 64) → Nat
  | 0, _, currentSymIndex, _ => currentSymIndex
  | count + 1, i, currentSymIndex, currentSymDiff =>
      let sym := symAt symbols i
      if address < sym.stValue ∨ sym.type ≠ sttFunc ∧ sym.type ≠ sttNotype then
        traceLoop symbols address count (i + 1) currentSymIndex currentSymDiff
      else if sym.type ≠ sttFunc ∧ sym.type ≠ sttNotype then
        -- never taken, after the test before it
        traceLoop symbols address count (i + 1) i (address - sym.stValue)
      else if address - sym.stValue < currentSymDiff then
        if address - sym.stValue = 0 then i
        else traceLoop symbols address count (i + 1) i (address - sym.stValue)
      else
        traceLoop symbols address count (i + 1) currentSymIndex currentSymDiff

def traceIndex (symbols : Symbols) (address : BitVec 64) : Nat :=
  traceLoop symbols address (symCount symbols - 1) 1 0
    (address - (symAt symbols 0).stValue)

/-- `TraceName`, where `none` is `func_noname`. -/
def traceName (symbols : Symbols) (address : BitVec 64) : Option Nat :=
  if symbols.elfSym.address = 0 ∨ symCount symbols < 1 then none
  else
    some (symbols.elfStr.address +
      (symAt symbols (traceIndex symbols address)).stName.toNat)

/-! ### The nearest symbol -/

/-- An entry that can name the address. -/
structure Candidate (symbols : Symbols) (address : BitVec 64) (i : Nat) :
    Prop where
  pos : 1 ≤ i
  type : (symAt symbols i).type = sttFunc ∨ (symAt symbols i).type = sttNotype
  value_pos : 0 < (symAt symbols i).stValue
  value_le : (symAt symbols i).stValue ≤ address

/-- Of the entries below `limit`, the first of those with the largest value, or
entry 0 when there is no candidate. -/
def Selects (symbols : Symbols) (address : BitVec 64) (limit index : Nat) :
    Prop :=
  (index = 0 ∧ ∀ i < limit, ¬ Candidate symbols address i) ∨
    (index < limit ∧ Candidate symbols address index ∧
      ∀ i < limit, Candidate symbols address i →
        (symAt symbols i).stValue ≤ (symAt symbols index).stValue ∧
          ((symAt symbols i).stValue = (symAt symbols index).stValue →
            index ≤ i))

section

variable {symbols : Symbols} {address : BitVec 64} {limit index : Nat}

theorem Selects.skip (hselects : Selects symbols address limit index)
    (hnull : (symAt symbols 0).stValue = 0)
    (hskip : Candidate symbols address limit →
      (symAt symbols limit).stValue ≤ (symAt symbols index).stValue) :
    Selects symbols address (limit + 1) index := by
  rcases hselects with ⟨rfl, hnone⟩ | ⟨hlt, hindex, hbest⟩
  · refine .inl ⟨rfl, ?_⟩
    intro i hi hcandidate
    rcases Nat.lt_succ_iff_lt_or_eq.mp hi with hbelow | rfl
    · exact hnone i hbelow hcandidate
    · have hle := hskip hcandidate
      have hpos := hcandidate.value_pos
      rw [hnull] at hle
      bv_omega
  · refine .inr ⟨Nat.lt_succ_of_lt hlt, hindex, ?_⟩
    intro i hi hcandidate
    rcases Nat.lt_succ_iff_lt_or_eq.mp hi with hbelow | rfl
    · exact hbest i hbelow hcandidate
    · exact ⟨hskip hcandidate, fun _ => Nat.le_of_lt hlt⟩

theorem Selects.replace (hselects : Selects symbols address limit index)
    (hcandidate : Candidate symbols address limit)
    (hnearer : (symAt symbols index).stValue < (symAt symbols limit).stValue) :
    Selects symbols address (limit + 1) limit := by
  refine .inr ⟨Nat.lt_succ_self _, hcandidate, ?_⟩
  intro i hi hother
  rcases Nat.lt_succ_iff_lt_or_eq.mp hi with hbelow | rfl
  · rcases hselects with ⟨-, hnone⟩ | ⟨-, -, hbest⟩
    · exact absurd hother (hnone i hbelow)
    · have hle := (hbest i hbelow hother).1
      constructor
      · bv_omega
      · intro heq
        bv_omega
  · exact ⟨BitVec.le_refl _, fun _ => Nat.le_refl _⟩

theorem Selects.settled {more : Nat}
    (hselects : Selects symbols address (limit + 1) limit)
    (hcandidate : Candidate symbols address limit)
    (hexact : (symAt symbols limit).stValue = address) :
    Selects symbols address (limit + 1 + more) limit := by
  rcases hselects with ⟨-, hnone⟩ | ⟨hlt, hindex, hbest⟩
  · exact absurd hcandidate (hnone limit (Nat.lt_succ_self _))
  · refine .inr ⟨by omega, hindex, ?_⟩
    intro i hi hother
    rw [hexact]
    refine ⟨hother.value_le, ?_⟩
    intro heq
    by_contra hbefore
    exact hbefore ((hbest i (by omega) hother).2 (heq.trans hexact.symm))

theorem traceLoop_selects (hnull : (symAt symbols 0).stValue = 0)
    {count i : Nat} {diff : BitVec 64} (hpos : 1 ≤ i)
    (hselects : Selects symbols address i index)
    (hle : (symAt symbols index).stValue ≤ address)
    (hdiff : diff = address - (symAt symbols index).stValue) :
    Selects symbols address (i + count)
      (traceLoop symbols address count i index diff) := by
  induction count generalizing i index diff with
  | zero => exact hselects
  | succ count ih =>
      rw [Nat.add_succ, ← Nat.succ_add, traceLoop]
      by_cases hout : address < (symAt symbols i).stValue ∨
          (symAt symbols i).type ≠ sttFunc ∧ (symAt symbols i).type ≠ sttNotype
      · rw [if_pos hout]
        refine ih (by omega) (hselects.skip hnull ?_) hle hdiff
        intro hcandidate
        have hbelow := hcandidate.value_le
        rcases hout with habove | ⟨hfunc, hnotype⟩
        · bv_omega
        · exact absurd hcandidate.type (not_or.mpr ⟨hfunc, hnotype⟩)
      · rw [if_neg hout, if_neg (fun hother => hout (.inr hother))]
        obtain ⟨hbelow, hkind⟩ := not_or.mp hout
        have hvalue : (symAt symbols i).stValue ≤ address :=
          BitVec.not_lt.mp hbelow
        by_cases hnearer : address - (symAt symbols i).stValue < diff
        · have hmore : (symAt symbols index).stValue <
              (symAt symbols i).stValue := by
            rw [hdiff] at hnearer
            bv_omega
          have hcandidate : Candidate symbols address i :=
            ⟨hpos, Classical.not_and_iff_not_or_not.mp hkind |>.imp
              Classical.not_not.mp Classical.not_not.mp, by bv_omega, hvalue⟩
          have hreplaced := hselects.replace hcandidate hmore
          rw [if_pos hnearer]
          split
          · next hzero =>
              exact hreplaced.settled hcandidate (by bv_omega)
          · next hoff => exact ih (by omega) hreplaced hvalue rfl
        · rw [if_neg hnearer]
          refine ih (by omega) (hselects.skip hnull ?_) hle hdiff
          intro hcandidate
          rw [hdiff] at hnearer
          bv_omega

theorem traceIndex_selects (hnull : (symAt symbols 0).stValue = 0)
    (hcount : 1 ≤ symCount symbols) :
    Selects symbols address (symCount symbols) (traceIndex symbols address) := by
  have hstart : Selects symbols address 1 0 := by
    refine .inl ⟨rfl, ?_⟩
    intro i hi hcandidate
    have hpos := hcandidate.pos
    omega
  have hloop := @traceLoop_selects symbols address 0 hnull
    (symCount symbols - 1) 1 _ (Nat.le_refl _) hstart (by
      rw [hnull]
      bv_omega) rfl
  rwa [Nat.add_sub_cancel' hcount] at hloop

/-- The entries that can name the address decide which one does. -/
theorem Selects.unique {other : Symbols} {otherLimit otherIndex : Nat}
    (hselects : Selects symbols address limit index)
    (hother : Selects other address otherLimit otherIndex)
    (hsame : ∀ i, (i < limit ∧ Candidate symbols address i) ↔
      (i < otherLimit ∧ Candidate other address i))
    (hvalue : ∀ i < limit, Candidate symbols address i →
      (symAt other i).stValue = (symAt symbols i).stValue) :
    index = otherIndex := by
  rcases hselects with ⟨rfl, hnone⟩ | ⟨hlt, hindex, hbest⟩
  · rcases hother with ⟨rfl, -⟩ | ⟨hotherLt, hotherIndex, -⟩
    · rfl
    · obtain ⟨hbelow, hcandidate⟩ := (hsame _).mpr ⟨hotherLt, hotherIndex⟩
      exact absurd hcandidate (hnone _ hbelow)
  · obtain ⟨hbelow, hcandidate⟩ := (hsame _).mp ⟨hlt, hindex⟩
    rcases hother with ⟨-, hotherNone⟩ | ⟨hotherLt, hotherIndex, hotherBest⟩
    · exact absurd hcandidate (hotherNone _ hbelow)
    · obtain ⟨hback, hbackCandidate⟩ := (hsame _).mpr ⟨hotherLt, hotherIndex⟩
      obtain ⟨hle, hfirst⟩ := hbest _ hback hbackCandidate
      obtain ⟨hotherLe, hotherFirst⟩ := hotherBest _ hbelow hcandidate
      rw [hvalue _ hlt hindex, hvalue _ hback hbackCandidate] at hotherLe
      have heq := BitVec.le_antisymm hle hotherLe
      have hforward := hfirst heq
      have hbackward := hotherFirst (by
        rw [hvalue _ hlt hindex, hvalue _ hback hbackCandidate, heq])
      omega

/-- The entries by which two tables can name an address are the same ones. -/
structure SameCandidates (symbols other : Symbols) (address : BitVec 64) :
    Prop where
  candidate : ∀ i, (i < symCount symbols ∧ Candidate symbols address i) ↔
    (i < symCount other ∧ Candidate other address i)
  value : ∀ i < symCount symbols, Candidate symbols address i →
    (symAt other i).stValue = (symAt symbols i).stValue

/-- The lookup names the nearest symbol at or below the address, the first of
several, and no other entry has a say in it. -/
theorem traceName_nearest (hsym : symbols.elfSym.address ≠ 0)
    (hcount : 1 ≤ symCount symbols) (hnull : (symAt symbols 0).stValue = 0) :
    traceName symbols address = some (symbols.elfStr.address +
        (symAt symbols (traceIndex symbols address)).stName.toNat) ∧
      Selects symbols address (symCount symbols)
        (traceIndex symbols address) ∧
      ∀ other : Symbols, 1 ≤ symCount other →
        (symAt other 0).stValue = 0 → SameCandidates symbols other address →
        traceIndex symbols address = traceIndex other address := by
  have hselects := @traceIndex_selects symbols address hnull hcount
  refine ⟨?_, hselects, ?_⟩
  · rw [traceName, if_neg (not_or.mpr ⟨hsym, Nat.not_lt.mpr hcount⟩)]
  · intro other hotherCount hotherNull hsame
    exact hselects.unique (traceIndex_selects hotherNull hotherCount)
      hsame.candidate hsame.value

end

def symBytes (sym : ElfSym) : List UInt8 :=
  encode .little sym.stName ++ [sym.stInfo, 0] ++ encode .little 0#16 ++
    encode .little sym.stValue ++ encode .little 0#64

/-- The null symbol, two functions in falling order and an object between them. -/
def sampleSymbols : Symbols where
  elfSym := ⟨0x110040,
    [⟨0, 0, 0⟩, ⟨1, 0x12, 0x100200#64⟩, ⟨8, 0x11, 0x100180#64⟩,
      ⟨15, 0x12, 0x100100#64⟩].flatMap symBytes⟩
  elfSymSize := 96
  elfStr := ⟨0x1100C0, []⟩
  elfStrSize := 0

theorem traceName_nearest_sample :
    traceName sampleSymbols 0x1001C0 = some (sampleSymbols.elfStr.address +
        (symAt sampleSymbols
          (traceIndex sampleSymbols 0x1001C0)).stName.toNat) ∧
      Selects sampleSymbols 0x1001C0 (symCount sampleSymbols)
        (traceIndex sampleSymbols 0x1001C0) ∧
      ∀ other : Symbols, 1 ≤ symCount other →
        (symAt other 0).stValue = 0 →
        SameCandidates sampleSymbols other 0x1001C0 →
        traceIndex sampleSymbols 0x1001C0 = traceIndex other 0x1001C0 :=
  traceName_nearest (by decide) (by decide) (by decide +kernel)

end Synos.Boot

import Synos.Mutils.Digits

namespace Synos.Mutils

open Synos.Data

/-! The conversions over the `string_t` that they build their text in. It never
has to grow. -/

namespace StringT

/-- The loops of `c_str` and `hex_str` over `string_append`; `grown` is what the
blocks hold that the string may move to. -/
def digitLoop (grown : Nat → Nat → UInt8) (digit : Nat → UInt8)
    (next : Nat → Nat) :
    (fuel value : Nat) → StringT → Except AccessFault StringT
  | 0, _, out => pure out
  | fuel + 1, value, out =>
      if 0 < value then do
        let out ← stringAppend (grown fuel) out [digit value] 1
        digitLoop grown digit next fuel (next value) out
      else pure out

def cStr (fresh : Nat → UInt8) (grown : Nat → Nat → UInt8) (value : BitVec 64) :
    Except AccessFault (List UInt8) := do
  let out ← digitLoop grown (fun value => decimalChar (value % 10))
    (fun value => (value - value % 10) / 10) 64 value.toNat (newString fresh)
  reverse out.str

def hexStr (fresh : Nat → UInt8) (grown : Nat → Nat → UInt8)
    (value : BitVec 64) : Except AccessFault (List UInt8) := do
  let out ←
    if value = 0 then stringAppend (grown 64) (newString fresh) [0x30] 1
    else
      digitLoop grown (fun value => hexChar (value &&& 0xF))
        (fun value => value >>> 4) 64 value.toNat (newString fresh)
  reverse out.str

/-- The string is in the one block it started with. -/
structure Refines (s : StringT) (g : GrowingString) : Prop where
  str_eq : s.str = g.str
  length_eq : s.length = g.text.length
  allocLength_eq : s.allocLength = stringAllocLength
  block : s.str.length = stringAllocLength

section

variable {s : StringT} {g : GrowingString} {bytes : List UInt8}
  {fresh : Nat → UInt8} {grown : Nat → Nat → UInt8}

theorem newString_refines : Refines (newString fresh) (.new fresh) where
  str_eq := rfl
  length_eq := rfl
  allocLength_eq := rfl
  block := length_freshBlock _ _

theorem Refines.stringGrow (hrefines : Refines s g)
    (hroom : g.text.length + bytes.length < stringAllocLength) :
    stringGrow fresh s bytes.length = .ok s := by
  have hlength := hrefines.length_eq
  have halloc := hrefines.allocLength_eq
  have hsmall : stringAllocLength < wordSize := by decide
  rw [Mutils.stringGrow, word_of_lt (by omega), wordSub_of_le (by omega)
    (by omega), if_neg (by omega)]
  rfl

theorem set_copied {text behind : List UInt8}
    (hroom : bytes.length < behind.length) :
    (text ++ (bytes ++ behind.drop bytes.length)).set
        (text.length + bytes.length) 0 =
      text ++ bytes ++ 0 :: behind.drop (bytes.length + 1) := by
  rw [List.drop_eq_getElem_cons hroom, ← List.append_assoc,
    ← List.length_append, List.set_append_right _ _ (Nat.le_refl _),
    Nat.sub_self, List.set_cons_zero]

theorem Refines.append (hrefines : Refines s g)
    (hroom : g.text.length + bytes.length < stringAllocLength) :
    ∃ next out, stringAppend fresh s bytes bytes.length = .ok next ∧
      g.append bytes bytes.length = .ok out ∧ out.text = g.text ++ bytes ∧
      Refines next out := by
  have hgrow := @Refines.stringGrow s g bytes fresh hrefines hroom
  obtain ⟨text, behind⟩ := g
  obtain ⟨hstr, hlength, halloc, hblock⟩ := hrefines
  change s.str = text ++ behind at hstr
  change s.length = text.length at hlength
  change text.length + bytes.length < stringAllocLength at hroom
  rw [hstr, List.length_append] at hblock
  have hcopy : copyCells s.str bytes s.length bytes.length =
      .ok (text ++ (bytes ++ behind.drop bytes.length)) := by
    rw [copyCells, hstr, hlength, if_pos ⟨Nat.le_refl _, by
      rw [List.length_append]
      omega⟩, List.take_left, List.take_length, List.drop_length_add_append]
  have hword : word (s.length + bytes.length) =
      text.length + bytes.length := by
    rw [hlength]
    exact word_of_lt (hroom.trans (by decide))
  have hset := @set_copied bytes text behind (by omega)
  have hwrite := @writeCell_of_lt _
    (text ++ (bytes ++ behind.drop bytes.length))
    (text.length + bytes.length) (0 : UInt8) (by
      simp only [List.length_append, List.length_drop]
      omega)
  rw [hset] at hwrite
  refine ⟨⟨text ++ bytes ++ 0 :: behind.drop (bytes.length + 1),
    text.length + bytes.length, s.allocLength⟩,
    ⟨text ++ bytes, 0 :: behind.drop (bytes.length + 1)⟩, ?_, ?_, rfl, ?_⟩
  · rw [stringAppend, hgrow]
    simp only [bind, Except.bind]
    rw [stringPut, hcopy, hword]
    simp only [bind, Except.bind, hwrite]
    rfl
  · rw [GrowingString.append, if_pos (Nat.le_refl _), List.take_length]
  · refine ⟨rfl, List.length_append.symm, halloc, ?_⟩
    simp only [List.length_append, List.length_cons, List.length_drop]
    omega

theorem Refines.digitLoop {digit : Nat → UInt8} {next : Nat → Nat}
    {base : Nat} (hbase : 1 < base) (hnext : ∀ value, next value = value / base)
    {fuel value : Nat} (hrefines : Refines s g)
    (hroom : g.text.length + (Nat.digits base value).length <
      stringAllocLength) :
    ∃ last out, digitLoop grown digit next fuel value s = .ok last ∧
      Mutils.digitLoop digit next fuel value g = .ok out ∧
      Refines last out := by
  induction fuel generalizing value s g with
  | zero => exact ⟨s, g, rfl, rfl, hrefines⟩
  | succ fuel ih =>
      by_cases hpos : 0 < value
      · rw [Nat.digits_def' hbase hpos, List.length_cons] at hroom
        obtain ⟨second, grew, happend, hgrew, htext, hsecond⟩ :=
          @Refines.append s g [digit value] (grown fuel) hrefines (by
            rw [List.length_singleton]
            omega)
        obtain ⟨last, out, hreal, hideal, hlast⟩ :=
          @ih second grew (next value) hsecond (by
            rw [htext, List.length_append, List.length_singleton, hnext]
            omega)
        refine ⟨last, out, ?_, ?_, hlast⟩
        · rw [StringT.digitLoop, if_pos hpos, ← hreal]
          exact congrArg (· >>= _) happend
        · rw [Mutils.digitLoop, if_pos hpos, ← hideal]
          exact congrArg (· >>= _) hgrew
      · refine ⟨s, g, ?_, ?_, hrefines⟩
        · rw [StringT.digitLoop, if_neg hpos]
          rfl
        · rw [Mutils.digitLoop, if_neg hpos]
          rfl

theorem length_digits_le {base count : Nat} (hbase : 1 < base)
    (hcount : 2 ^ 64 ≤ base ^ count) (value : BitVec 64) :
    (Nat.digits base value.toNat).length ≤ count :=
  (Nat.digits_length_le_iff hbase value.toNat).mpr
    (value.isLt.trans_le hcount)

theorem cStr_eq (value : BitVec 64) :
    cStr fresh grown value = Mutils.cStr fresh value := by
  have hcount := @length_digits_le 10 20 (by decide) (by decide) value
  obtain ⟨last, out, hreal, hideal, hlast⟩ := @Refines.digitLoop
    (newString fresh) (.new fresh) grown (fun value => decimalChar (value % 10))
    (fun value => (value - value % 10) / 10) 10 (by decide)
    (fun value => by omega) 64 value.toNat newString_refines (by
      change 0 + _ < 64
      omega)
  rw [cStr, hreal, Mutils.cStr, hideal]
  simp only [bind, Except.bind]
  rw [hlast.str_eq]

theorem hexStr_eq (value : BitVec 64) :
    hexStr fresh grown value = Mutils.hexStr fresh value := by
  rw [hexStr, Mutils.hexStr]
  by_cases hzero : value = 0
  · have hroom : 0 + [(0x30 : UInt8)].length < stringAllocLength := by decide
    obtain ⟨next, out, happend, hgrew, -, hnext⟩ :=
      @Refines.append _ _ [0x30] (grown 64) (@newString_refines fresh) hroom
    rw [if_pos hzero, if_pos hzero]
    change stringAppend _ _ _ 1 = _ at happend
    change GrowingString.append _ _ 1 = _ at hgrew
    rw [happend, hgrew]
    simp only [bind, Except.bind]
    rw [hnext.str_eq]
  · have hcount := @length_digits_le 16 16 (by decide) (by decide) value
    obtain ⟨last, out, hreal, hideal, hlast⟩ := @Refines.digitLoop
      (newString fresh) (.new fresh) grown
      (fun value => hexChar (value &&& 0xF)) (fun value => value >>> 4) 16
      (by decide) (fun value => Nat.shiftRight_eq_div_pow value 4) 64
      value.toNat newString_refines (by
        change 0 + _ < 64
        omega)
    rw [if_neg hzero, if_neg hzero, hreal, hideal]
    simp only [bind, Except.bind]
    rw [hlast.str_eq]

end

end StringT

end Synos.Mutils

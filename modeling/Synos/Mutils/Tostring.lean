import Synos.Mutils.Hexadecimal

namespace Synos.Mutils

open Synos.Data

/-! The two conversions to decimal: `c_str`, into a block of its own, and
`tostring`, over a string that is already there. -/

def clearLoop :
    (count i : Nat) → List UInt8 → Except AccessFault (List UInt8)
  | 0, _, out => pure out
  | count + 1, i, out => do
      let out ← writeCell out i 0
      clearLoop count (i + 1) out

/-- The loop of `tostring` that writes the digits. The value halves at the least
in each round. -/
def writeLoop :
    (fuel value i : Nat) → List UInt8 → Except AccessFault (List UInt8)
  | 0, _, _, out => pure out
  | fuel + 1, value, i, out =>
      if 0 < value then do
        let out ← writeCell out i (decimalChar (value % 10))
        writeLoop fuel ((value - value % 10) / 10) (i + 1) out
      else pure out

/-- `tostring`, with what it returns. -/
def tostring (value : BitVec 64) (out : List UInt8) :
    Except AccessFault (Nat × List UInt8) := do
  let len ← strlen out
  let out ← clearLoop len 0 out
  if value = 0 then do
    let out ← writeCell out 0 0x30
    pure (1, out)
  else do
    let out ← writeLoop 64 value.toNat 0 out
    let out ← reverse out
    pure (1, out)

section

variable {front old tail text back block out : List UInt8} {c cell : UInt8}

theorem writeCell_front :
    writeCell (front ++ c :: tail) front.length cell =
      .ok (front ++ cell :: tail) := by
  rw [writeCell_of_lt (by simp), List.set_append_right _ _ (Nat.le_refl _),
    Nat.sub_self, List.set_cons_zero]

theorem clearLoop_ok :
    clearLoop old.length front.length (front ++ (old ++ tail)) =
      .ok (front ++ (List.replicate old.length 0 ++ tail)) := by
  induction old generalizing front with
  | nil => rfl
  | cons c old ih =>
      have hnext := @ih (front ++ [0])
      rw [List.length_append, List.length_singleton, List.append_assoc,
        List.append_assoc] at hnext
      rw [List.length_cons, clearLoop, List.cons_append, writeCell_front]
      exact hnext

theorem writeLoop_ok {fuel value : Nat} (hfuel : value < 2 ^ fuel)
    (hroom : (Nat.digits 10 value).length ≤ back.length) :
    writeLoop fuel value front.length (front ++ back) =
      .ok (front ++ ((Nat.digits 10 value).map decimalChar ++
        back.drop (Nat.digits 10 value).length)) := by
  induction fuel generalizing value front back with
  | zero =>
      rw [pow_zero, Nat.lt_one_iff] at hfuel
      rw [hfuel, Nat.digits_zero]
      rfl
  | succ fuel ih =>
      rw [writeLoop]
      by_cases hpos : 0 < value
      · rw [Nat.digits_def' (by decide) hpos] at hroom ⊢
        obtain ⟨c, tail, rfl⟩ :=
          List.exists_cons_of_length_pos (Nat.zero_lt_of_lt hroom)
        have hnext := @ih (front ++ [decimalChar (value % 10)]) tail (value / 10)
          (by omega) (Nat.le_of_succ_le_succ hroom)
        have hdiv : (value - value % 10) / 10 = value / 10 := by omega
        rw [List.length_append, List.length_singleton, List.append_assoc,
          List.append_assoc] at hnext
        rw [if_pos hpos, writeCell_front, hdiv]
        exact hnext
      · obtain rfl : value = 0 := by omega
        rw [if_neg hpos, Nat.digits_zero]
        rfl

/-- The string that is left when the old one has been cleared and overwritten. -/
theorem cString_append_iff (htext : ∀ c ∈ text, c ≠ 0) :
    CString text (text ++ back) ↔ back[0]? = some 0 := by
  constructor
  · rintro ⟨-, rest, hblock⟩
    rw [List.append_cancel_left hblock]
    rfl
  · intro hzero
    refine ⟨htext, ?_⟩
    cases back with
    | nil => cases hzero
    | cons c rest =>
        rw [List.getElem?_cons_zero] at hzero
        exact ⟨rest, by rw [Option.some.inj hzero]⟩

theorem exists_cString (hzero : 0 ∈ block) : ∃ text, CString text block := by
  obtain ⟨text, rest, hblock, hnone⟩ := List.eq_append_cons_of_mem hzero
  exact ⟨text, fun c hc heq => hnone (heq ▸ hc), rest, hblock⟩

/-- The string is turned round as far as its first zero. -/
theorem returns_reverse_iff :
    Returns (reverse block) (CString text) ↔ CString text.reverse block := by
  by_cases hzero : 0 ∈ block
  · obtain ⟨own, hown⟩ := exists_cString hzero
    obtain ⟨turned, hreturn, hturned⟩ := returns_iff.mp hown.reverse
    rw [hreturn, returns_ok]
    constructor
    · intro htext
      rw [hturned.unique htext, List.reverse_reverse]
      exact hown
    · intro htext
      rw [← List.reverse_reverse text, hown.unique htext]
      exact hturned
  · have hnone : ∀ c ∈ block, c ≠ 0 := fun c hc heq => hzero (heq ▸ hc)
    rw [reverse_unterminated hnone]
    refine iff_of_false id ?_
    rintro ⟨-, rest, rfl⟩
    exact hzero (by simp)

theorem returns_map {Result Value : Type} {view : Result → Value}
    {call : Except AccessFault Result} {post : Value → Prop} :
    Returns (call.map view) post ↔ Returns call fun result =>
      post (view result) := by
  cases call with
  | ok result => exact Iff.rfl
  | error failure => exact Iff.rfl

theorem getElem?_cleared_iff (hold : ∀ c ∈ old, c ≠ 0) (d : Nat) :
    (List.replicate old.length 0 ++ 0 :: tail)[d]? = some 0 ↔
      (∀ k < d, (old ++ 0 :: tail)[k]? ≠ some 0) ∨
        (old ++ 0 :: tail)[d]? = some 0 := by
  have hend : (old ++ 0 :: tail)[old.length]? = some 0 := by
    rw [List.getElem?_append_right (Nat.le_refl _), Nat.sub_self]
    rfl
  rcases Nat.lt_trichotomy d old.length with hinside | hlast | houtside
  · refine iff_of_true ?_ (.inl ?_)
    · rw [List.getElem?_append_left (by rwa [List.length_replicate]),
        List.getElem?_replicate, if_pos hinside]
    · intro k hk hzero
      rw [List.getElem?_append_left (hk.trans hinside)] at hzero
      exact hold 0 (List.mem_of_getElem? hzero) rfl
  · refine iff_of_true ?_ (.inr (hlast ▸ hend))
    rw [List.getElem?_append_right (by rw [List.length_replicate, hlast]),
      List.length_replicate, hlast, Nat.sub_self]
    rfl
  · have hsame : (List.replicate old.length 0 ++ 0 :: tail)[d]? =
        (old ++ 0 :: tail)[d]? := by
      rw [List.getElem?_append_right (by rw [List.length_replicate]; omega),
        List.getElem?_append_right (by omega), List.length_replicate]
    rw [hsame]
    constructor
    · exact .inr
    · rintro (hnone | hzero)
      · exact absurd hend (hnone old.length houtside)
      · exact hzero

end

/-! ### Decimal numbers -/

def IsDecimalDigit (c : UInt8) : Prop := 0x30 ≤ c.toNat ∧ c.toNat ≤ 0x39

def decimalDigitOf (c : UInt8) : Nat := c.toNat - 0x30

theorem decimalChar_toNat {digit : Nat} (hdigit : digit < 10) :
    (decimalChar digit).toNat = digit + 0x30 := by
  rw [decimalChar, UInt8.toNat_ofNat']
  omega

theorem isDecimalDigit_decimalChar (digit : Nat) (hdigit : digit < 10) :
    IsDecimalDigit (decimalChar digit) := by
  rw [IsDecimalDigit, decimalChar_toNat hdigit]
  omega

theorem decimalDigitOf_decimalChar (digit : Nat) (hdigit : digit < 10) :
    decimalDigitOf (decimalChar digit) = digit := by
  rw [decimalDigitOf, decimalChar_toNat hdigit, Nat.add_sub_cancel]

theorem decimalDigitOf_lt (c : UInt8) (hc : IsDecimalDigit c) :
    decimalDigitOf c < 10 := by
  rw [IsDecimalDigit] at hc
  rw [decimalDigitOf]
  omega

theorem decimalChar_decimalDigitOf (c : UInt8) (hc : IsDecimalDigit c) :
    decimalChar (decimalDigitOf c) = c := by
  apply UInt8.toNat_inj.mp
  rw [decimalChar_toNat (decimalDigitOf_lt c hc), decimalDigitOf]
  exact Nat.sub_add_cancel hc.1

def decimal : Alphabet 10 UInt8 where
  char := decimalChar
  digitOf := decimalDigitOf
  IsDigit := IsDecimalDigit
  one_lt := Nat.one_lt_succ_succ 8
  isDigit_char := isDecimalDigit_decimalChar
  digitOf_char := decimalDigitOf_decimalChar
  digitOf_lt := decimalDigitOf_lt
  char_digitOf := decimalChar_decimalDigitOf

def decimalLength (value : BitVec 64) : Nat :=
  max 1 (Nat.digits 10 value.toNat).length

section

variable {value : BitVec 64} {out old text : List UInt8}
  {fresh : Nat → UInt8} {grown : Nat → Nat → UInt8}

theorem decimal_ne_zero (c : UInt8) (hc : c ∈ decimal.numeral value.toNat) :
    c ≠ 0 := by
  have hdigit : IsDecimalDigit c :=
    (Alphabet.canonical_numeral _).digits c hc
  rintro rfl
  exact absurd hdigit.1 (by decide)

theorem cleared_eq (hold : CString old out) :
    ∃ cleared : List UInt8, clearLoop old.length 0 out = .ok cleared ∧
      cleared.length = out.length ∧
      ∀ d : Nat, cleared[d]? = some 0 ↔
        (∀ k < d, out[k]? ≠ some 0) ∨ out[d]? = some 0 := by
  obtain ⟨tail, rfl⟩ := hold.terminated
  have hclear := @clearLoop_ok [] old (0 :: tail)
  rw [List.nil_append, List.nil_append, List.length_nil] at hclear
  refine ⟨_, hclear, ?_, getElem?_cleared_iff hold.nonzero⟩
  rw [List.length_append, List.length_append, List.length_replicate]

theorem tostring_zero_iff (hlong : 21 ≤ out.length) (hzero : 0 ∈ out) :
    Returns (tostring 0 out)
        (fun result => CString (decimal.numeral 0) result.2) ↔
      (∀ k < 1, out[k]? ≠ some 0) ∨ out[1]? = some 0 := by
  obtain ⟨old, hold⟩ := exists_cString hzero
  obtain ⟨cleared, hclear, hlength, hcells⟩ := cleared_eq hold
  obtain ⟨c, back, rfl⟩ :=
    List.exists_cons_of_length_pos (show 0 < cleared.length by omega)
  rw [← hcells, List.getElem?_cons_succ]
  have hwrite := @writeCell_front [] back c 0x30
  change writeCell (c :: back) 0 0x30 = .ok (0x30 :: back) at hwrite
  have hreturn : tostring 0 out = .ok (1, 0x30 :: back) := by
    rw [tostring, hold.strlen_eq]
    simp only [bind, Except.bind, hclear, if_true, hwrite]
    rfl
  rw [hreturn, returns_ok]
  exact cString_append_iff (List.forall_mem_singleton.mpr (by decide))

theorem tostring_pos_iff (hpos : 0 < value.toNat) (hlong : 21 ≤ out.length)
    (hzero : 0 ∈ out) :
    Returns (tostring value out)
        (fun result => CString (decimal.numeral value.toNat) result.2) ↔
      (∀ k < decimalLength value, out[k]? ≠ some 0) ∨
        out[decimalLength value]? = some 0 := by
  obtain ⟨old, hold⟩ := exists_cString hzero
  obtain ⟨cleared, hclear, hlength, hcells⟩ := cleared_eq hold
  have hcount := @StringT.length_digits_le 10 20 (by decide) (by decide) value
  have hdigits : Nat.digits 10 value.toNat ≠ [] :=
    Nat.digits_ne_nil_iff_ne_zero.mpr hpos.ne'
  have hd : decimalLength value = (Nat.digits 10 value.toNat).length :=
    Nat.max_eq_right (List.length_pos_of_ne_nil hdigits)
  have hwrite := @writeLoop_ok [] cleared 64 value.toNat value.isLt (by omega)
  rw [List.nil_append, List.nil_append, List.length_nil] at hwrite
  have hreturn : tostring value out =
      (reverse ((Nat.digits 10 value.toNat).map decimalChar ++
        cleared.drop (Nat.digits 10 value.toNat).length)).map (1, ·) := by
    have hne : value ≠ 0 := by
      rintro rfl
      exact absurd hpos (by decide)
    rw [tostring, hold.strlen_eq]
    simp only [bind, Except.bind, hclear, if_neg hne, hwrite]
    cases reverse _ <;> rfl
  have htext : ((Nat.digits 10 value.toNat).map decimalChar) =
      (decimal.numeral value.toNat).reverse := by
    rw [Alphabet.numeral_of_pos hpos, List.reverse_reverse]
    rfl
  rw [hreturn, returns_map, returns_reverse_iff, htext, cString_append_iff]
  · rw [List.getElem?_drop, Nat.add_zero, ← hd, hcells]
  · intro c hc
    exact decimal_ne_zero c (List.mem_reverse.mp hc)

/-- The digits end where the string ends, or past the cells that were cleared in
front of a zero. -/
theorem tostring_iff (hlong : 21 ≤ out.length) (hzero : 0 ∈ out) :
    Returns (tostring value out)
        (fun result => CString (decimal.numeral value.toNat) result.2) ↔
      (∀ k < decimalLength value, out[k]? ≠ some 0) ∨
        out[decimalLength value]? = some 0 := by
  by_cases hvalue : value = 0
  · rw [hvalue]
    exact tostring_zero_iff hlong hzero
  · exact tostring_pos_iff (by bv_omega) hlong hzero

theorem cString_singleton_iff {c : UInt8} {block : List UInt8} (hc : c ≠ 0) :
    CString [c] block ↔ block[0]? = some c ∧ block[1]? = some 0 := by
  have hnonzero : ∀ other ∈ [c], other ≠ 0 := List.forall_mem_singleton.mpr hc
  cases block with
  | nil =>
      refine iff_of_false ?_ fun hcells => by cases hcells.1
      rintro ⟨-, rest, hblock⟩
      cases hblock
  | cons first back =>
      rw [List.getElem?_cons_zero, Option.some_inj, List.getElem?_cons_succ]
      constructor
      · rintro ⟨-, rest, hblock⟩
        cases hblock
        exact ⟨rfl, rfl⟩
      · rintro ⟨rfl, hzero⟩
        exact (cString_append_iff hnonzero).mpr hzero

/-- Zero has no digit in the loop, so that the string is what the block held. -/
theorem cStr_iff :
    Returns (StringT.cStr fresh grown value)
        (CString (decimal.numeral value.toNat)) ↔
      value ≠ 0 ∨ fresh 0 = 0x30 ∧ fresh 1 = 0 := by
  rw [StringT.cStr_eq]
  by_cases hvalue : value = 0
  · have hzero : Mutils.cStr fresh 0 =
        reverse (freshBlock fresh stringAllocLength) := rfl
    have htext : decimal.numeral (0 : BitVec 64).toNat = [0x30] := rfl
    rw [hvalue, hzero, htext, returns_reverse_iff, List.reverse_singleton,
      cString_singleton_iff (by decide), getElem?_freshBlock (by decide),
      getElem?_freshBlock (by decide), Option.some_inj, Option.some_inj]
    exact (or_iff_right fun hne => hne rfl).symm
  · obtain ⟨rest, hreturn⟩ := @cStr_ok fresh value (by bv_omega)
    rw [hreturn, returns_ok]
    exact iff_of_true ⟨decimal_ne_zero, rest, rfl⟩ (.inl hvalue)

end

/-- Both conversions leave one string, the canonical decimal number. -/
def DecimalAgree (fresh : Nat → UInt8) (grown : Nat → Nat → UInt8)
    (value : BitVec 64) (out : List UInt8) : Prop :=
  ∃ text, decimal.Canonical text value.toNat ∧
    Returns (StringT.cStr fresh grown value) (CString text) ∧
    Returns (tostring value out) (fun result => CString text result.2)

section

variable {value : BitVec 64} {out : List UInt8} {fresh : Nat → UInt8}
  {grown : Nat → Nat → UInt8}

theorem decimalAgree_numeral_iff :
    DecimalAgree fresh grown value out ↔
      Returns (StringT.cStr fresh grown value)
          (CString (decimal.numeral value.toNat)) ∧
        Returns (tostring value out)
          (fun result => CString (decimal.numeral value.toNat) result.2) := by
  constructor
  · rintro ⟨text, hcanonical, hboth⟩
    rw [hcanonical.eq_numeral] at hboth
    exact hboth
  · exact fun hboth => ⟨_, Alphabet.canonical_numeral _, hboth⟩

/-- The conversions agree if and only if `c_str` is not asked for zero, or finds
it in its block, and `tostring` finds a zero behind its digits. -/
theorem decimalAgree_iff (hlong : 21 ≤ out.length) (hzero : 0 ∈ out) :
    DecimalAgree fresh grown value out ↔
      (value ≠ 0 ∨ fresh 0 = 0x30 ∧ fresh 1 = 0) ∧
        ((∀ k < decimalLength value, out[k]? ≠ some 0) ∨
          out[decimalLength value]? = some 0) := by
  rw [decimalAgree_numeral_iff, cStr_iff, tostring_iff hlong hzero]

end

theorem decimalAgree_seven :
    DecimalAgree (fun _ => 0x61) (fun _ _ => 0) 7 (List.replicate 21 0) :=
  (decimalAgree_iff (by decide) (by decide)).mpr (by decide)

/-- `c_str` of zero finds no string in its block, and `tostring` of 7 has the rest
of the buffer behind its digit. -/
theorem not_decimalAgree :
    ¬ DecimalAgree (fun _ => 0x61) (fun _ _ => 0) 0 (List.replicate 21 0) ∧
      ¬ DecimalAgree (fun _ => 0) (fun _ _ => 0) 7
        (0 :: List.replicate 20 0x61) := by
  constructor
  · rw [decimalAgree_numeral_iff, cStr_iff]
    exact fun hboth => absurd hboth.1 (by decide)
  · rw [decimalAgree_numeral_iff, tostring_iff (by decide) (by decide)]
    exact fun hboth => absurd hboth.2 (by decide)

end Synos.Mutils

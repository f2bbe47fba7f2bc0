import Synos.Data.Machine
import Synos.Data.Numeral
import Synos.Mutils.Buffer

namespace Synos.Mutils

open Synos.Data

/-! The hexadecimal strings of `hex_str`, and what `toLower` makes of them. -/

/-- The block holds the text up to its first zero. -/
structure CString (text block : List UInt8) : Prop where
  nonzero : ∀ c ∈ text, c ≠ 0
  terminated : ∃ rest, block = text ++ 0 :: rest

namespace CString

variable {text other block : List UInt8}

theorem strlen_eq (hstring : CString text block) :
    strlen block = .ok text.length := by
  obtain ⟨rest, rfl⟩ := hstring.terminated
  exact strlen_text hstring.nonzero

theorem unique (hstring : CString text block) (hother : CString other block) :
    other = text := by
  have hlength : text.length = other.length :=
    Except.ok.inj (hstring.strlen_eq.symm.trans hother.strlen_eq)
  obtain ⟨rest, hblock⟩ := hstring.terminated
  obtain ⟨tail, htail⟩ := hother.terminated
  exact (List.append_inj (hblock.symm.trans htail) hlength).1.symm

theorem reverse (hstring : CString text block) :
    Returns (Mutils.reverse block) (CString text.reverse) := by
  obtain ⟨rest, rfl⟩ := hstring.terminated
  rw [reverse_text hstring.nonzero, returns_ok]
  refine ⟨?_, rest, rfl⟩
  intro c hc
  exact hstring.nonzero c (List.mem_reverse.mp hc)

end CString

/-! ### The digits -/

def letterDigit (letter digit : Nat) : UInt8 :=
  if digit < 0xA then UInt8.ofNat (digit + 0x30)
  else UInt8.ofNat (digit - 0xA + letter)

def IsLetterDigit (letter : Nat) (c : UInt8) : Prop :=
  0x30 ≤ c.toNat ∧ c.toNat ≤ 0x39 ∨
    letter ≤ c.toNat ∧ c.toNat < letter + 6

def letterDigitOf (letter : Nat) (c : UInt8) : Nat :=
  if c.toNat ≤ 0x39 then c.toNat - 0x30 else c.toNat - letter + 0xA

section

variable {letter digit : Nat} {c : UInt8}

theorem letterDigit_toNat (hbyte : letter + 6 ≤ 256) (hdigit : digit < 16) :
    (letterDigit letter digit).toNat =
      if digit < 0xA then digit + 0x30 else digit - 0xA + letter := by
  rw [letterDigit]
  split
  · rw [UInt8.toNat_ofNat']
    omega
  · rw [UInt8.toNat_ofNat']
    omega

theorem isLetterDigit_letterDigit (hbyte : letter + 6 ≤ 256)
    (hdigit : digit < 16) : IsLetterDigit letter (letterDigit letter digit) := by
  rw [IsLetterDigit, letterDigit_toNat hbyte hdigit]
  split <;> omega

theorem letterDigitOf_letterDigit (hafter : 0x39 < letter)
    (hbyte : letter + 6 ≤ 256) (hdigit : digit < 16) :
    letterDigitOf letter (letterDigit letter digit) = digit := by
  rw [letterDigitOf, letterDigit_toNat hbyte hdigit]
  by_cases hlow : digit < 0xA
  · rw [if_pos hlow, if_pos (by omega), Nat.add_sub_cancel]
  · rw [if_neg hlow, if_neg (by omega)]
    omega

theorem IsLetterDigit.ne_zero (hafter : 0x39 < letter)
    (hc : IsLetterDigit letter c) : c ≠ 0 := by
  rintro rfl
  rw [IsLetterDigit] at hc
  change 0x30 ≤ 0 ∧ 0 ≤ 0x39 ∨ letter ≤ 0 ∧ 0 < letter + 6 at hc
  omega

theorem letterDigitOf_lt (hc : IsLetterDigit letter c) :
    letterDigitOf letter c < 16 := by
  rw [IsLetterDigit] at hc
  rw [letterDigitOf]
  split <;> omega

theorem letterDigit_letterDigitOf (hafter : 0x39 < letter)
    (hbyte : letter + 6 ≤ 256) (hc : IsLetterDigit letter c) :
    letterDigit letter (letterDigitOf letter c) = c := by
  apply UInt8.toNat_inj.mp
  rw [letterDigit_toNat hbyte (letterDigitOf_lt hc), letterDigitOf]
  rw [IsLetterDigit] at hc
  split <;> split <;> omega

end

def hexAlphabet (letter : Nat) (hafter : 0x39 < letter)
    (hbyte : letter + 6 ≤ 256) : Alphabet 16 UInt8 where
  char := letterDigit letter
  digitOf := letterDigitOf letter
  IsDigit := IsLetterDigit letter
  one_lt := Nat.one_lt_succ_succ 14
  isDigit_char _ := isLetterDigit_letterDigit hbyte
  digitOf_char _ := letterDigitOf_letterDigit hafter hbyte
  digitOf_lt _ := letterDigitOf_lt
  char_digitOf _ := letterDigit_letterDigitOf hafter hbyte

def upperHex : Alphabet 16 UInt8 := hexAlphabet 0x41 (by decide) (by decide)

def lowerHex : Alphabet 16 UInt8 := hexAlphabet 0x61 (by decide) (by decide)

theorem lowerChar_upperHex :
    ∀ digit < 16, lowerChar (upperHex.char digit) = lowerHex.char digit := by
  decide

section

variable {fresh : Nat → UInt8} {grown : Nat → Nat → UInt8}
  {text : List UInt8} {value other : BitVec 64}

theorem upperHex_ne_zero (c : UInt8) (hc : upperHex.IsDigit c) : c ≠ 0 :=
  IsLetterDigit.ne_zero (by decide) hc

theorem lowerHex_ne_zero (c : UInt8) (hc : lowerHex.IsDigit c) : c ≠ 0 :=
  IsLetterDigit.ne_zero (by decide) hc

theorem hexStr_numeral (value : BitVec 64) :
    ∃ block, StringT.hexStr fresh grown value = .ok block ∧
      CString (upperHex.numeral value.toNat) block := by
  obtain ⟨rest, hblock⟩ := @hexStr_ok fresh value
  refine ⟨_, (StringT.hexStr_eq value).trans hblock, ?_, rest, rfl⟩
  intro c hc
  exact upperHex_ne_zero c ((Alphabet.canonical_numeral _).digits c hc)

/-- No two values have one string. -/
theorem hexStr_inj (htext : upperHex.Canonical text value.toNat)
    (hother : Returns (StringT.hexStr fresh grown other) (CString text)) :
    other = value := by
  obtain ⟨block, hblock, hstring⟩ := @hexStr_numeral fresh grown other
  rw [hblock, returns_ok] at hother
  have hnumeral := hstring.unique hother
  apply BitVec.eq_of_toNat_eq
  apply htext.value_unique
  rw [hnumeral]
  exact Alphabet.canonical_numeral _

/-- The lower-case string stands for the same value. -/
theorem toLower_upperHex {block : List UInt8} {value : Nat}
    (hstring : CString (upperHex.numeral value) block) :
    Returns (toLower block) (CString (lowerHex.numeral value)) := by
  obtain ⟨rest, rfl⟩ := hstring.terminated
  rw [toLower_text hstring.nonzero, returns_ok,
    Alphabet.map_numeral lowerChar_upperHex]
  refine ⟨?_, rest, rfl⟩
  intro c hc
  exact lowerHex_ne_zero c ((Alphabet.canonical_numeral _).digits c hc)

end

theorem hexStr_canonical (fresh : Nat → UInt8) (grown : Nat → Nat → UInt8)
    (value : BitVec 64) :
    ∃ text block, StringT.hexStr fresh grown value = .ok block ∧
      CString text block ∧ upperHex.Canonical text value.toNat ∧
      1 ≤ text.length ∧ text.length ≤ 16 ∧
      Returns (toLower block) (fun lowered =>
        ∃ lower, CString lower lowered ∧ lower.length = text.length ∧
          lowerHex.Canonical lower value.toNat) ∧
      ∀ fresh' grown' other,
        Returns (StringT.hexStr fresh' grown' other) (CString text) →
          other = value := by
  obtain ⟨block, hblock, hstring⟩ := @hexStr_numeral fresh grown value
  have hupper : upperHex.Canonical (upperHex.numeral value.toNat) value.toNat :=
    Alphabet.canonical_numeral _
  have hlower : lowerHex.Canonical (lowerHex.numeral value.toNat) value.toNat :=
    Alphabet.canonical_numeral _
  have hcount := @StringT.length_digits_le 16 16 (by decide) (by decide) value
  refine ⟨_, block, hblock, hstring, hupper, ?_, ?_, ?_, ?_⟩
  · rw [hupper.length_eq]
    exact Nat.le_max_left _ _
  · rw [hupper.length_eq]
    omega
  · obtain ⟨lowered, hreturn, hlowered⟩ :=
      returns_iff.mp (toLower_upperHex hstring)
    rw [hreturn, returns_ok]
    exact ⟨_, hlowered, by rw [hlower.length_eq, hupper.length_eq], hlower⟩
  · intro fresh' grown' other hother
    exact hexStr_inj hupper hother

end Synos.Mutils

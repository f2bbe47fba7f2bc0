import Synos.Paging.Tree

namespace Synos.Paging

open Synos.Data

/-! Addresses below the window of the tables, by their page number and the word
they name in the page. -/

def lowHalf : Nat := 2 ^ 47

def wordAddress (vaddress : BitVec 64) (word : BitVec 9) : BitVec 64 :=
  vaddress + 8#64 * word.setWidth 64

section

variable {address first second : BitVec 64}

theorem toNat_tableIndex (address : BitVec 64) (level : Nat) :
    (tableIndex address level).toNat =
      address.toNat / 2 ^ (12 + 9 * (level - 1)) % 512 := by
  rw [tableIndex, BitVec.extractLsb'_toNat, Nat.shiftRight_eq_div_pow]

theorem canonical_of_lt (hlow : address.toNat < lowHalf) :
    canonical address := by
  have hclear : ∀ bit, 47 ≤ bit → address.getLsbD bit = false := by
    intro bit hge
    apply Nat.testBit_lt_two_pow
    exact Nat.lt_of_lt_of_le hlow (Nat.pow_le_pow_right (by decide) hge)
  apply canonical_of_bits
  intro bit hge _
  rw [hclear bit (by omega), hclear 47 (Nat.le_refl 47)]

theorem outside_of_lt (hlow : address.toNat < lowHalf) : Outside address := by
  intro hwindow
  have hlast : (tableIndex address 4).toNat = 511 := by
    rw [hwindow]
    rfl
  rw [toNat_tableIndex] at hlast
  simp only [lowHalf] at hlow
  omega

theorem path_eq_iff_page (hfirst : first.toNat < lowHalf)
    (hsecond : second.toNat < lowHalf) :
    path first 1 = path second 1 ↔
      first.toNat / 4096 = second.toNat / 4096 := by
  have hindex : ∀ level, tableIndex first level = tableIndex second level ↔
      first.toNat / 2 ^ (12 + 9 * (level - 1)) % 512 =
        second.toNat / 2 ^ (12 + 9 * (level - 1)) % 512 := by
    intro level
    rw [← toNat_tableIndex, ← toNat_tableIndex, BitVec.toNat_inj]
  rw [path_eq_iff]
  simp only [lowHalf] at hfirst hsecond
  constructor
  · intro h
    have hone := (hindex 1).mp (h 1 (by omega) (by omega))
    have htwo := (hindex 2).mp (h 2 (by omega) (by omega))
    have hthree := (hindex 3).mp (h 3 (by omega) (by omega))
    have hfour := (hindex 4).mp (h 4 (by omega) (by omega))
    simp only [Nat.reduceSub, Nat.reduceMul, Nat.reduceAdd, Nat.reducePow]
      at hone htwo hthree hfour
    omega
  · intro h level hge hle
    rw [hindex]
    have hcases : level = 1 ∨ level = 2 ∨ level = 3 ∨ level = 4 := by omega
    rcases hcases with rfl | rfl | rfl | rfl <;>
      simp only [Nat.reduceSub, Nat.reduceMul, Nat.reduceAdd, Nat.reducePow] <;>
      omega

end

section

variable {vaddress : BitVec 64}

theorem toNat_wordAddress (hlow : vaddress.toNat + 4096 ≤ lowHalf)
    (word : BitVec 9) :
    (wordAddress vaddress word).toNat = vaddress.toNat + 8 * word.toNat := by
  have hword := word.isLt
  simp only [lowHalf] at hlow
  simp only [wordAddress, BitVec.toNat_add, BitVec.toNat_mul,
    BitVec.toNat_setWidth, BitVec.toNat_ofNat]
  omega

theorem wordAddress_word (haligned : 4096 ∣ vaddress.toNat)
    (hlow : vaddress.toNat + 4096 ≤ lowHalf) (word : BitVec 9) :
    path (wordAddress vaddress word) 1 = path vaddress 1 ∧
      canonical (wordAddress vaddress word) ∧
      ((wordAddress vaddress word).extractLsb' 0 12).extractLsb' 3 9 =
        word := by
  have hsum := toNat_wordAddress hlow word
  have hword := word.isLt
  have hfits : (wordAddress vaddress word).toNat < lowHalf := by
    omega
  refine ⟨?_, canonical_of_lt hfits, ?_⟩
  · rw [path_eq_iff_page hfits (by omega), hsum]
    omega
  · apply BitVec.eq_of_toNat_eq
    rw [BitVec.extractLsb'_toNat, BitVec.extractLsb'_toNat, hsum,
      Nat.shiftRight_zero, Nat.shiftRight_eq_div_pow]
    omega

end

end Synos.Paging

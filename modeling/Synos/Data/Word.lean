import Mathlib.Algebra.Group.Nat.Defs
import Mathlib.Data.Nat.Basic

namespace Synos.Data

/-! Unsigned 64-bit arithmetic on natural numbers. -/

def wordSize : Nat := 2 ^ 64

def word (value : Nat) : Nat := value % wordSize

def wordAdd (left right : Nat) : Nat := word (left + right)

def wordSub (left right : Nat) : Nat :=
  word (wordSize - right % wordSize + left)

theorem word_of_lt {value : Nat} (h : value < wordSize) :
    word value = value :=
  Nat.mod_eq_of_lt h

theorem word_lt (value : Nat) : word value < wordSize :=
  Nat.mod_lt _ (by decide)

theorem wordAdd_of_lt {left right : Nat} (h : left + right < wordSize) :
    wordAdd left right = left + right :=
  word_of_lt h

theorem wordSub_of_le {left right : Nat} (hle : right ≤ left)
    (hlt : left < wordSize) : wordSub left right = left - right := by
  simp only [wordSub, word, wordSize] at *
  omega

end Synos.Data

import Synos.Data.Word
import Mathlib.Logic.Function.Basic
import Mathlib.Algebra.Order.Group.Nat
import Mathlib.Tactic.Ring

namespace Synos.Data

/-! Byte memory with a 64-bit address space, little-endian words in it, and which
bytes a store leaves alone. -/

abbrev Memory := Nat → UInt8

def loadBytes (memory : Memory) : (count address : Nat) → Nat
  | 0, _ => 0
  | count + 1, address =>
      (memory (word address)).toNat +
        256 * loadBytes memory count (address + 1)

def storeBytes (memory : Memory) : (count address value : Nat) → Memory
  | 0, _, _ => memory
  | count + 1, address, value =>
      storeBytes
        (Function.update memory (word address) (UInt8.ofNat (value % 256)))
        count (address + 1) (value / 256)

def load64 (memory : Memory) (address : Nat) : Nat :=
  loadBytes memory 8 address

def store64 (memory : Memory) (address value : Nat) : Memory :=
  storeBytes memory 8 address value

/-- Addresses wrap around at the end of the address space. -/
def setBytes (memory : Memory) (address : Nat) (value : UInt8) (count : Nat) :
    Memory :=
  fun other =>
    if other < wordSize ∧ wordSub other address < count then value
    else memory other

theorem setBytes_eq {memory : Memory} {address count : Nat} {value : UInt8}
    (hspace : address + count ≤ wordSize) (other : Nat) :
    setBytes memory address value count other =
      if address ≤ other ∧ other < address + count then value
      else memory other := by
  have hiff : other < wordSize ∧ wordSub other address < count ↔
      address ≤ other ∧ other < address + count := by
    simp only [wordSub, word, wordSize] at *
    omega
  simp only [setBytes, hiff]

/-- The two memories hold the same bytes from `start` up to `stop`. -/
def Agrees (memory other : Memory) (start stop : Nat) : Prop :=
  ∀ address, start ≤ address → address < stop →
    other address = memory address

section

variable {memory other : Memory} {start stop : Nat}

theorem Agrees.mono (hagrees : Agrees memory other start stop)
    {low high : Nat} (hlow : start ≤ low) (hhigh : high ≤ stop) :
    Agrees memory other low high :=
  fun address hge hlt => hagrees address (by omega) (by omega)

theorem storeBytes_outside {count address : Nat} (value : Nat)
    (hspace : address + count ≤ wordSize) {place : Nat}
    (houtside : place < address ∨ address + count ≤ place) :
    storeBytes memory count address value place = memory place := by
  induction count generalizing memory address value with
  | zero => rfl
  | succ count ih =>
      rw [storeBytes, ih _ (by omega) (by omega), Function.update_of_ne]
      rw [word_of_lt (by omega)]
      omega

theorem loadBytes_congr {count address : Nat}
    (hspace : address + count ≤ wordSize)
    (hagrees : Agrees memory other address (address + count)) :
    loadBytes other count address = loadBytes memory count address := by
  induction count generalizing address with
  | zero => rfl
  | succ count ih =>
      have hfirst := hagrees address (Nat.le_refl _) (by omega)
      rw [loadBytes, loadBytes, word_of_lt (by omega), hfirst,
        ih (by omega) (hagrees.mono (by omega) (by omega))]

theorem loadBytes_storeBytes {count address value : Nat}
    (hspace : address + count ≤ wordSize) (hvalue : value < 256 ^ count) :
    loadBytes (storeBytes memory count address value) count address =
      value := by
  induction count generalizing memory address value with
  | zero =>
      rw [pow_zero] at hvalue
      simp only [loadBytes]
      omega
  | succ count ih =>
      rw [pow_succ, Nat.mul_comm] at hvalue
      have hplace : word address = address := word_of_lt (by omega)
      rw [loadBytes, storeBytes, ih (by omega) (Nat.div_lt_of_lt_mul hvalue),
        storeBytes_outside _ (by omega) (by omega), Function.update_self,
        UInt8.toNat_ofNat', Nat.mod_mod]
      omega

theorem load64_congr {address : Nat} (hspace : address + 8 ≤ wordSize)
    (hagrees : Agrees memory other address (address + 8)) :
    load64 other address = load64 memory address :=
  loadBytes_congr hspace hagrees

theorem loadBytes_lt (memory : Memory) (count address : Nat) :
    loadBytes memory count address < 256 ^ count := by
  induction count generalizing address with
  | zero => simp [loadBytes]
  | succ count ih =>
      have hbyte := (memory (word address)).toNat_lt
      have hrest := ih (address + 1)
      rw [loadBytes, pow_succ]
      omega

theorem load64_lt (memory : Memory) (address : Nat) :
    load64 memory address < wordSize :=
  loadBytes_lt memory 8 address

theorem load64_of_zero {address : Nat} (hspace : address + 8 ≤ wordSize)
    (hzero : ∀ place, address ≤ place → place < address + 8 →
      memory place = 0) : load64 memory address = 0 := by
  have hblank : ∀ count place, loadBytes (fun _ => 0) count place = 0 := by
    intro count
    induction count with
    | zero => exact fun _ => rfl
    | succ count ih =>
        intro place
        rw [loadBytes, ih]
        rfl
  have hagrees : Agrees (fun _ => 0) memory address (address + 8) :=
    fun place hge hlt => hzero place hge hlt
  rw [load64_congr hspace hagrees]
  exact hblank 8 address

@[simp] theorem load64_store64 {address value : Nat}
    (hspace : address + 8 ≤ wordSize) (hvalue : value < wordSize) :
    load64 (store64 memory address value) address = value :=
  loadBytes_storeBytes hspace hvalue

theorem store64_agrees {address : Nat} (value : Nat)
    (hspace : address + 8 ≤ wordSize)
    (houtside : stop ≤ address ∨ address + 8 ≤ start) :
    Agrees memory (store64 memory address value) start stop :=
  fun place hge hlt => storeBytes_outside value hspace (by omega)

theorem load64_store64_of_ne {address place : Nat} (value : Nat)
    (hspace : address + 8 ≤ wordSize) (hplace : place + 8 ≤ wordSize)
    (houtside : place + 8 ≤ address ∨ address + 8 ≤ place) :
    load64 (store64 memory address value) place = load64 memory place :=
  load64_congr hplace (store64_agrees value hspace houtside)

theorem storeBytes_loadBytes (memory : Memory) (count address : Nat) :
    storeBytes memory count address (loadBytes memory count address) =
      memory := by
  induction count generalizing address with
  | zero => rfl
  | succ count ih =>
      have hbyte := (memory (word address)).toNat_lt
      have hlow : loadBytes memory (count + 1) address % 256 =
          (memory (word address)).toNat := by
        rw [loadBytes]
        omega
      have hhigh : loadBytes memory (count + 1) address / 256 =
          loadBytes memory count (address + 1) := by
        rw [loadBytes]
        omega
      rw [storeBytes, hlow, hhigh, UInt8.ofNat_toNat, Function.update_eq_self]
      exact ih (address + 1)

theorem store64_self (memory : Memory) (address : Nat) :
    store64 memory address (load64 memory address) = memory :=
  storeBytes_loadBytes memory 8 address

end

theorem loadBytes_moved {memory other : Memory} {count address place : Nat}
    (hsame : ∀ k < count,
      memory (word (address + k)) = other (word (place + k))) :
    loadBytes memory count address = loadBytes other count place := by
  induction count generalizing address place with
  | zero => rfl
  | succ count ih =>
      have hfirst := hsame 0 (by omega)
      have hrest := @ih (address + 1) (place + 1) (by
        intro k hk
        have hnext := hsame (k + 1) (by omega)
        rwa [Nat.add_comm k, ← Nat.add_assoc, ← Nat.add_assoc] at hnext)
      simp only [Nat.add_zero] at hfirst
      rw [loadBytes, loadBytes, hfirst, hrest]

/-! ### Copies -/

/-- `rep movsb`: byte by byte, upwards. -/
def copyBytes (memory : Memory) : (target source count : Nat) → Memory
  | _, _, 0 => memory
  | target, source, count + 1 =>
      copyBytes
        (Function.update memory (word target) (memory (word source)))
        (target + 1) (source + 1) count

section

variable {memory : Memory} {target source count : Nat}

theorem copyBytes_outside (hspace : target + count ≤ wordSize) {place : Nat}
    (houtside : place < target ∨ target + count ≤ place) :
    copyBytes memory target source count place = memory place := by
  induction count generalizing memory target source with
  | zero => rfl
  | succ count ih =>
      rw [copyBytes, ih (by omega) (by omega), Function.update_of_ne]
      rw [word_of_lt (by omega)]
      omega

theorem copyBytes_inside (htarget : target + count ≤ wordSize)
    (hsource : source + count ≤ wordSize)
    (hapart : target + count ≤ source ∨ source + count ≤ target) {k : Nat}
    (hk : k < count) :
    copyBytes memory target source count (target + k) =
      memory (source + k) := by
  induction count generalizing memory target source k with
  | zero => omega
  | succ count ih =>
      have hplace : word target = target := word_of_lt (by omega)
      have hfrom : word source = source := word_of_lt (by omega)
      cases k with
      | zero =>
          simp only [copyBytes, Nat.add_zero]
          rw [copyBytes_outside (by omega) (by omega), hplace,
            Function.update_self, hfrom]
      | succ k =>
          have hrest := @ih
            (Function.update memory (word target) (memory (word source)))
            (target + 1) (source + 1) (by omega) (by omega) (by omega) k
            (by omega)
          rw [copyBytes, Nat.add_comm k, ← Nat.add_assoc, hrest,
            Function.update_of_ne (by rw [hplace]; omega), Nat.add_assoc]

end

end Synos.Data

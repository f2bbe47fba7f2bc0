import Mathlib.Data.Nat.Count
import Mathlib.Logic.Function.Basic

namespace Synos.Data

/-! A bitmap of free slots (a clear bit is a free slot) kept together with the
number of free slots and the lowest free slot. -/

/-- The lowest clear bit in `[start, stop)`. -/
def firstClear? (bits : Nat → Bool) (start stop : Nat) : Option Nat :=
  if start < stop then
    if bits start then firstClear? bits (start + 1) stop else some start
  else
    none
termination_by stop - start

theorem firstClear?_eq_some {bits : Nat → Bool} {start stop found : Nat}
    (h : firstClear? bits start stop = some found) :
    start ≤ found ∧ found < stop ∧ bits found = false ∧
      ∀ slot, start ≤ slot → slot < found → bits slot = true := by
  induction start using firstClear?.induct bits stop with
  | case1 start hlt hset ih =>
      rw [firstClear?, if_pos hlt, if_pos hset] at h
      obtain ⟨hle, hstop, hclear, hbelow⟩ := ih h
      refine ⟨by omega, hstop, hclear, fun slot hslot hfound => ?_⟩
      rcases Nat.eq_or_lt_of_le hslot with rfl | hgt
      · exact hset
      · exact hbelow slot hgt hfound
  | case2 start hlt hclear =>
      rw [firstClear?, if_pos hlt, if_neg hclear] at h
      cases h
      refine ⟨Nat.le_refl _, hlt, by simpa using hclear, ?_⟩
      intro slot hslot hfound
      omega
  | case3 start hge =>
      rw [firstClear?, if_neg hge] at h
      cases h

theorem firstClear?_eq_none {bits : Nat → Bool} {start stop : Nat}
    (h : firstClear? bits start stop = none) :
    ∀ slot, start ≤ slot → slot < stop → bits slot = true := by
  induction start using firstClear?.induct bits stop with
  | case1 start hlt hset ih =>
      rw [firstClear?, if_pos hlt, if_pos hset] at h
      intro slot hslot hstop
      rcases Nat.eq_or_lt_of_le hslot with rfl | hgt
      · exact hset
      · exact ih h slot hgt hstop
  | case2 start hlt hclear =>
      rw [firstClear?, if_pos hlt, if_neg hclear] at h
      cases h
  | case3 start hge =>
      intro slot hslot hstop
      omega

theorem firstClear?_congr {bits other : Nat → Bool} {start stop : Nat}
    (hsame : ∀ slot < stop, bits slot = other slot) :
    firstClear? bits start stop = firstClear? other start stop := by
  induction start using firstClear?.induct bits stop with
  | case1 start hlt hset ih =>
      rw [firstClear?.eq_def bits, firstClear?.eq_def other start, if_pos hlt,
        if_pos hlt, if_pos hset, if_pos (hsame start hlt ▸ hset), ih]
  | case2 start hlt hclear =>
      rw [firstClear?.eq_def bits, firstClear?.eq_def other, if_pos hlt,
        if_pos hlt, if_neg hclear, if_neg (hsame start hlt ▸ hclear)]
  | case3 start hge =>
      rw [firstClear?.eq_def bits, firstClear?.eq_def other, if_neg hge,
        if_neg hge]

def clearCount (bits : Nat → Bool) (length : Nat) : Nat :=
  Nat.count (fun slot => bits slot = false) length

theorem clearCount_eq_zero {bits : Nat → Bool} {length : Nat} :
    clearCount bits length = 0 ↔ ∀ slot < length, bits slot = true := by
  simp [clearCount, Nat.count_iff_forall_not]

theorem clearCount_congr {bits other : Nat → Bool} {length : Nat}
    (h : ∀ slot < length, bits slot = other slot) :
    clearCount bits length = clearCount other length := by
  induction length with
  | zero => rfl
  | succ length ih =>
      simp only [clearCount, Nat.count_succ] at *
      rw [ih (fun slot hslot => h slot (by omega)), h length (by omega)]

theorem clearCount_le (bits : Nat → Bool) (length : Nat) :
    clearCount bits length ≤ length :=
  Nat.count_le _

theorem clearCount_set {bits : Nat → Bool} {length slot : Nat}
    (hslot : slot < length) (hclear : bits slot = false) :
    clearCount (Function.update bits slot true) length + 1 =
      clearCount bits length := by
  induction length with
  | zero => omega
  | succ length ih =>
      rcases Nat.eq_or_lt_of_le (Nat.le_of_lt_succ hslot) with rfl | hlt
      · have hsame : clearCount (Function.update bits slot true) slot =
            clearCount bits slot :=
          clearCount_congr fun other hother =>
            Function.update_of_ne (by omega) _ _
        simp only [clearCount, Nat.count_succ] at *
        simp [hsame, hclear]
      · have hne : length ≠ slot := by omega
        have := ih hlt
        simp only [clearCount, Nat.count_succ] at *
        rw [Function.update_of_ne hne]
        omega

theorem clearCount_clear {bits : Nat → Bool} {length slot : Nat}
    (hslot : slot < length) (hset : bits slot = true) :
    clearCount (Function.update bits slot false) length =
      clearCount bits length + 1 := by
  have h := clearCount_set hslot (Function.update_self slot false bits)
  rw [Function.update_idem, ← hset, Function.update_eq_self] at h
  exact h.symm

structure FreeSlots where
  bits : Nat → Bool
  length : Nat
  count : Nat
  hint : Nat

namespace FreeSlots

/-- The count is exact and the bits past the end are set. -/
structure Counted (slots : FreeSlots) : Prop where
  count_eq : slots.count = clearCount slots.bits slots.length
  padding : ∀ slot, slots.length ≤ slot → slots.bits slot = true

/-- Moreover the hint is the lowest free slot whenever there is one. -/
structure Sound (slots : FreeSlots) : Prop extends Counted slots where
  hint_clear : 0 < slots.count → slots.bits slots.hint = false
  below_hint : 0 < slots.count →
    ∀ slot < slots.hint, slots.bits slot = true

variable {slots : FreeSlots}

theorem Counted.lt_length (hcounted : slots.Counted) {slot : Nat}
    (hclear : slots.bits slot = false) : slot < slots.length := by
  by_contra hge
  have := hcounted.padding slot (by omega)
  rw [hclear] at this
  cases this

theorem Counted.count_pos (hcounted : slots.Counted) {slot : Nat}
    (hclear : slots.bits slot = false) : 0 < slots.count := by
  rw [hcounted.count_eq]
  by_contra hzero
  have hall := clearCount_eq_zero.mp (Nat.eq_zero_of_not_pos hzero)
  have := hall slot (hcounted.lt_length hclear)
  rw [hclear] at this
  cases this

theorem Counted.all_set (hcounted : slots.Counted) (hzero : slots.count = 0)
    (slot : Nat) : slots.bits slot = true := by
  by_contra hclear
  have hclear : slots.bits slot = false := by simpa using hclear
  have := hcounted.count_pos hclear
  omega

theorem Counted.count_le (hcounted : slots.Counted) :
    slots.count ≤ slots.length :=
  hcounted.count_eq ▸ clearCount_le _ _

theorem Counted.occupy (hcounted : slots.Counted) {slot : Nat} (hint : Nat)
    (hclear : slots.bits slot = false) :
    Counted ⟨Function.update slots.bits slot true, slots.length,
      slots.count - 1, hint⟩ := by
  refine ⟨?_, ?_⟩
  · have := clearCount_set (hcounted.lt_length hclear) hclear
    have := hcounted.count_eq
    simp only
    omega
  · intro other hother
    by_cases heq : other = slot
    · subst heq
      exact Function.update_self _ _ _
    · simpa [Function.update_of_ne heq] using hcounted.padding other hother

theorem Counted.release (hcounted : slots.Counted) {slot : Nat} (hint : Nat)
    (hset : slots.bits slot = true) (hlt : slot < slots.length) :
    Counted ⟨Function.update slots.bits slot false, slots.length,
      slots.count + 1, hint⟩ := by
  refine ⟨?_, ?_⟩
  · have := clearCount_clear hlt hset
    have := hcounted.count_eq
    simp only
    omega
  · intro other hother
    have hne : other ≠ slot := by
      rintro rfl
      simp only at hother
      omega
    simpa [Function.update_of_ne hne] using hcounted.padding other hother

theorem Sound.hint_le (hsound : slots.Sound) {slot : Nat}
    (hclear : slots.bits slot = false) : slots.hint ≤ slot := by
  by_contra hlt
  have := hsound.below_hint (hsound.count_pos hclear) slot (by omega)
  rw [hclear] at this
  cases this

theorem Sound.hint_unique (hsound : slots.Sound) {slot : Nat}
    (hclear : slots.bits slot = false)
    (hbelow : ∀ other < slot, slots.bits other = true) :
    slots.hint = slot := by
  have hle := hsound.hint_le hclear
  by_contra hne
  have hhint := hsound.hint_clear (hsound.count_pos hclear)
  rw [hbelow slots.hint (by omega)] at hhint
  cases hhint

theorem Counted.sound (hcounted : slots.Counted)
    (hhint : ∀ slot, slots.bits slot = false →
      slots.bits slots.hint = false ∧ slots.hint ≤ slot) : slots.Sound := by
  have hsome : 0 < slots.count → ∃ slot, slots.bits slot = false := by
    intro hpos
    by_contra hnone
    have hzero := clearCount_eq_zero.mpr
      (fun slot (_ : slot < slots.length) => show slots.bits slot = true by
        by_contra hclear
        exact hnone ⟨slot, by simpa using hclear⟩)
    rw [← hcounted.count_eq] at hzero
    omega
  refine ⟨hcounted, ?_, ?_⟩
  · intro hpos
    obtain ⟨slot, hclear⟩ := hsome hpos
    exact (hhint slot hclear).1
  · intro hpos slot hlt
    by_contra hset
    have := (hhint slot (by simpa using hset)).2
    omega

/-- Occupying a free slot keeps the structure sound for any new hint that is
the lowest of the remaining free slots. -/
theorem Sound.occupy (hsound : slots.Sound) {slot hint : Nat}
    (hclear : slots.bits slot = false)
    (hhint : ∀ other, other ≠ slot → slots.bits other = false →
      hint ≠ slot ∧ slots.bits hint = false ∧ hint ≤ other) :
    Sound ⟨Function.update slots.bits slot true, slots.length,
      slots.count - 1, hint⟩ := by
  refine (hsound.toCounted.occupy hint hclear).sound ?_
  intro other hother
  by_cases heq : other = slot
  · subst heq
    simp at hother
  · simp only [Function.update_of_ne heq] at hother
    obtain ⟨hne, hhintClear, hle⟩ := hhint other heq hother
    exact ⟨by simpa only [Function.update_of_ne hne] using hhintClear, hle⟩

theorem Sound.occupy_of_ne_hint (hsound : slots.Sound) {slot : Nat}
    (hclear : slots.bits slot = false) (hne : slots.hint ≠ slot) :
    Sound ⟨Function.update slots.bits slot true, slots.length,
      slots.count - 1, slots.hint⟩ := by
  apply hsound.occupy hclear
  intro other _ hother
  exact ⟨hne, hsound.hint_clear (hsound.count_pos hclear),
    hsound.hint_le hother⟩

theorem Sound.occupy_last (hsound : slots.Sound) {slot : Nat} (hint : Nat)
    (hclear : slots.bits slot = false) (hone : slots.count = 1) :
    Sound ⟨Function.update slots.bits slot true, slots.length,
      slots.count - 1, hint⟩ := by
  apply hsound.occupy hclear
  intro other hne hother
  have hset := clearCount_set (hsound.lt_length hclear) hclear
  have hcounted := hsound.count_eq
  have hzero : clearCount (Function.update slots.bits slot true)
      slots.length = 0 := by omega
  have := clearCount_eq_zero.mp hzero other (hsound.lt_length hother)
  rw [Function.update_of_ne hne, hother] at this
  cases this

theorem Sound.hint_lt (hsound : slots.Sound) {other : Nat}
    (hne : other ≠ slots.hint) (hclear : slots.bits other = false) :
    slots.hint + 1 ≤ other := by
  have hle := hsound.hint_le hclear
  omega

theorem Sound.exists_firstClear (hsound : slots.Sound) (hmore : 1 < slots.count) :
    ∃ found, firstClear? (Function.update slots.bits slots.hint true)
      (slots.hint + 1) slots.length = some found := by
  have hclear := hsound.hint_clear (Nat.lt_of_succ_lt hmore)
  refine Option.ne_none_iff_exists'.mp ?_
  intro hsearch
  have hnone := firstClear?_eq_none hsearch
  have hzero : clearCount (Function.update slots.bits slots.hint true)
      slots.length = 0 := by
    rw [clearCount_eq_zero]
    intro other hother
    by_cases heq : other = slots.hint
    · rw [heq, Function.update_self]
    · by_contra hset
      rw [Function.update_of_ne heq] at hset
      have hge := hsound.hint_lt heq (by simpa using hset)
      have := hnone other hge hother
      rw [Function.update_of_ne heq] at this
      exact hset this
  have hset := clearCount_set (hsound.lt_length hclear) hclear
  have hcounted := hsound.count_eq
  omega

theorem Sound.occupy_hint (hsound : slots.Sound) (hpos : 0 < slots.count)
    {found : Nat}
    (hsearch : firstClear? (Function.update slots.bits slots.hint true)
      (slots.hint + 1) slots.length = some found) :
    Sound ⟨Function.update slots.bits slots.hint true, slots.length,
      slots.count - 1, found⟩ := by
  obtain ⟨hge, -, hfound, hbelow⟩ := firstClear?_eq_some hsearch
  have hne : found ≠ slots.hint := by omega
  rw [Function.update_of_ne hne] at hfound
  apply hsound.occupy (hsound.hint_clear hpos)
  intro other hother hclear
  refine ⟨hne, hfound, ?_⟩
  by_contra hgt
  have := hbelow other (hsound.hint_lt hother hclear) (by omega)
  rw [Function.update_of_ne hother, hclear] at this
  cases this

/-- Freeing an occupied slot keeps the structure sound for any new hint that is
the lower of the freed slot and the old lowest. -/
theorem Sound.release (hsound : slots.Sound) {slot hint : Nat}
    (hset : slots.bits slot = true) (hlt : slot < slots.length)
    (hle : hint ≤ slot)
    (hhint : hint = slot ∨ 0 < slots.count ∧ hint = slots.hint)
    (hlow : 0 < slots.count → hint ≤ slots.hint) :
    Sound ⟨Function.update slots.bits slot false, slots.length,
      slots.count + 1, hint⟩ := by
  refine (hsound.toCounted.release hint hset hlt).sound ?_
  intro other hother
  constructor
  · rcases hhint with rfl | ⟨hpos, rfl⟩
    · exact Function.update_self _ _ _
    · have hclear := hsound.hint_clear hpos
      have hne : slots.hint ≠ slot := by
        intro heq
        rw [heq, hset] at hclear
        cases hclear
      simpa only [Function.update_of_ne hne] using hclear
  · by_cases heq : other = slot
    · exact heq ▸ hle
    · simp only [Function.update_of_ne heq] at hother
      exact (hlow (hsound.count_pos hother)).trans (hsound.hint_le hother)

/-- Freeing two neighbouring slots, as a split does one order below. -/
theorem Sound.release_pair (hsound : slots.Sound) {slot : Nat}
    (hlow : slots.bits slot = true) (hhigh : slots.bits (slot + 1) = true)
    (hlt : slot + 1 < slots.length) :
    Sound ⟨Function.update (Function.update slots.bits slot false)
        (slot + 1) false, slots.length, slots.count + 2,
      if slot < slots.hint ∨ slots.count = 0 then slot else slots.hint⟩ := by
  have hne : slot + 1 ≠ slot := by omega
  have hfirst : Sound ⟨Function.update slots.bits slot false, slots.length,
      slots.count + 1,
      if slot < slots.hint ∨ slots.count = 0 then slot else slots.hint⟩ := by
    apply hsound.release hlow (by omega)
    · split <;> omega
    · split
      · exact .inl rfl
      · exact .inr ⟨by omega, rfl⟩
    · intro hpos
      split <;> omega
  apply hfirst.release
  · simpa only [Function.update_of_ne hne] using hhigh
  · exact hlt
  · split <;> omega
  · exact .inr ⟨Nat.succ_pos _, rfl⟩
  · exact fun _ => Nat.le_refl _

/-- The lowest free slot once `slot` is free as well. -/
def lowestWith (slots : FreeSlots) (slot : Nat) : Nat :=
  if 0 < slots.count ∧ slots.hint < slot then slots.hint else slot

theorem lowestWith_le (slots : FreeSlots) (slot : Nat) :
    slots.lowestWith slot ≤ slot := by
  unfold lowestWith
  split <;> omega

theorem Sound.lowestWith_le_of_clear (hsound : slots.Sound) {slot other : Nat}
    (hother : slots.bits other = false) : slots.lowestWith slot ≤ other := by
  have hpos := hsound.count_pos hother
  have hhint := hsound.hint_le hother
  unfold lowestWith
  split <;> omega

theorem Sound.release_iff (hsound : slots.Sound) {slot hint : Nat}
    (hset : slots.bits slot = true) (hlt : slot < slots.length) :
    Sound ⟨Function.update slots.bits slot false, slots.length,
      slots.count + 1, hint⟩ ↔ hint = slots.lowestWith slot := by
  have hlow : Sound ⟨Function.update slots.bits slot false, slots.length,
      slots.count + 1, slots.lowestWith slot⟩ := by
    apply hsound.release hset hlt (slots.lowestWith_le slot)
    · unfold lowestWith
      split
      · rename_i hcase
        exact .inr ⟨hcase.1, rfl⟩
      · exact .inl rfl
    · intro hpos
      exact hsound.lowestWith_le_of_clear (hsound.hint_clear hpos)
  constructor
  · intro hother
    exact hother.hint_unique (hlow.hint_clear (Nat.succ_pos _))
      (hlow.below_hint (Nat.succ_pos _))
  · rintro rfl
    exact hlow

/-- The hint of a pair of new slots, moved on when it names the lower one, is
right after that one is taken if and only if it was right before. -/
theorem Sound.lowestWith_succ_iff (hsound : slots.Sound) {slot hint : Nat}
    (hset : slots.bits slot = true) (hle : hint ≤ slot)
    (hold : hint ≤ slots.hint) :
    (if hint = slot then slot + 1 else hint) = slots.lowestWith (slot + 1) ↔
      hint = slots.lowestWith slot := by
  have hne : 0 < slots.count → slots.hint ≠ slot := by
    intro hpos heq
    have hclear := hsound.hint_clear hpos
    rw [heq, hset] at hclear
    cases hclear
  unfold lowestWith
  split_ifs <;> omega

theorem Counted.two_le_count (hsound : slots.Counted) {slot : Nat}
    (hlow : slots.bits slot = false) (hhigh : slots.bits (slot + 1) = false) :
    2 ≤ slots.count := by
  have hne : slot + 1 ≠ slot := by omega
  have hset := clearCount_set (hsound.lt_length hlow) hlow
  have hcount := hsound.count_eq
  by_contra hlt
  have hall := clearCount_eq_zero.mp
    (show clearCount (Function.update slots.bits slot true) slots.length = 0
      by omega) (slot + 1) (hsound.lt_length hhigh)
  rw [Function.update_of_ne hne, hhigh] at hall
  cases hall

theorem Counted.occupy_pair (hcounted : slots.Counted) {slot : Nat}
    (hint : Nat) (hlow : slots.bits slot = false)
    (hhigh : slots.bits (slot + 1) = false) :
    Counted ⟨Function.update (Function.update slots.bits slot true)
      (slot + 1) true, slots.length, slots.count - 2, hint⟩ := by
  have hne : slot + 1 ≠ slot := by omega
  apply (hcounted.occupy hint hlow).occupy hint
  simpa only [Function.update_of_ne hne] using hhigh

theorem Sound.occupy_pair (hsound : slots.Sound) {slot : Nat}
    (hlow : slots.bits slot = false) (hhigh : slots.bits (slot + 1) = false)
    (hhint : ¬ (slots.hint = slot ∨ slots.hint = slot + 1)) :
    Sound ⟨Function.update (Function.update slots.bits slot true)
      (slot + 1) true, slots.length, slots.count - 2, slots.hint⟩ := by
  obtain ⟨hfirst, hsecond⟩ := not_or.mp hhint
  have hne : slot + 1 ≠ slot := by omega
  refine (hsound.occupy_of_ne_hint hlow hfirst).occupy_of_ne_hint ?_ hsecond
  simpa only [Function.update_of_ne hne] using hhigh

theorem Sound.set_below_pair (hsound : slots.Sound) {slot : Nat}
    (hhint : slots.hint = slot ∨ slots.hint = slot + 1) :
    ∀ other < slot + 2, Function.update (Function.update slots.bits slot true)
      (slot + 1) true other = true := by
  intro other hother
  by_cases hsecond : other = slot + 1
  · rw [hsecond, Function.update_self]
  rw [Function.update_of_ne hsecond]
  by_cases hfirst : other = slot
  · rw [hfirst, Function.update_self]
  rw [Function.update_of_ne hfirst]
  by_contra hclear
  have hle := hsound.hint_le (Bool.eq_false_of_not_eq_true hclear)
  omega

end FreeSlots

end Synos.Data

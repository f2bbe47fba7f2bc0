import Synos.Page.Region

namespace Synos.Page

open Synos.Data

/-! The order of the block that a number of pages needs. -/

/-- The loop of `log_order`, from bit `index` down.  `maxOrder + 1` stands for
"no bit seen yet". -/
def logOrderLoop (pages : Nat) : Nat → Nat → Nat
  | 0, order =>
      if pages % 2 = 1 ∧ order ≠ maxOrder + 1 then order + 1
      else if pages % 2 = 1 then 0 else order
  | index + 1, order =>
      if pages / 2 ^ (index + 1) % 2 = 1 ∧ order ≠ maxOrder + 1 then order + 1
      else
        logOrderLoop pages index
          (if pages / 2 ^ (index + 1) % 2 = 1 then index + 1 else order)

def logOrder (pages : Nat) : Nat :=
  let order := logOrderLoop pages 63 (maxOrder + 1)
  if order = maxOrder + 1 then 0 else order

theorem logOrder_two_pow : ∀ order < maxOrder, logOrder (2 ^ order) = order := by
  decide

/-! When the result is the logarithm. -/

/-- The least order whose block holds the pages. -/
def CeilLog (pages order : Nat) : Prop :=
  pages ≤ 2 ^ order ∧ ∀ other, pages ≤ 2 ^ other → order ≤ other

theorem CeilLog.mono {pages others order other : Nat}
    (horder : CeilLog pages order) (hother : CeilLog others other)
    (hle : pages ≤ others) : order ≤ other :=
  horder.2 other (Nat.le_trans hle hother.1)

theorem ceilLog_two_pow (order : Nat) : CeilLog (2 ^ order) order :=
  ⟨Nat.le_refl _, fun _ hle =>
    (Nat.pow_le_pow_iff_right (by decide)).mp hle⟩

theorem ceilLog_succ {pages order : Nat} (hgt : 2 ^ order < pages)
    (hle : pages ≤ 2 ^ (order + 1)) : CeilLog pages (order + 1) :=
  ⟨hle, fun _ hother =>
    (Nat.pow_lt_pow_iff_right (by decide)).mp (Nat.lt_of_lt_of_le hgt hother)⟩

section

variable {pages index order : Nat}

theorem logOrderLoop_seen (hseen : order ≠ maxOrder + 1) :
    logOrderLoop pages index order =
      if pages % 2 ^ (index + 1) = 0 then order else order + 1 := by
  induction index with
  | zero =>
      have hbit : pages % 2 = 0 ∨ pages % 2 = 1 := by omega
      cases hbit with
      | inl hzero => simp [logOrderLoop, hzero]
      | inr hone => simp [logOrderLoop, hone, hseen]
  | succ index ih =>
      have hsplit : pages % 2 ^ (index + 1 + 1) =
          pages % 2 ^ (index + 1) +
            2 ^ (index + 1) * (pages / 2 ^ (index + 1) % 2) := by
        rw [Nat.pow_succ 2 (index + 1), Nat.mod_mul]
      have hpos := Nat.two_pow_pos (index + 1)
      rw [logOrderLoop, hsplit]
      by_cases hbit : pages / 2 ^ (index + 1) % 2 = 1
      · have hsome : ¬ pages % 2 ^ (index + 1) + 2 ^ (index + 1) * 1 = 0 := by
          omega
        rw [if_pos ⟨hbit, hseen⟩, hbit, if_neg hsome]
      · have hnone : pages / 2 ^ (index + 1) % 2 = 0 := by omega
        rw [if_neg (fun h => hbit h.1), if_neg hbit, ih, hnone]
        simp only [Nat.mul_zero, Nat.add_zero]

theorem logOrderLoop_search (hlt : pages < 2 ^ (index + 1)) :
    logOrderLoop pages (index + 1) (maxOrder + 1) =
      logOrderLoop pages index (maxOrder + 1) := by
  rw [logOrderLoop, Nat.div_eq_of_lt hlt]
  rfl

theorem logOrderLoop_search_from {top : Nat} (hlt : pages < 2 ^ (top + 1))
    (above : Nat) :
    logOrderLoop pages (top + above) (maxOrder + 1) =
      logOrderLoop pages top (maxOrder + 1) := by
  induction above with
  | zero => rfl
  | succ above ih =>
      have hpow : 2 ^ (top + 1) ≤ 2 ^ (top + above + 1) :=
        Nat.pow_le_pow_right (by decide) (by omega)
      exact (logOrderLoop_search (Nat.lt_of_lt_of_le hlt hpow)).trans ih

theorem logOrderLoop_top {top : Nat} (hge : 2 ^ top ≤ pages)
    (hlt : pages < 2 ^ (top + 1)) (htop : top ≠ maxOrder + 1) :
    logOrderLoop pages top (maxOrder + 1) =
      if pages = 2 ^ top then top else top + 1 := by
  cases top with
  | zero =>
      have hone : pages = 1 := by omega
      subst hone
      rfl
  | succ top =>
      have hpow := Nat.pow_succ 2 (top + 1)
      have hquotient : pages / 2 ^ (top + 1) = 1 :=
        Nat.div_eq_of_lt_le (by omega) (by omega)
      have hrest : pages % 2 ^ (top + 1) = pages - 2 ^ (top + 1) := by
        have hsplit := Nat.div_add_mod pages (2 ^ (top + 1))
        rw [hquotient] at hsplit
        omega
      have hzero : pages - 2 ^ (top + 1) = 0 ↔ pages = 2 ^ (top + 1) := by
        omega
      rw [logOrderLoop, hquotient, if_neg (fun h => h.2 rfl), if_pos rfl,
        logOrderLoop_seen htop, hrest]
      simp only [hzero]

theorem logOrderLoop_le (pages index : Nat) :
    logOrderLoop pages index (maxOrder + 1) ≤ max (index + 1) (maxOrder + 1) := by
  induction index with
  | zero =>
      rw [logOrderLoop, if_neg (fun h => h.2 rfl)]
      split <;> omega
  | succ index ih =>
      rw [logOrderLoop, if_neg (fun h => h.2 rfl)]
      split
      · by_cases hmark : index + 1 = maxOrder + 1
        · rw [hmark]
          omega
        · rw [logOrderLoop_seen hmark]
          split <;> omega
      · omega

end

theorem exists_top {pages : Nat} (hpos : 1 ≤ pages) (hlt : pages < wordSize) :
    ∃ top above, top + above = 63 ∧ 2 ^ top ≤ pages ∧
      pages < 2 ^ (top + 1) := by
  have hne : pages ≠ 0 := by omega
  have htop : pages.log2 < 64 := (Nat.log2_lt hne).mpr hlt
  exact ⟨pages.log2, 63 - pages.log2, by omega, Nat.log2_self_le hne,
    Nat.lt_log2_self⟩

theorem ceilLog_of_top {pages top : Nat} (hge : 2 ^ top ≤ pages)
    (hlt : pages < 2 ^ (top + 1)) :
    CeilLog pages (if pages = 2 ^ top then top else top + 1) := by
  split
  · next hpow =>
      rw [hpow]
      exact ceilLog_two_pow top
  · exact ceilLog_succ (by omega) (by omega)

theorem logOrder_of_top {pages top above : Nat} (hsum : top + above = 63)
    (hlt : pages < 2 ^ (top + 1)) :
    logOrder pages =
      if logOrderLoop pages top (maxOrder + 1) = maxOrder + 1 then 0
      else logOrderLoop pages top (maxOrder + 1) := by
  rw [logOrder, ← hsum, logOrderLoop_search_from hlt above]

/-- The first bit is at the position of the mark: it is taken for "no bit", and
the rest of the bits give too little. -/
theorem logOrder_of_mark {pages above : Nat}
    (hsum : maxOrder + 1 + above = 63) (hge : 2 ^ (maxOrder + 1) ≤ pages)
    (hlt : pages < 2 ^ (maxOrder + 1 + 1)) :
    ¬ CeilLog pages (logOrder pages) := by
  have hle := logOrderLoop_le pages maxOrder
  have hstart : logOrderLoop pages (maxOrder + 1) (maxOrder + 1) =
      logOrderLoop pages maxOrder (maxOrder + 1) := by
    rw [logOrderLoop, if_neg (fun h => h.2 rfl), ite_self]
  have hsmall : logOrder pages ≤ maxOrder := by
    rw [logOrder_of_top hsum hlt, hstart]
    split <;> omega
  intro hceil
  have hpow : 2 ^ logOrder pages ≤ 2 ^ maxOrder :=
    Nat.pow_le_pow_right (by decide) hsmall
  have hdouble := Nat.pow_succ 2 maxOrder
  have hpos := Nat.two_pow_pos maxOrder
  have hholds := hceil.1
  omega

theorem ceilLog_logOrder_of_top {pages top above : Nat}
    (hsum : top + above = 63) (hge : 2 ^ top ≤ pages)
    (hlt : pages < 2 ^ (top + 1)) (hmark : top ≠ maxOrder + 1) :
    CeilLog pages (logOrder pages) ↔
      ¬ (top = maxOrder ∧ 2 ^ maxOrder < pages) := by
  have hceil := ceilLog_of_top hge hlt
  rw [logOrder_of_top hsum hlt, logOrderLoop_top hge hlt hmark]
  by_cases hpow : pages = 2 ^ top
  · rw [if_pos hpow] at hceil ⊢
    rw [if_neg hmark]
    refine iff_of_true hceil ?_
    rintro ⟨rfl, hgt⟩
    exact hgt.ne' hpow
  · rw [if_neg hpow] at hceil ⊢
    by_cases hround : top = maxOrder
    · subst hround
      rw [if_pos rfl]
      refine iff_of_false (fun hzero => ?_) (fun hnot => hnot ⟨rfl, ?_⟩)
      · have hone := hzero.1
        have hpos := Nat.two_pow_pos maxOrder
        omega
      · omega
    · rw [if_neg (fun hsame => hround (Nat.succ.inj hsame))]
      exact iff_of_true hceil fun hmarked => hround hmarked.1

/-- `log_order` is the ceiling of the logarithm except where the mark gets in the
way: the first bit is bit 11, or it is bit 10 and the result is 11. -/
theorem ceilLog_logOrder_iff {pages : Nat} (hpos : 1 ≤ pages)
    (hlt : pages < wordSize) :
    CeilLog pages (logOrder pages) ↔ pages ≤ 1024 ∨ 4096 ≤ pages := by
  obtain ⟨top, above, hsum, hge, hlt⟩ := exists_top hpos hlt
  by_cases hmark : top = maxOrder + 1
  · subst hmark
    refine iff_of_false (logOrder_of_mark hsum hge hlt) ?_
    simp only [maxOrder] at *
    omega
  · rw [ceilLog_logOrder_of_top hsum hge hlt hmark]
    rcases Nat.lt_trichotomy top maxOrder with hlow | rfl | hhigh
    · have hpow : 2 ^ (top + 1) ≤ 2 ^ maxOrder :=
        Nat.pow_le_pow_right (by decide) hlow
      refine iff_of_true (fun hmarked => hlow.ne hmarked.1) (.inl ?_)
      simp only [maxOrder] at hpow
      omega
    · simp only [maxOrder, true_and, not_lt] at *
      omega
    · have hpow : 2 ^ (maxOrder + 2) ≤ 2 ^ top :=
        Nat.pow_le_pow_right (by decide) (by omega)
      refine iff_of_true (fun hmarked => hhigh.ne' hmarked.1) (.inr ?_)
      exact hpow.trans hge

/-- Every request outside that gap gets the least order that holds it, and among
them the order grows with the request. -/
theorem logOrder_ceilLog_iff {pages : Nat} (hpos : 1 ≤ pages)
    (hlt : pages < wordSize) :
    (CeilLog pages (logOrder pages) ↔ pages ≤ 1024 ∨ 4096 ≤ pages) ∧
      ((pages ≤ 1024 ∨ 4096 ≤ pages) → ∀ others, pages ≤ others →
        others < wordSize → (others ≤ 1024 ∨ 4096 ≤ others) →
        logOrder pages ≤ logOrder others) := by
  refine ⟨ceilLog_logOrder_iff hpos hlt, ?_⟩
  intro hpages others hle hword hothers
  have hceil := (ceilLog_logOrder_iff hpos hlt).mpr hpages
  exact hceil.mono
    ((ceilLog_logOrder_iff (Nat.le_trans hpos hle) hword).mpr hothers) hle

theorem logOrder_ceilLog_page :
    (CeilLog 5 (logOrder 5) ↔ 5 ≤ 1024 ∨ 4096 ≤ 5) ∧
      ((5 ≤ 1024 ∨ 4096 ≤ 5) → ∀ others, 5 ≤ others → others < wordSize →
        (others ≤ 1024 ∨ 4096 ≤ others) → logOrder 5 ≤ logOrder others) :=
  logOrder_ceilLog_iff (by decide) (by decide)

/-- One page more than the largest small request: the block is one page. -/
theorem logOrder_undersized :
    logOrder 1025 = 0 ∧ logOrder 2048 = 0 ∧ ¬ CeilLog 1025 (logOrder 1025) := by
  have hzero : logOrder 1025 = 0 := by decide
  refine ⟨hzero, by decide, ?_⟩
  intro h
  rw [hzero] at h
  exact absurd h.1 (by decide)

end Synos.Page

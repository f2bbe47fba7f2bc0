import Synos.Page.Init
import Mathlib.Data.Nat.Log

namespace Synos.Page

open Synos.Data

/-! Where `region_map` puts the bitmaps inside the table, and when the table is
large enough for them. -/

/-- The variables `last_pos`, counted from the start of the table, and
`last_size` of the loop in `region_map` when it assigns `free_area[order]`. -/
def areaLayout (pages : Nat) : Nat → Nat × Nat
  | 0 => (0, (pages + (8 - 1)) / 8)
  | order + 1 =>
      let (lastPos, lastSize) := areaLayout pages order
      (lastPos + lastSize, (lastSize + 1) / 2)

/-- The byte of the table that `block_check`, `block_set` and `block_clear`
touch. -/
def blockByte (pages order offset : Nat) : Nat :=
  (areaLayout pages order).1 + offset / 8

/-- The bitmaps do not overlap, each one has room for its blocks and the buddy of
the last one, and those in use lie inside the table. -/
structure LayoutFits (pages : Nat) : Prop where
  disjoint : ∀ low high, low < high → high < maxOrder →
    (areaLayout pages low).1 + (areaLayout pages low).2 ≤
      (areaLayout pages high).1
  room : ∀ order < maxOrder, ∀ offset < pages / 2 ^ order,
    offset < 8 * (areaLayout pages order).2 ∧
      buddyOf offset < 8 * (areaLayout pages order).2
  inside : ∀ order < maxOrder, 0 < pages / 2 ^ order →
    (areaLayout pages order).1 + (areaLayout pages order).2 ≤ pageTblSize pages
  touched : ∀ order < maxOrder, ∀ offset < pages / 2 ^ order,
    blockByte pages order offset < pageTblSize pages

/-- The number of one bits among the lowest `limit` bits. -/
def onesBelow (value : Nat) : Nat → Nat
  | 0 => 0
  | limit + 1 => onesBelow value limit + value / 2 ^ limit % 2

section

variable {pages : Nat}

theorem onesBelow_le (value limit : Nat) {width : Nat}
    (hvalue : value < 2 ^ width) : onesBelow value limit ≤ min limit width := by
  induction limit with
  | zero => simp [onesBelow]
  | succ limit ih =>
      rw [onesBelow]
      by_cases hlt : limit < width
      · omega
      · have hle : 2 ^ width ≤ 2 ^ limit :=
          Nat.pow_le_pow_right (by decide) (Nat.le_of_not_lt hlt)
        rw [Nat.div_eq_of_lt (by omega)]
        omega

theorem areaLayout_size (hpages : 0 < pages) (order : Nat) :
    (areaLayout pages order).2 = (pages - 1) / 2 ^ (order + 3) + 1 := by
  induction order with
  | zero =>
      simp only [areaLayout]
      omega
  | succ order ih =>
      simp only [areaLayout, ih]
      rw [Nat.add_right_comm order 1 3, pow_succ _ (order + 3),
        ← Nat.div_div_eq_div_mul]
      omega

theorem areaLayout_start (hpages : 0 < pages) (order : Nat) :
    (areaLayout pages order).1 + (pages - 1) / 4 / 2 ^ order +
      onesBelow ((pages - 1) / 4) order = order + (pages - 1) / 4 := by
  induction order with
  | zero => simp [areaLayout, onesBelow]
  | succ order ih =>
      have hsize : (pages - 1) / 2 ^ (order + 3) =
          (pages - 1) / 4 / 2 ^ (order + 1) := by
        rw [Nat.div_div_eq_div_mul]
        congr 1
        ring
      have hhalf : (pages - 1) / 4 / 2 ^ (order + 1) =
          (pages - 1) / 4 / 2 ^ order / 2 := by
        rw [Nat.div_div_eq_div_mul _ (2 ^ order), ← pow_succ]
      simp only [areaLayout, areaLayout_size hpages, onesBelow, hsize, hhalf]
      omega

theorem areaLayout_disjoint (pages : Nat) {low high : Nat} (hlt : low < high) :
    (areaLayout pages low).1 + (areaLayout pages low).2 ≤
      (areaLayout pages high).1 := by
  induction high with
  | zero => omega
  | succ high ih =>
      simp only [areaLayout]
      rcases Nat.eq_or_lt_of_le (Nat.le_of_lt_succ hlt) with rfl | hbelow
      · exact Nat.le_refl _
      · have := ih hbelow
        omega

theorem buddyOf_lt {offset half : Nat} (h : offset < 2 * half) :
    buddyOf offset < 2 * half := by
  unfold buddyOf
  split <;> omega

theorem areaLayout_room (hpages : 0 < pages) {order offset : Nat}
    (hoffset : offset < pages / 2 ^ order) :
    offset < 8 * (areaLayout pages order).2 := by
  have hpow : (pages - 1) / 2 ^ (order + 3) = (pages - 1) / 2 ^ order / 8 := by
    rw [Nat.div_div_eq_div_mul, pow_add]
    rfl
  have hle : pages / 2 ^ order ≤ (pages - 1) / 2 ^ order + 1 := by
    rw [← Nat.add_div_right _ (Nat.two_pow_pos order)]
    apply Nat.div_le_div_right
    have := Nat.two_pow_pos order
    omega
  rw [areaLayout_size hpages, hpow]
  omega

theorem pageTblSize_eq (hpages : 0 < pages) :
    pageTblSize pages = (pages - 1) / 4 + 1 := by
  simp only [pageTblSize, bitsPerPage]
  omega

theorem area_inside_iff (hpages : 0 < pages) (order : Nat) :
    (areaLayout pages order).1 + (areaLayout pages order).2 ≤
        pageTblSize pages ↔
      order ≤ (pages - 1) / 4 / 2 ^ (order + 1) +
        onesBelow ((pages - 1) / 4) (order + 1) := by
  have hnext := areaLayout_start hpages (order + 1)
  simp only [areaLayout] at hnext
  rw [pageTblSize_eq hpages]
  omega

/-- Fewer than 512 pages, but more than one, never fit. -/
theorem layout_small (htwo : 2 ≤ pages) (hsmall : pages < 512) :
    ¬ LayoutFits pages := by
  intro hfits
  have hpos : pages ≠ 0 := by omega
  have hlog : Nat.log 2 pages < 9 :=
    (Nat.log_lt_iff_lt_pow (by decide) hpos).mpr hsmall
  have hge : 1 ≤ Nat.log 2 pages :=
    (Nat.le_log_iff_pow_le (by decide) hpos).mpr (by simpa using htwo)
  have hlow : 2 ^ Nat.log 2 pages ≤ pages := Nat.pow_log_le_self 2 hpos
  have hhigh : pages < 2 ^ (Nat.log 2 pages + 1) :=
    Nat.lt_pow_succ_log_self (by decide) pages
  have hinside := hfits.inside (Nat.log 2 pages)
    (by simp only [maxOrder]; omega)
    (Nat.div_pos hlow (Nat.two_pow_pos _))
  rw [area_inside_iff (by omega)] at hinside
  obtain ⟨width, hwidth⟩ : ∃ width, Nat.log 2 pages = width + 1 :=
    ⟨Nat.log 2 pages - 1, by omega⟩
  rw [hwidth] at hinside hhigh
  have hquarter : (pages - 1) / 4 < 2 ^ width := by
    rw [pow_succ, pow_succ] at hhigh
    omega
  have hones := onesBelow_le ((pages - 1) / 4) (width + 1 + 1) hquarter
  have hmore : 2 ^ width ≤ 2 ^ (width + 1 + 1) :=
    Nat.pow_le_pow_right (by decide) (by omega)
  rw [Nat.div_eq_of_lt (by omega)] at hinside
  omega

/-- The bitmaps fit the table for a single page, and otherwise just when the page
count leaves enough whole groups of 4096 pages and one bits. -/
theorem layout_fits_iff (hpages : 0 < pages) :
    LayoutFits pages ↔ pages = 1 ∨
      9 ≤ (pages - 1) / 4096 + onesBelow ((pages - 1) / 4) maxOrder := by
  have hlast : (pages - 1) / 4 / 2 ^ (maxOrder - 1 + 1) =
      (pages - 1) / 4096 := by
    rw [Nat.div_div_eq_div_mul]
    rfl
  constructor
  · intro hfits
    by_cases hone : pages = 1
    · exact .inl hone
    · right
      have hlarge : 512 ≤ pages := by
        by_contra hsmall
        exact layout_small (by omega) (by omega) hfits
      have hinside := hfits.inside (maxOrder - 1) (by decide)
        (Nat.div_pos hlarge (Nat.two_pow_pos _))
      rw [area_inside_iff hpages, hlast] at hinside
      exact hinside
  · intro hcondition
    have hinside : ∀ order < maxOrder, 0 < pages / 2 ^ order →
        (areaLayout pages order).1 + (areaLayout pages order).2 ≤
          pageTblSize pages := by
      intro order horder husable
      cases hcondition with
      | inl hone =>
          subst hone
          have hzero : order = 0 := by
            by_contra hne
            have hpow : 2 ^ 1 ≤ 2 ^ order :=
              Nat.pow_le_pow_right (by decide) (Nat.pos_of_ne_zero hne)
            rw [Nat.div_eq_of_lt (by omega)] at husable
            omega
          subst hzero
          decide
      | inr hones =>
          have htop := (area_inside_iff hpages (maxOrder - 1)).mpr
            (by rw [hlast]; exact hones)
          rcases Nat.eq_or_lt_of_le (Nat.le_sub_one_of_lt horder) with
            rfl | hlt
          · exact htop
          · have := areaLayout_disjoint pages hlt
            omega
    refine ⟨fun low high hlt _ => areaLayout_disjoint pages hlt, ?_, hinside,
      ?_⟩
    · intro order horder offset hoffset
      have hroom := areaLayout_room hpages hoffset
      exact ⟨hroom, by
        have := @buddyOf_lt offset (4 * (areaLayout pages order).2) (by omega)
        omega⟩
    · intro order horder offset hoffset
      have hroom := areaLayout_room hpages hoffset
      have hend := hinside order horder (by omega)
      unfold blockByte
      omega

end

/-- A region of 4 GiB has room for its bitmaps. -/
theorem layout_fits_large : LayoutFits 0x100000 :=
  (layout_fits_iff (by decide)).mpr (.inr (by decide))

/-- With two pages the bitmap of order one starts behind the table. -/
theorem layout_misses_pair :
    0 < 2 / 2 ^ 1 ∧ blockByte 2 1 0 = 1 ∧ pageTblSize 2 = 1 ∧
      ¬ LayoutFits 2 := by
  refine ⟨by decide, by decide, by decide, ?_⟩
  intro hfits
  exact absurd (hfits.touched 1 (by decide) 0 (by decide)) (by decide)

end Synos.Page

import Synos.Stored.Calls
import Synos.Page.Reserve

namespace Synos.Stored

open Synos.Data
open Synos.Page

/-! `pages_reserve` on the bytes of memory.  Unlike the other calls it reads the
bits over its block up to the top order, of which those over the last pages need
not belong to any block of the region. -/

/-- Every bit that `pages_reserve` reads on the way up from the block lies in the
bitmap of its order. -/
def Place.Climbs (place : Place) (map : BpaMap) (order offset : Nat) : Prop :=
  ∀ top, order < top → top < maxOrder →
    (∀ other, order < other → other < top →
      map.freeArea other (offset / 2 ^ (other - order)) = true) →
    place.InBitmap top (offset / 2 ^ (top - order))

instance (place : Place) (map : BpaMap) (order offset : Nat) :
    Decidable (place.Climbs map order offset) :=
  decidable_of_iff
    (∀ top < maxOrder, order < top →
      (∀ other < top, order < other →
        map.freeArea other (offset / 2 ^ (other - order)) = true) →
      place.InBitmap top (offset / 2 ^ (top - order)))
    ⟨fun h top hgt hlt hset =>
        h top hlt hgt fun other hother hover => hset other hover hother,
      fun h top hlt hgt hset =>
        h top hgt hlt fun other hover hother => hset other hother hover⟩

/-- A block around another of the region holds a larger part of it. -/
theorem lt_of_div_lt {pages order depth index : Nat}
    (hlt : index / 2 ^ depth < pages / 2 ^ (order + depth)) :
    index < pages / 2 ^ order := by
  by_contra hge
  have hle := Nat.div_le_div_right (c := 2 ^ depth) (Nat.le_of_not_lt hge)
  rw [Nat.div_div_eq_div_mul, ← pow_add] at hle
  omega

section

variable {pages : Nat} {map : BpaMap} {block outer : Block}

theorem lt_of_inside (hlt : outer.index < pages / 2 ^ outer.order)
    (hinside : block.Inside outer) {top : Nat} (hge : block.order ≤ top)
    (hle : top ≤ outer.order) :
    block.index / 2 ^ (top - block.order) < pages / 2 ^ top := by
  obtain ⟨horder, hindex⟩ := Block.inside_iff.mp hinside
  apply @lt_of_div_lt _ _ (outer.order - top)
  rw [Nat.div_div_eq_div_mul, ← pow_add, Nat.add_sub_cancel' hle]
  have hshift : top - block.order + (outer.order - top) =
      outer.order - block.order := by omega
  rwa [hshift, hindex]

theorem inArea_of_inside (hlt : outer.index < pages / 2 ^ outer.order)
    (horder : outer.order < maxOrder) (hinside : block.Inside outer) :
    InArea pages block.order block.index := by
  have hle := (Block.inside_iff.mp hinside).1
  refine inArea_of_lt (Nat.lt_of_le_of_lt hle horder) ?_
  have hindex := lt_of_inside hlt hinside (Nat.le_refl _) hle
  rwa [Nat.sub_self, pow_zero, Nat.div_one] at hindex

theorem Place.Fits.climbs {place : Place} (hfits : place.Fits)
    (hlt : outer.index < place.pages / 2 ^ outer.order) (hfree : outer ∈ map.free)
    (hinside : block.Inside outer)
    (hset : map.freeArea block.order block.index = true) :
    place.Climbs map block.order block.index := by
  obtain ⟨horder, hindex⟩ := Block.inside_iff.mp hinside
  intro top hgt htop hother
  refine hfits.inBitmap
    (inArea_of_lt htop (lt_of_inside hlt hinside (Nat.le_of_lt hgt) ?_))
  by_contra habove
  rcases Nat.eq_or_lt_of_le horder with heq | hbelow
  · rw [heq, Nat.sub_self, pow_zero, Nat.div_one] at hindex
    rw [heq, hindex, hfree.2] at hset
    cases hset
  · have hclear := hother outer.order hbelow (Nat.lt_of_not_le habove)
    rw [hindex, hfree.2] at hclear
    cases hclear

end

section

variable {place : Place} {origin : Memory} {stored : StoredMap} {map : BpaMap}
  {order offset : Nat}

theorem Place.Keeps.zfreeHalves (hkeeps : place.Keeps origin stored map)
    (hzero : 0 < order) (horder : order < maxOrder)
    (hlt : offset < place.pages / 2 ^ order) :
    place.Keeps origin (Stored.zfreeHalves stored order offset)
      (Page.zfreeHalves map order offset) := by
  have hhalf := two_mul_lt hzero hlt
  have hlow : order - 1 < maxOrder := by omega
  have hhalves := hkeeps.halve hzero horder hlt
  have hbelow := hhalves.padded.hint_lt (order - 1) hlow
  rw [Stored.zfreeHalves, Page.zfreeHalves]
  refine Place.Keeps.addFree ?_ hlow (by omega) 2
  simp only [hhalves.hint_eq _ horder, hhalves.hint_eq _ hlow]
  refine .ite Iff.rfl (fun hlt => ?_) fun _ => hhalves
  exact hhalves.setNextFreePage hlow (by omega)

theorem Place.Keeps.zsplitBlock (hkeeps : place.Keeps origin stored map)
    (hzero : 0 < order) (horder : order < maxOrder)
    (hlt : offset < place.pages / 2 ^ order) :
    place.Keeps origin (Stored.zsplitBlock stored order offset)
      (Page.zsplitBlock map order offset) := by
  have hhalves := hkeeps.zfreeHalves hzero horder hlt
  rw [Stored.zsplitBlock, Page.zsplitBlock]
  refine Place.Keeps.subFree ?_ horder (by omega) 1
  refine .ite (by rw [hhalves.count_eq _ horder])
    (fun _ => hhalves.setNextFreePage horder (.inl rfl)) fun _ => ?_
  refine .ite (by rw [hhalves.hint_eq _ horder]) ?_ fun _ => hhalves
  exact fun _ => hhalves.searchNextFreePage horder _

theorem Place.Keeps.zblockSplit (hkeeps : place.Keeps origin stored map)
    (hzero : 0 < order) (horder : order < maxOrder)
    (hfree : map.freeArea order offset = false) :
    place.Keeps origin (Stored.zblockSplit stored order offset)
      (Page.zblockSplit map order offset) := by
  have hlt := hkeeps.padded.clear_lt order horder offset hfree
  have hcheck := hkeeps.check_eq order offset (inArea_of_lt horder hlt)
  rw [zblockSplit_of_free hzero horder hfree, Stored.zblockSplit,
    if_neg (by omega), if_pos (hcheck.trans hfree)]
  exact hkeeps.zsplitBlock hzero horder hlt

theorem zsplitBlock_left (map : BpaMap) (order offset : Nat) :
    (Page.zsplitBlock map order offset).freeArea (order - 1) (offset * 2) =
      false := by
  rw [zsplitBlock_freeArea, zfreeHalves_freeArea]
  have hright := writeBlock_freeArea
    ((map.blockSet order offset).blockClear (order - 1) (offset * 2))
    (order - 1) (offset * 2 + 1) false ⟨order - 1, offset * 2⟩
  have hleft := writeBlock_freeArea (map.blockSet order offset) (order - 1)
    (offset * 2) false ⟨order - 1, offset * 2⟩
  simp only [if_true] at hleft hright
  rw [hright, hleft, ite_self]

theorem Place.Keeps.splitDown {current : Nat}
    (hkeeps : place.Keeps origin stored map) (hcurrent : current < maxOrder)
    (hfree : order < current → map.freeArea current offset = false) :
    place.Keeps origin (Stored.splitDown stored order current offset)
      (Page.splitDown map order current offset) := by
  induction current generalizing stored map offset with
  | zero => exact hkeeps
  | succ current ih =>
      rw [Stored.splitDown, Page.splitDown]
      refine .ite Iff.rfl (fun hlt => ?_) fun _ => hkeeps
      have hclear := hfree hlt
      refine ih (hkeeps.zblockSplit (by omega) hcurrent hclear) (by omega) ?_
      intro _
      rw [zblockSplit_of_free (by omega) hcurrent hclear]
      exact zsplitBlock_left map (current + 1) offset

theorem Place.Keeps.reserveBlock (hkeeps : place.Keeps origin stored map)
    (horder : order < maxOrder) (hlt : offset < place.pages / 2 ^ order) :
    place.Keeps origin (Stored.reserveBlock stored order offset)
      (Page.reserveBlock map order offset) := by
  have hcounted := (hkeeps.blockSet (inArea_of_lt horder hlt)).subFree horder
    (by omega) 1
  rw [Stored.reserveBlock, Page.reserveBlock]
  refine .ite (by rw [hcounted.hint_eq _ horder]) ?_ fun _ => hcounted
  exact fun _ => hcounted.searchNextFreePage horder _

/-! The way up. -/

theorem Place.Keeps.findSplitOrder (hkeeps : place.Keeps origin stored map)
    {depth current pOffset : Nat} (hdepth : current + depth = maxOrder)
    (hclimbs : ∀ top, current ≤ top → top < maxOrder →
      (∀ other, current ≤ other → other < top →
        map.freeArea other (pOffset / 2 ^ (other + 1 - current)) = true) →
      place.InBitmap top (pOffset / 2 ^ (top + 1 - current))) :
    Stored.findSplitOrder stored order current pOffset =
      Page.findSplitOrder map order current pOffset := by
  induction depth generalizing current pOffset with
  | zero =>
      rw [Stored.findSplitOrder, Page.findSplitOrder, if_neg (by omega),
        if_neg (by omega)]
  | succ depth ih =>
      have harea := hclimbs current (Nat.le_refl _) (by omega)
        fun other hge hlt => by omega
      rw [Nat.add_sub_cancel_left, pow_one] at harea
      have hlt : current < maxOrder := by omega
      have hcheck := hkeeps.bit_eq current _ harea
      rw [Stored.findSplitOrder, Page.findSplitOrder, if_pos hlt, if_pos hlt]
      by_cases hfree : map.blockCheck current (pOffset / 2) = false
      · rw [if_pos (hcheck.trans hfree), if_pos hfree]
      · rw [if_neg (fun hclear => hfree (hcheck.symm.trans hclear)),
          if_neg hfree]
        have hshift : ∀ other, current < other → pOffset / 2 ^
            (other + 1 - current) =
              pOffset / 2 / 2 ^ (other + 1 - (current + 1)) := by
          intro other hother
          have hsucc : other + 1 - current = other + 1 - (current + 1) + 1 := by
            omega
          rw [hsucc, pow_succ', Nat.div_div_eq_div_mul]
        refine ih (by omega) fun top htop hlt hset => ?_
        rw [← hshift top htop]
        refine hclimbs top (by omega) hlt fun other hother hbelow => ?_
        rcases Nat.eq_or_lt_of_le hother with rfl | hgt
        · rw [Nat.add_sub_cancel_left, pow_one]
          simpa using hfree
        · rw [hshift other hgt]
          exact hset other hgt hbelow

/-- The search ends at a free block above `order`, or at `order`. -/
theorem findSplitOrder_cases {current pOffset : Nat} (hcurrent : order < current) :
    (Page.findSplitOrder map order current pOffset).1 = order ∨
      order < (Page.findSplitOrder map order current pOffset).1 ∧
        (Page.findSplitOrder map order current pOffset).1 < maxOrder ∧
        map.freeArea (Page.findSplitOrder map order current pOffset).1
          (Page.findSplitOrder map order current pOffset).2 = false := by
  fun_induction Page.findSplitOrder map order current pOffset with
  | case1 current pOffset hlt hfree => exact .inr ⟨hcurrent, hlt, hfree⟩
  | case2 current pOffset hlt hset ih => exact ih (by omega)
  | case3 current pOffset hge => exact .inl rfl

end

section

variable {place : Place} {origin : Memory} {stored : Region StoredMap}
  {region : Region} {order offset : Nat}

theorem Place.Mirrors.afterReserve
    (hmirrors : place.Mirrors origin stored region) {map : StoredMap}
    {other : BpaMap} (hkeeps : place.Keeps origin map other) :
    place.Mirrors origin (stored.afterReserve order map)
      (region.afterReserve order other) := by
  rw [hmirrors.1]
  exact ⟨rfl, hkeeps⟩

theorem Place.Mirrors.pagesReserve
    (hmirrors : place.Mirrors origin stored region)
    (hbit : place.InBitmap order offset)
    (hclimbs : region.map.freeArea order offset = true →
      place.Climbs region.map order offset) :
    Simulates (place.Replies origin) (Stored.pagesReserve stored order offset)
      (Page.pagesReserve region order offset) := by
  have horder := hbit.1
  unfold Stored.pagesReserve Page.pagesReserve
  rcases hmirrors.lock.cases with
    ⟨fault, hfirst, hsecond⟩ | ⟨held, other, hfirst, hsecond, hheld⟩
  · rw [hfirst, hsecond]
    rfl
  · have hmap : other.map = region.map := by
      unfold spinlockLock at hsecond
      split at hsecond <;> cases hsecond
      rfl
    rw [hfirst, hsecond]
    have hcheck := hheld.2.bit_eq order offset hbit
    simp only [hheld.start_eq]
    by_cases hfree : other.map.blockCheck order offset = false
    · rw [if_pos (hcheck.trans hfree), if_pos hfree]
      have hlt := hheld.2.padded.clear_lt order horder offset hfree
      exact ⟨rfl, hheld.afterReserve (hheld.2.reserveBlock horder hlt)⟩
    · rw [if_neg (fun hclear => hfree (hcheck.symm.trans hclear)),
        if_neg hfree]
      have hclimbs := hclimbs (by rw [← hmap]; simpa using hfree)
      have hfind : Stored.findSplitOrder held.map order (order + 1)
          (offset / 2 * 2) =
            Page.findSplitOrder other.map order (order + 1)
              (offset / 2 * 2) := by
        refine hheld.2.findSplitOrder
          (show order + 1 + (maxOrder - (order + 1)) = maxOrder by omega)
          fun top htop hlt hset => ?_
        have hshift : ∀ above, order + 1 ≤ above →
            offset / 2 * 2 / 2 ^ (above + 1 - (order + 1)) =
              offset / 2 ^ (above - order) := by
          intro above habove
          rw [even_div offset (by omega), Nat.add_sub_add_right]
        rw [hshift top htop]
        refine hclimbs top htop hlt fun above habove hbelow => ?_
        rw [← hshift above habove, ← hmap]
        exact hset above habove hbelow
      rw [hfind]
      have hcases := @findSplitOrder_cases other.map order (order + 1)
        (offset / 2 * 2) (by omega)
      generalize Page.findSplitOrder other.map order (order + 1)
        (offset / 2 * 2) = split at *
      have hdown : place.Keeps origin
          (Stored.splitDown held.map order split.1 split.2)
          (Page.splitDown other.map order split.1 split.2) := by
        refine hheld.2.splitDown (by omega) fun hlt => ?_
        rcases hcases with hsame | ⟨-, -, hclear⟩
        · omega
        · exact hclear
      generalize Stored.splitDown held.map order split.1 split.2 = down at *
      generalize Page.splitDown other.map order split.1 split.2 = opened at *
      have hafter := hdown.bit_eq order offset hbit
      have hlast : place.Keeps origin
          (if down.blockCheck order offset = false then
            Stored.reserveBlock down order offset else down)
          (if opened.blockCheck order offset = false then
            Page.reserveBlock opened order offset else opened) := by
        refine .ite (by rw [hafter, blockCheck_eq]) ?_ fun _ => hdown
        exact fun hclear => hdown.reserveBlock horder
          (hdown.padded.clear_lt order horder offset hclear)
      exact ⟨rfl, hheld.afterReserve hlast⟩

end

end Synos.Stored

import Synos.Page.Region
import Mathlib.Algebra.Order.SuccPred
import Mathlib.Data.Nat.SuccPred

namespace Synos.Page

open Synos.Data

/-! Setting up a region: the pages are partitioned into blocks of the top order
and one block for each lower bit of the page count. -/

def blocksClear (map : BpaMap) (order start : Nat) : Nat → BpaMap
  | 0 => map
  | length + 1 => blocksClear (map.blockClear order start) order (start + 1) length

def orderMaxFrom (pages order : Nat) : Nat :=
  if order < maxOrder then
    if pages % 2 = 1 then order else orderMaxFrom (pages / 2) (order + 1)
  else
    maxOrder - 1
termination_by maxOrder - order

def orderMax (pages : Nat) : Nat := orderMaxFrom pages 0

theorem orderMaxFrom_shift (pages shift order : Nat)
    (hbound : order + shift ≤ maxOrder) :
    orderMaxFrom (pages * 2 ^ shift) order =
      orderMaxFrom pages (order + shift) := by
  induction shift generalizing order with
  | zero => simp
  | succ shift ih =>
      have hhalf : pages * 2 ^ (shift + 1) / 2 = pages * 2 ^ shift := by
        rw [pow_succ, ← Nat.mul_assoc]
        omega
      have heven : pages * 2 ^ (shift + 1) % 2 = 0 := by
        rw [pow_succ, ← Nat.mul_assoc]
        omega
      rw [orderMaxFrom, if_pos (by omega), if_neg (by omega), hhalf,
        ih _ (by omega)]
      congr 1
      omega

theorem orderMax_of_odd {pages shift : Nat} (hodd : pages % 2 = 1)
    (hshift : shift < maxOrder) : orderMax (pages * 2 ^ shift) = shift := by
  rw [orderMax, orderMaxFrom_shift _ _ _ (by omega), Nat.zero_add,
    orderMaxFrom, if_pos hshift, if_pos hodd]

theorem orderMax_top (pages : Nat) :
    orderMax (pages * 2 ^ (maxOrder - 1)) = maxOrder - 1 := by
  rw [orderMax, orderMaxFrom_shift _ _ _ (by decide), Nat.zero_add,
    orderMaxFrom, if_pos (by decide)]
  split
  · rfl
  · rw [orderMaxFrom, if_neg (by decide)]

theorem pos_of_orderMax {pages : Nat} (h : orderMax pages ≠ maxOrder - 1) :
    0 < pages := by
  by_contra hzero
  have hpages : pages = 0 * 2 ^ (maxOrder - 1) := by omega
  rw [hpages, orderMax_top] at h
  exact h rfl

/-- `pages` is the number of leading pages that no block has been made of yet. -/
def freeAreaMap (map : BpaMap) (pages : Nat) : BpaMap :=
  let order := orderMax pages
  if _hlow : orderMax pages ≠ maxOrder - 1 then
    if freeAreaLength map.pages (order + 1) = 0 then
      let map := map.setPagesFree order (freeAreaLength pages order)
      blocksClear map order 0 (map.pagesFree order)
    else
      let map := map.setNextFreePage order (freeAreaLength pages order - 1)
      let map := map.blockClear order (map.nextFreePage order)
      let map := map.setPagesFree order (map.pagesFree order + 1)
      freeAreaMap map (pages - 2 ^ order)
  else
    let map := map.setPagesFree order (freeAreaLength pages order)
    blocksClear map order 0 (map.pagesFree order)
termination_by pages
decreasing_by
  have := pos_of_orderMax _hlow
  have := Nat.two_pow_pos (orderMax pages)
  omega

/-- Every bit set and every counter zero. The `memset` reaches the bits inside the
table only; here those behind it are ones as well. -/
def blankMap (pages : Nat) : BpaMap where
  pages := pages
  freeArea := fun _ _ => true
  pagesFree := fun _ => 0
  nextFreePage := fun _ => 0

def regionMap (region : Region) (pages : Nat) : Except Fault Region :=
  match spinlockLock region with
  | .error fault => .error fault
  | .ok region =>
      .ok (spinlockUnlock
        { region with
          map := freeAreaMap (blankMap pages) pages
          pagesTotal := pages
          pagesFree := pages
          memFull := false })

/-! The partition that the loop computes. -/

/-- Whether block `index` of order `order` is a block of the partition. -/
def inPartition (pages order index : Nat) : Bool :=
  if order = maxOrder - 1 then
    decide (index < pages / 2 ^ order)
  else
    decide (order < maxOrder ∧ pages / 2 ^ order % 2 = 1 ∧
      index + 1 = pages / 2 ^ order)

/-- The map once the orders below `limit` have been dealt with. -/
def partitionMap (pages limit : Nat) : BpaMap where
  pages := pages
  freeArea := fun order index =>
    !(decide (order < limit) && inPartition pages order index)
  pagesFree := fun order =>
    if order < limit then
      if order = maxOrder - 1 then pages / 2 ^ order
      else if order < maxOrder then pages / 2 ^ order % 2
      else 0
    else 0
  nextFreePage := fun order =>
    if order < limit ∧ order < maxOrder - 1 ∧ pages / 2 ^ order % 2 = 1 then
      pages / 2 ^ order - 1
    else 0

theorem partitionMap_zero (pages : Nat) :
    partitionMap pages 0 = blankMap pages := by
  simp [partitionMap, blankMap]

theorem blocksClear_eq (map : BpaMap) (order start length : Nat) :
    blocksClear map order start length =
      { map with
        freeArea := Function.update map.freeArea order fun index =>
          map.freeArea order index &&
            !decide (start ≤ index ∧ index < start + length) } := by
  induction length generalizing map start with
  | zero =>
      have hnone : ∀ index, ¬ (start ≤ index ∧ index < start + 0) := by omega
      simp only [blocksClear, hnone, decide_false, Bool.not_false,
        Bool.and_true, Function.update_eq_self]
  | succ length ih =>
      rw [blocksClear, ih]
      ext1
      · rfl
      · simp only [BpaMap.writeBlock, Function.update_self,
          Function.update_idem]
        congr 1
        funext index
        by_cases heq : index = start
        · subst heq
          simp
        · rw [Function.update_of_ne heq]
          congr 2
          simp only [decide_eq_decide]
          omega
      · rfl
      · rfl

theorem inPartition_top (pages index : Nat) :
    inPartition pages (maxOrder - 1) index =
      decide (index < pages / 2 ^ (maxOrder - 1)) :=
  if_pos rfl

theorem inPartition_low {pages order index : Nat} (hlow : order < maxOrder - 1) :
    inPartition pages order index =
      decide (pages / 2 ^ order % 2 = 1 ∧ index + 1 = pages / 2 ^ order) := by
  have hlt : order < maxOrder := by omega
  simp [inPartition, Nat.ne_of_lt hlow, hlt]

theorem partitionMap_succ_of_even {pages limit : Nat}
    (hlimit : limit < maxOrder - 1) (heven : pages / 2 ^ limit % 2 = 0) :
    partitionMap pages (limit + 1) = partitionMap pages limit := by
  have hsucc : ∀ order, order ≠ limit → (order ≤ limit ↔ order < limit) := by
    omega
  ext order index
  · rfl
  · by_cases heq : order = limit
    · subst heq
      simp [partitionMap, inPartition_low hlimit, heven]
    · simp [partitionMap, hsucc order heq]
  · by_cases heq : order = limit
    · subst heq
      simp [partitionMap, heven, Nat.ne_of_lt hlimit]
    · simp [partitionMap, hsucc order heq]
  · by_cases heq : order = limit
    · subst heq
      simp [partitionMap, heven]
    · simp [partitionMap, hsucc order heq]

theorem partitionMap_succ_of_odd {pages limit : Nat}
    (hlimit : limit < maxOrder - 1) (hodd : pages / 2 ^ limit % 2 = 1) :
    partitionMap pages (limit + 1) =
      (((partitionMap pages limit).setNextFreePage limit
          (pages / 2 ^ limit - 1)).blockClear limit
        (pages / 2 ^ limit - 1)).setPagesFree limit 1 := by
  have hsucc : ∀ order, order ≠ limit → (order ≤ limit ↔ order < limit) := by
    omega
  ext order index
  · rfl
  · rw [setPagesFree_freeArea]
    have hwrite := writeBlock_freeArea ((partitionMap pages limit).setNextFreePage
      limit (pages / 2 ^ limit - 1)) limit (pages / 2 ^ limit - 1) false
      ⟨order, index⟩
    simp only at hwrite
    rw [hwrite, setNextFreePage_freeArea]
    by_cases heq : order = limit
    · subst heq
      have hiff : ∀ count, count % 2 = 1 →
          (index + 1 = count ↔ index = count - 1) := by omega
      simp [partitionMap, inPartition_low hlimit, hodd, hiff _ hodd]
    · simp [partitionMap, hsucc order heq, heq]
  · by_cases heq : order = limit
    · subst heq
      have hlt : order < maxOrder := by omega
      simp [partitionMap, hodd, Nat.ne_of_lt hlimit, hlt]
    · simp [partitionMap, hsucc order heq, heq]
  · by_cases heq : order = limit
    · subst heq
      simp [partitionMap, hodd, hlimit]
    · simp [partitionMap, hsucc order heq, heq]

theorem partitionMap_top (pages : Nat) :
    partitionMap pages maxOrder =
      blocksClear ((partitionMap pages (maxOrder - 1)).setPagesFree (maxOrder - 1)
        (pages / 2 ^ (maxOrder - 1))) (maxOrder - 1) 0
        (pages / 2 ^ (maxOrder - 1)) := by
  have hsucc : ∀ order, order ≠ maxOrder - 1 →
      (order < maxOrder ↔ order < maxOrder - 1) := by
    simp only [maxOrder]
    omega
  rw [blocksClear_eq]
  ext order index
  · rfl
  · by_cases heq : order = maxOrder - 1
    · subst heq
      have htop := inPartition_top pages index
      simp only [maxOrder] at htop
      simp only [partitionMap, maxOrder, htop]
      simp only [setPagesFree_freeArea, Function.update_self]
      simp only [Bool.true_and, Nat.lt_irrefl, decide_false,
        Bool.false_and, Bool.not_false, Nat.zero_le, true_and, Nat.zero_add]
      exact congrArg _ (decide_eq_decide.mpr Iff.rfl)
    · simp [partitionMap, hsucc order heq, heq]
  · by_cases heq : order = maxOrder - 1
    · subst heq
      simp [partitionMap, maxOrder]
    · simp [partitionMap, hsucc order heq, heq]
  · simp only [partitionMap, setPagesFree_nextFreePage]
    by_cases heq : order = maxOrder - 1
    · subst heq
      simp [maxOrder]
    · simp [hsucc order heq]

/-! The three ways through one iteration of the loop. -/

theorem freeAreaMap_of_top (map : BpaMap) {pages : Nat}
    (horder : orderMax pages = maxOrder - 1) :
    freeAreaMap map pages =
      blocksClear (map.setPagesFree (maxOrder - 1)
        (freeAreaLength pages (maxOrder - 1))) (maxOrder - 1) 0
        (freeAreaLength pages (maxOrder - 1)) := by
  rw [freeAreaMap, dif_neg (not_not.mpr horder), horder]
  simp

theorem freeAreaMap_of_last (map : BpaMap) {pages order : Nat}
    (horder : orderMax pages = order) (hlow : order ≠ maxOrder - 1)
    (hlast : freeAreaLength map.pages (order + 1) = 0) :
    freeAreaMap map pages =
      blocksClear (map.setPagesFree order (freeAreaLength pages order)) order 0
        (freeAreaLength pages order) := by
  rw [freeAreaMap, dif_pos (horder ▸ hlow), horder, if_pos hlast]
  simp

theorem freeAreaMap_of_next (map : BpaMap) {pages order : Nat}
    (horder : orderMax pages = order) (hlow : order ≠ maxOrder - 1)
    (hnext : freeAreaLength map.pages (order + 1) ≠ 0) :
    freeAreaMap map pages =
      freeAreaMap (((map.setNextFreePage order
          (freeAreaLength pages order - 1)).blockClear order
          (freeAreaLength pages order - 1)).setPagesFree order
          (map.pagesFree order + 1)) (pages - 2 ^ order) := by
  rw [freeAreaMap, dif_pos (horder ▸ hlow), horder, if_neg hnext]
  simp

theorem partitionMap_of_last {pages limit : Nat}
    (hlimit : limit < maxOrder) (hlast : pages / 2 ^ limit = 0) :
    partitionMap pages limit = partitionMap pages maxOrder := by
  have hzero : ∀ order, limit ≤ order → pages / 2 ^ order = 0 := by
    intro order hle
    have hdiv : pages / 2 ^ order ≤ pages / 2 ^ limit :=
      Nat.div_le_div_left (Nat.pow_le_pow_right (by decide) hle)
        (Nat.two_pow_pos limit)
    exact Nat.eq_zero_of_le_zero (hlast ▸ hdiv)
  have hnone : ∀ order index, limit ≤ order →
      inPartition pages order index = false := by
    intro order index hle
    simp [inPartition, hzero order hle]
  ext order index
  · rfl
  · by_cases hlt : order < limit
    · have hltMax : order < maxOrder := by omega
      simp [partitionMap, hlt, hltMax]
    · simp [partitionMap, hlt, hnone order index (by omega)]
  · by_cases hlt : order < limit
    · have hltMax : order < maxOrder := by omega
      simp [partitionMap, hlt, hltMax]
    · simp [partitionMap, hlt, hzero order (by omega)]
  · by_cases hlt : order < limit
    · have hltMax : order < maxOrder := by omega
      simp [partitionMap, hlt, hltMax]
    · simp [partitionMap, hlt, hzero order (by omega)]

theorem freeAreaMap_partitionMap (pages : Nat) {depth limit : Nat}
    (hdepth : limit + depth = maxOrder - 1) :
    freeAreaMap (partitionMap pages limit)
        (pages / 2 ^ limit * 2 ^ limit) =
      partitionMap pages maxOrder := by
  induction depth generalizing limit with
  | zero =>
      have heq : limit = maxOrder - 1 := by omega
      subst heq
      rw [freeAreaMap_of_top _ (orderMax_top _), partitionMap_top,
        freeAreaLength_eq, Nat.mul_div_cancel _ (Nat.two_pow_pos _)]
  | succ depth ih =>
      have hlimit : limit < maxOrder - 1 := by omega
      have hnext := ih (show limit + 1 + depth = maxOrder - 1 by omega)
      have hdiv : pages / 2 ^ (limit + 1) = pages / 2 ^ limit / 2 := by
        rw [pow_succ, Nat.div_div_eq_div_mul]
      generalize hcount : pages / 2 ^ limit = count at *
      have hlength : freeAreaLength (count * 2 ^ limit) limit = count := by
        rw [freeAreaLength_eq, Nat.mul_div_cancel _ (Nat.two_pow_pos limit)]
      rcases Nat.mod_two_eq_zero_or_one count with heven | hodd
      · have hsame : pages / 2 ^ (limit + 1) * 2 ^ (limit + 1) =
            count * 2 ^ limit := by
          rw [hdiv, pow_succ, Nat.mul_comm (2 ^ limit) 2, ← Nat.mul_assoc]
          congr 1
          omega
        rw [← hnext, hsame,
          partitionMap_succ_of_even hlimit (hcount ▸ heven)]
      · have horder : orderMax (count * 2 ^ limit) = limit :=
          orderMax_of_odd hodd (by omega)
        have hsucc := partitionMap_succ_of_odd hlimit (hcount ▸ hodd)
        rw [hcount] at hsucc
        by_cases hlast : pages / 2 ^ (limit + 1) = 0
        · have hone : count = 1 := by omega
          have hhint : (partitionMap pages limit).setNextFreePage limit 0 =
              partitionMap pages limit := by
            ext1 <;> simp [partitionMap]
          subst hone
          rw [freeAreaMap_of_last _ horder (by omega)
              (by rw [freeAreaLength_eq]; exact hlast), hlength,
            ← partitionMap_of_last (by omega) hlast, hsucc, hhint]
          rfl
        · have hrest : count * 2 ^ limit - 2 ^ limit =
              pages / 2 ^ (limit + 1) * 2 ^ (limit + 1) := by
            rw [hdiv, pow_succ, Nat.mul_comm (2 ^ limit) 2, ← Nat.mul_assoc,
              ← Nat.sub_one_mul]
            congr 1
            omega
          have hzero : (partitionMap pages limit).pagesFree limit = 0 := by
            simp [partitionMap]
          rw [freeAreaMap_of_next _ horder (by omega)
              (by rw [freeAreaLength_eq]; exact hlast), hlength, hrest,
            hzero, ← hnext, hsucc]

theorem regionMap_eq (region : Region) (pages : Nat)
    (hlock : region.lock = false) :
    regionMap region pages = .ok
      { region with
        map := partitionMap pages maxOrder
        pagesTotal := pages
        pagesFree := pages
        memFull := false } := by
  have hmap := freeAreaMap_partitionMap pages
    (show 0 + (maxOrder - 1) = maxOrder - 1 by decide)
  rw [pow_zero, Nat.div_one, Nat.mul_one, partitionMap_zero] at hmap
  simp [regionMap, spinlockLock, spinlockUnlock, hlock, hmap]

/-! The partition is exact: well formed, coalesced, and covering every page. -/

theorem partitionMap_slots_sound {pages : Nat} {order : Nat}
    (horder : order < maxOrder) :
    ((partitionMap pages maxOrder).slots order).Sound := by
  by_cases htop : order = maxOrder - 1
  · subst htop
    refine ⟨⟨?_, ?_⟩, ?_, ?_⟩
    · simp only [BpaMap.slots, partitionMap, freeAreaLength_eq, horder,
        inPartition_top, clearCount, if_true]
      symm
      apply Nat.count_of_forall
      intro slot hslot
      simp [hslot]
    · intro slot hslot
      simp only [BpaMap.slots, partitionMap, freeAreaLength_eq,
        inPartition_top] at *
      simp [Nat.not_lt_of_le hslot]
    · intro hpos
      simp only [BpaMap.slots, partitionMap, inPartition_top, horder,
        if_true] at *
      simp [hpos]
    · intro _ slot hslot
      simp [BpaMap.slots, partitionMap] at hslot
  · have hlow : order < maxOrder - 1 := by omega
    have hslots : (partitionMap pages maxOrder).slots order =
        ⟨fun index => !decide (pages / 2 ^ order % 2 = 1 ∧
            index + 1 = pages / 2 ^ order), pages / 2 ^ order,
          pages / 2 ^ order % 2,
          if pages / 2 ^ order % 2 = 1 then pages / 2 ^ order - 1 else 0⟩ := by
      simp [BpaMap.slots, partitionMap, freeAreaLength_eq, horder, htop, hlow,
        inPartition_low hlow]
    rw [hslots]
    have hempty : FreeSlots.Sound ⟨fun _ => true, pages / 2 ^ order, 0, 0⟩ := by
      refine ⟨⟨?_, fun _ _ => rfl⟩, ?_, ?_⟩
      · exact (clearCount_eq_zero.mpr fun _ _ => rfl).symm
      · intro hpos
        cases hpos
      · intro hpos
        cases hpos
    generalize pages / 2 ^ order = count at *
    rcases Nat.mod_two_eq_zero_or_one count with heven | hodd
    · simpa [heven] using hempty
    · have hrelease := hempty.release rfl (show count - 1 < count by omega)
        (Nat.le_refl _) (.inl rfl) (fun hpos => by cases hpos)
      have hbits : Function.update (fun _ => true) (count - 1) false =
          fun index => !decide (count % 2 = 1 ∧ index + 1 = count) := by
        funext index
        by_cases heq : index = count - 1
        · subst heq
          have hlast : count - 1 + 1 = count := by omega
          simp [hodd, hlast]
        · have hlast : ¬ index + 1 = count := by omega
          simp [heq, hlast]
      rw [hbits] at hrelease
      simpa [hodd] using hrelease

theorem mem_partitionMap_free {pages : Nat} {block : Block} :
    block ∈ (partitionMap pages maxOrder).free ↔
      block.order < maxOrder ∧
        inPartition pages block.order block.index = true := by
  rw [BpaMap.mem_free]
  constructor
  · rintro ⟨hlt, hclear⟩
    exact ⟨hlt, by simpa [partitionMap, hlt] using hclear⟩
  · rintro ⟨hlt, hin⟩
    exact ⟨hlt, by simp [partitionMap, hlt, hin]⟩

/-- A block of the partition lies between two neighbouring roundings of the
page count. -/
theorem inPartition_bounds {pages point : Nat} {block : Block}
    (hin : inPartition pages block.order block.index = true)
    (hpoint : point ∈ block) :
    point < pages / 2 ^ block.order * 2 ^ block.order ∧
      (block.order < maxOrder - 1 →
        pages / 2 ^ (block.order + 1) * 2 ^ (block.order + 1) ≤ point) := by
  rw [Block.mem_iff, Block.first] at hpoint
  by_cases htop : block.order = maxOrder - 1
  · rw [htop, inPartition_top] at hin
    refine ⟨?_, fun hlow => by omega⟩
    have hindex : block.index + 1 ≤ pages / 2 ^ block.order := by
      rw [htop]
      exact Nat.succ_le_of_lt (by simpa using hin)
    have := Nat.mul_le_mul_right (2 ^ block.order) hindex
    rw [Nat.add_mul] at this
    omega
  · have hlow : block.order < maxOrder - 1 := by
      by_contra hge
      simp [inPartition, htop, show ¬ block.order < maxOrder by omega] at hin
    rw [inPartition_low hlow] at hin
    have hin : pages / 2 ^ block.order % 2 = 1 ∧
        block.index + 1 = pages / 2 ^ block.order := by
      simpa using hin
    obtain ⟨hodd, hindex⟩ := hin
    have hdiv : pages / 2 ^ (block.order + 1) =
        pages / 2 ^ block.order / 2 := by
      rw [pow_succ, Nat.div_div_eq_div_mul]
    rw [← hindex] at hodd
    refine ⟨?_, fun _ => ?_⟩
    · rw [← hindex, Nat.add_mul, Nat.one_mul]
      exact hpoint.2
    · have heven : (block.index + 1) / 2 * 2 = block.index := by omega
      rw [hdiv, ← hindex, pow_succ, Nat.mul_comm (2 ^ block.order) 2,
        ← Nat.mul_assoc, heven]
      exact hpoint.1

theorem rounding_antitone (pages : Nat) {low high : Nat} (hle : low ≤ high) :
    pages / 2 ^ high * 2 ^ high ≤ pages / 2 ^ low * 2 ^ low := by
  have hpow : 2 ^ high = 2 ^ low * 2 ^ (high - low) := by
    rw [← pow_add, Nat.add_sub_cancel' hle]
  rw [hpow, ← Nat.div_div_eq_div_mul, Nat.mul_comm (2 ^ low), ← Nat.mul_assoc]
  exact Nat.mul_le_mul_right _ (Nat.div_mul_le_self _ _)

theorem partitionMap_apart (pages : Nat) :
    (partitionMap pages maxOrder).free.Apart := by
  have hdistinct : ∀ low high : Block, ∀ point,
      low ∈ (partitionMap pages maxOrder).free →
      high ∈ (partitionMap pages maxOrder).free →
      point ∈ low → point ∈ high → ¬ low.order < high.order := by
    intro low high point hlow hhigh hpointLow hpointHigh hlt
    rw [mem_partitionMap_free] at hlow hhigh
    have hbelow := (inPartition_bounds hlow.2 hpointLow).2 (by
      have := hhigh.1
      omega)
    have habove := (inPartition_bounds hhigh.2 hpointHigh).1
    have := rounding_antitone pages (show low.order + 1 ≤ high.order from hlt)
    omega
  intro first hfirst second hsecond point hp hq
  refine Block.mem_unique hp hq ?_
  have := hdistinct first second point hfirst hsecond hp hq
  have := hdistinct second first point hsecond hfirst hq hp
  omega

theorem partitionMap_covers_tail {pages point limit : Nat}
    (hlimit : limit ≤ maxOrder - 1) (hlt : point < pages)
    (hle : pages / 2 ^ limit * 2 ^ limit ≤ point) :
    (partitionMap pages maxOrder).free.Covers point := by
  induction limit with
  | zero =>
      rw [pow_zero, Nat.div_one, Nat.mul_one] at hle
      omega
  | succ limit ih =>
      by_cases hnext : pages / 2 ^ limit * 2 ^ limit ≤ point
      · exact ih (by omega) hnext
      · have hlow : limit < maxOrder - 1 := by omega
        have hdiv : pages / 2 ^ (limit + 1) = pages / 2 ^ limit / 2 := by
          rw [pow_succ, Nat.div_div_eq_div_mul]
        rw [hdiv, pow_succ, Nat.mul_comm (2 ^ limit) 2, ← Nat.mul_assoc] at hle
        have hpoint : point / 2 ^ limit < pages / 2 ^ limit := by
          rw [Nat.div_lt_iff_lt_mul (Nat.two_pow_pos limit)]
          omega
        have hbase : pages / 2 ^ limit / 2 * 2 ≤ point / 2 ^ limit :=
          (Nat.le_div_iff_mul_le (Nat.two_pow_pos limit)).mpr hle
        refine ⟨⟨limit, point / 2 ^ limit⟩, ?_, Block.mem_def.mpr rfl⟩
        rw [mem_partitionMap_free, inPartition_low hlow]
        generalize pages / 2 ^ limit = count at *
        generalize point / 2 ^ limit = index at *
        refine ⟨by simp only; omega, ?_⟩
        rw [decide_eq_true_eq]
        simp only
        omega

/-- The free blocks of a fresh region cover exactly its pages. -/
theorem partitionMap_covers {pages point : Nat} :
    (partitionMap pages maxOrder).free.Covers point ↔ point < pages := by
  constructor
  · rintro ⟨block, hfree, hpoint⟩
    rw [mem_partitionMap_free] at hfree
    have := (inPartition_bounds hfree.2 hpoint).1
    have := Nat.div_mul_le_self pages (2 ^ block.order)
    omega
  · intro hlt
    by_cases hle : pages / 2 ^ (maxOrder - 1) * 2 ^ (maxOrder - 1) ≤ point
    · exact partitionMap_covers_tail (Nat.le_refl _) hlt hle
    · refine ⟨⟨maxOrder - 1, point / 2 ^ (maxOrder - 1)⟩, ?_,
        Block.mem_def.mpr rfl⟩
      rw [mem_partitionMap_free, inPartition_top, decide_eq_true_eq,
        Nat.div_lt_iff_lt_mul (Nat.two_pow_pos _)]
      exact ⟨by simp [maxOrder], by omega⟩

theorem partitionMap_wellFormed {pages : Nat} (hpages : pages < wordSize) :
    (partitionMap pages maxOrder).WellFormed where
  pages_lt := hpages
  slots_sound := fun _ horder => partitionMap_slots_sound horder
  apart := partitionMap_apart pages

theorem partitionMap_coalesced (pages : Nat) :
    (partitionMap pages maxOrder).free.Coalesced (maxOrder - 1) := by
  rintro block horder ⟨hleft, hright, hpos⟩
  rw [mem_partitionMap_free] at hleft hright
  have hlow : block.order - 1 < maxOrder - 1 := by omega
  have hl := hleft.2
  have hr := hright.2
  simp only [Block.left, Block.right, inPartition_low hlow,
    decide_eq_true_eq] at hl hr
  omega

/-- With every bit set no page is free, and the map is already consistent. -/
theorem blankMap_wellFormed {pages : Nat} (hpages : pages < wordSize) :
    (blankMap pages).WellFormed where
  pages_lt := hpages
  slots_sound := by
    intro order _
    refine ⟨⟨?_, fun _ _ => rfl⟩, ?_, ?_⟩
    · exact (clearCount_eq_zero.mpr fun _ _ => rfl).symm
    · intro hpos
      cases hpos
    · intro hpos
      cases hpos
  apart := by
    intro block hfree
    cases hfree.2

theorem blankMap_not_covers (pages point : Nat) :
    ¬ (blankMap pages).free.Covers point := by
  intro hcovers
  obtain ⟨block, hfree, -⟩ := hcovers
  cases hfree.2

end Synos.Page

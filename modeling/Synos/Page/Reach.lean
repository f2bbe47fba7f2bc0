import Synos.Page.Balance
import Synos.Page.Reserve

namespace Synos.Page

open Synos.Data

/-! The descent of `pages_reserve` from any free block of a well-formed map: what
every order looks like on the way, and when its hint still names the lowest free
block. -/

/-! One split, order by order. -/

section

variable {map : BpaMap} {order offset : Nat}

theorem zfreeHalves_slots_self (map : BpaMap) (offset : Nat)
    (hzero : 0 < order) :
    (zfreeHalves map order offset).slots order =
      { map.slots order with
        bits := Function.update (map.freeArea order) offset true } := by
  have hne : order ≠ order - 1 := by omega
  have hrest := zfreeHalves_of_ne map offset hne
  simp only [BpaMap.slots, zfreeHalves_pages, zfreeHalves_freeArea, hrest]
  rw [writeBlock_freeArea_of_ne _ _ _ _ hne,
    writeBlock_freeArea_of_ne _ _ _ _ hne, writeBlock_freeArea_self]

theorem zsplitBlock_slots_pred (map : BpaMap) (offset : Nat)
    (hzero : 0 < order) :
    (zsplitBlock map order offset).slots (order - 1) =
      ⟨Function.update (Function.update (map.freeArea (order - 1))
          (offset * 2) false) (offset * 2 + 1) false,
        freeAreaLength map.pages (order - 1),
        wordAdd (map.pagesFree (order - 1)) 2,
        min (map.nextFreePage (order - 1)) (2 * map.nextFreePage order)⟩ := by
  have hne : order - 1 ≠ order := by omega
  have hrest := zsplitBlock_of_ne map offset hne
  have hbits : (zsplitBlock map order offset).freeArea (order - 1) =
      Function.update (Function.update (map.freeArea (order - 1))
        (offset * 2) false) (offset * 2 + 1) false := by
    rw [zsplitBlock_freeArea, zfreeHalves_freeArea, writeBlock_freeArea_self,
      writeBlock_freeArea_self, writeBlock_freeArea_of_ne _ _ _ _ hne]
  have hcount : (zfreeHalves map order offset).pagesFree (order - 1) =
      wordAdd (map.pagesFree (order - 1)) 2 := by
    unfold zfreeHalves
    simp only
    split <;> simp
  have hhint : (zfreeHalves map order offset).nextFreePage (order - 1) =
      min (map.nextFreePage (order - 1)) (2 * map.nextFreePage order) := by
    rw [zfreeHalves_hint]
    split <;> omega
  simp only [BpaMap.slots, zsplitBlock_pages, hbits, hrest, hcount, hhint]

theorem zsplitBlock_slots_of_ne (map : BpaMap) (offset : Nat) {other : Nat}
    (hne : other ≠ order) (hnePred : other ≠ order - 1) :
    (zsplitBlock map order offset).slots other = map.slots other := by
  have hcounts := zsplitBlock_counts_of_ne map offset hne hnePred
  have hbits : (zsplitBlock map order offset).freeArea other =
      map.freeArea other := by
    rw [zsplitBlock_freeArea, zfreeHalves_freeArea,
      writeBlock_freeArea_of_ne _ _ _ _ hnePred,
      writeBlock_freeArea_of_ne _ _ _ _ hnePred,
      writeBlock_freeArea_of_ne _ _ _ _ hne]
  simp only [BpaMap.slots, zsplitBlock_pages, hbits, hcounts]

theorem zsplitBlock_slots_of_last (hzero : 0 < order)
    (hlast : map.pagesFree order = 1) :
    (zsplitBlock map order offset).slots order =
      ⟨Function.update (map.freeArea order) offset true,
        freeAreaLength map.pages order, 0, 0⟩ := by
  have hself := zfreeHalves_slots_self map offset hzero
  have hcount : (zfreeHalves map order offset).pagesFree order = 1 :=
    (congrArg FreeSlots.count hself).trans hlast
  unfold zsplitBlock
  simp only [hcount, if_true, slots_setPagesFree_self,
    slots_setNextFreePage_self, hself]
  simp [BpaMap.slots, hcount, wordSub, word, wordSize]

theorem zsplitBlock_slots_of_other (hzero : 0 < order)
    (hcount : map.pagesFree order ≠ 1)
    (hhint : map.nextFreePage order ≠ offset) :
    (zsplitBlock map order offset).slots order =
      ⟨Function.update (map.freeArea order) offset true,
        freeAreaLength map.pages order, wordSub (map.pagesFree order) 1,
        map.nextFreePage order⟩ := by
  have hself := zfreeHalves_slots_self map offset hzero
  have hcountEq : (zfreeHalves map order offset).pagesFree order =
      map.pagesFree order := congrArg FreeSlots.count hself
  have hhintEq : (zfreeHalves map order offset).nextFreePage order =
      map.nextFreePage order := congrArg FreeSlots.hint hself
  unfold zsplitBlock
  simp only [hcountEq, hcount, if_false, hhintEq, hhint.symm,
    slots_setPagesFree_self, hself]
  rfl

theorem zsplitBlock_slots_of_hint (hzero : 0 < order)
    (hcount : map.pagesFree order ≠ 1)
    (hhint : map.nextFreePage order = offset) {next : Nat}
    (hsearch : firstClear? (Function.update (map.freeArea order) offset true)
      (offset + 1) (freeAreaLength map.pages order) = some next) :
    (zsplitBlock map order offset).slots order =
      ⟨Function.update (map.freeArea order) offset true,
        freeAreaLength map.pages order, wordSub (map.pagesFree order) 1,
        next⟩ := by
  have hself := zfreeHalves_slots_self map offset hzero
  have hbits : (zfreeHalves map order offset).freeArea order =
      Function.update (map.freeArea order) offset true :=
    congrArg FreeSlots.bits hself
  have hcountEq : (zfreeHalves map order offset).pagesFree order =
      map.pagesFree order := congrArg FreeSlots.count hself
  have hhintEq : (zfreeHalves map order offset).nextFreePage order =
      map.nextFreePage order := congrArg FreeSlots.hint hself
  rw [← hbits, ← zfreeHalves_pages map order offset] at hsearch
  unfold zsplitBlock
  simp only [hcountEq, hcount, if_false, hhintEq, hhint, if_true,
    searchNextFreePage_of_some hsearch, slots_setPagesFree_self,
    slots_setNextFreePage_self, hself, setNextFreePage_pagesFree]
  rfl

theorem zsplitBlock_slots_sound (hzero : 0 < order)
    (hsound : (map.slots order).Sound) (hlt : map.pagesFree order < wordSize)
    (hfree : map.freeArea order offset = false) :
    ((zsplitBlock map order offset).slots order).Sound := by
  have hclear : (map.slots order).bits offset = false := hfree
  have hpos : 0 < map.pagesFree order := hsound.count_pos hclear
  have hdec : wordSub (map.pagesFree order) 1 = map.pagesFree order - 1 :=
    wordSub_of_le hpos hlt
  by_cases hone : map.pagesFree order = 1
  · rw [zsplitBlock_slots_of_last hzero hone]
    have hlast := hsound.occupy_last 0 hclear hone
    simp only [BpaMap.slots, hone, Nat.sub_self] at hlast
    exact hlast
  · by_cases hhint : map.nextFreePage order = offset
    · subst hhint
      have hmore : 1 < map.pagesFree order := by omega
      obtain ⟨next, hsearch⟩ := hsound.exists_firstClear hmore
      rw [zsplitBlock_slots_of_hint hzero hone rfl hsearch, hdec]
      exact hsound.occupy_hint hpos hsearch
    · rw [zsplitBlock_slots_of_other hzero hone hhint, hdec]
      exact hsound.occupy_of_ne_hint hclear hhint

/-- An order to which the two halves of the block above have just been added. -/
def BpaMap.pairAdded (map : BpaMap) (order offset hint : Nat) : FreeSlots :=
  ⟨Function.update (Function.update (map.freeArea order) offset false)
      (offset + 1) false,
    freeAreaLength map.pages order, map.pagesFree order + 2, hint⟩

theorem update_pair_low (bits : Nat → Bool) {slot : Nat}
    (hset : bits slot = true) :
    Function.update (Function.update (Function.update bits slot false)
      (slot + 1) false) slot true = Function.update bits (slot + 1) false := by
  have hne : slot + 1 ≠ slot := by omega
  rw [Function.update_comm hne, Function.update_idem, ← hset,
    Function.update_eq_self]

theorem update_pair_high (bits : Nat → Bool) {slot : Nat}
    (hset : bits (slot + 1) = true) :
    Function.update (Function.update (Function.update bits slot false)
      (slot + 1) false) (slot + 1) true = Function.update bits slot false := by
  have hne : slot + 1 ≠ slot := by omega
  rw [Function.update_idem, Function.update_comm hne.symm, ← hset,
    Function.update_eq_self]

theorem firstClear?_self {bits : Nat → Bool} {start stop : Nat}
    (hlt : start < stop) (hclear : bits start = false) :
    firstClear? bits start stop = some start := by
  rw [firstClear?, if_pos hlt, if_neg (by simp [hclear])]

/-- Splitting the lower half again leaves the order sound just when its hint is
the lowest free block the halves make. -/
theorem zsplitBlock_slots_sound_iff {before : BpaMap} {hint : Nat}
    (hzero : 0 < order) (hslots : map.slots order =
      before.pairAdded order offset hint)
    (hsound : (before.slots order).Sound)
    (hlow : before.freeArea order offset = true)
    (hhigh : before.freeArea order (offset + 1) = true)
    (hlt : offset + 1 < freeAreaLength before.pages order)
    (hcount : before.pagesFree order + 2 < wordSize)
    (hle : hint ≤ offset) (hold : hint ≤ before.nextFreePage order) :
    ((zsplitBlock map order offset).slots order).Sound ↔
      hint = (before.slots order).lowestWith offset := by
  have hbits : map.freeArea order =
      (before.pairAdded order offset hint).bits :=
    congrArg FreeSlots.bits hslots
  have hlength : freeAreaLength map.pages order =
      freeAreaLength before.pages order := congrArg FreeSlots.length hslots
  have hcountEq : map.pagesFree order = before.pagesFree order + 2 :=
    congrArg FreeSlots.count hslots
  have hhintEq : map.nextFreePage order = hint :=
    congrArg FreeSlots.hint hslots
  have hdec : wordSub (map.pagesFree order) 1 =
      before.pagesFree order + 1 := by
    rw [hcountEq, wordSub_of_le (by omega) hcount]
    rfl
  have hupdate : Function.update (map.freeArea order) offset true =
      Function.update (before.freeArea order) (offset + 1) false := by
    rw [hbits]
    exact update_pair_low _ hlow
  have hresult : (zsplitBlock map order offset).slots order =
      ⟨Function.update (before.slots order).bits (offset + 1) false,
        (before.slots order).length, (before.slots order).count + 1,
        if hint = offset then offset + 1 else hint⟩ := by
    by_cases hself : hint = offset
    · rw [zsplitBlock_slots_of_hint hzero (by omega) (hhintEq.trans hself)
        (firstClear?_self (hlength ▸ hlt) (by
          rw [hupdate, Function.update_self])), hdec, hupdate, hlength,
        if_pos hself]
      rfl
    · rw [zsplitBlock_slots_of_other hzero (by omega) (hhintEq ▸ hself), hdec,
        hupdate, hlength, hhintEq, if_neg hself]
      rfl
  rw [hresult, hsound.release_iff hhigh hlt,
    hsound.lowestWith_succ_iff hlow hle hold]

end

/-! The whole descent. -/

/-- The hint of an order when the descent from `block` arrives there. -/
def BpaMap.hintAt (map : BpaMap) (block : Block) (order : Nat) : Nat :=
  if order < block.order then
    min (map.nextFreePage order) (2 * map.hintAt block (order + 1))
  else
    map.nextFreePage order
termination_by block.order - order

/-- The lowest free block of an order once the leftmost part of `block` is free
as well. -/
def BpaMap.lowestAt (map : BpaMap) (block : Block) (order : Nat) : Nat :=
  (map.slots order).lowestWith (block.leftmost order).index

/-- What has become of `map` when `block` has been split down to `order`. -/
structure Descends (map opened : BpaMap) (block : Block) (order : Nat) :
    Prop where
  pages_eq : opened.pages = map.pages
  free_eq : opened.free = map.free.opened block order
  below : ∀ other < order, opened.slots other = map.slots other
  current : opened.slots order =
    if order < block.order then
      map.pairAdded order (block.leftmost order).index (map.hintAt block order)
    else map.slots order
  above : ∀ other < maxOrder, order < other →
    ((opened.slots other).Sound ↔
      (other < block.order → map.hintAt block other = map.lowestAt block other))

section

variable {map opened : BpaMap} {block : Block} {order : Nat}

theorem BpaMap.hintAt_of_lt (horder : order < block.order) :
    map.hintAt block order =
      min (map.nextFreePage order) (2 * map.hintAt block (order + 1)) := by
  rw [BpaMap.hintAt, if_pos horder]

@[simp] theorem BpaMap.hintAt_self :
    map.hintAt block block.order = map.nextFreePage block.order := by
  rw [BpaMap.hintAt, if_neg (Nat.lt_irrefl _)]

theorem leftmost_succ_index (horder : order < block.order) :
    2 * (block.leftmost (order + 1)).index = (block.leftmost order).index :=
  congrArg Block.index (Block.leftmost_left horder)

theorem BpaMap.WellFormed.hintAt_le (hmap : map.WellFormed)
    (hfree : block ∈ map.free) {depth : Nat}
    (hdepth : order + depth = block.order) :
    map.hintAt block order ≤ (block.leftmost order).index := by
  induction depth generalizing order with
  | zero =>
      obtain rfl : order = block.order := hdepth
      rw [BpaMap.hintAt_self, Block.leftmost_self]
      exact (hmap.slots_sound _ hfree.1).hint_le hfree.2
  | succ depth ih =>
      have hnext := @ih (order + 1) (by omega)
      rw [BpaMap.hintAt_of_lt (by omega),
        ← leftmost_succ_index (show order < block.order by omega)]
      omega

theorem BpaMap.hintAt_le_hint (map : BpaMap) (block : Block) (order : Nat) :
    map.hintAt block order ≤ map.nextFreePage order := by
  rw [BpaMap.hintAt]
  split
  · exact Nat.min_le_left _ _
  · exact Nat.le_refl _

/-- Below a free block its two leftmost parts are marked in use, and there is
room to count them. -/
structure BpaMap.Room (map : BpaMap) (block : Block) (order : Nat) : Prop where
  low : map.freeArea order (block.leftmost order).index = true
  high : map.freeArea order ((block.leftmost order).index + 1) = true
  inside : (block.leftmost order).index + 1 < freeAreaLength map.pages order
  count_lt : map.pagesFree order + 2 < wordSize

theorem BpaMap.WellFormed.room (hmap : map.WellFormed)
    (hfree : block ∈ map.free) (horder : order < block.order) :
    map.Room block order := by
  have hpow := Nat.two_pow_pos order
  have hfirst : (block.leftmost order).index * 2 ^ order = block.first :=
    Block.leftmost_first block (Nat.le_of_lt horder)
  have hdouble : 2 ^ order * 2 ≤ 2 ^ block.order := by
    rw [← pow_succ]
    exact Nat.pow_le_pow_right (by decide) horder
  have hset : ∀ index, block.first ≤ index * 2 ^ order →
      index * 2 ^ order < block.first + 2 ^ block.order →
      map.freeArea order index = true := by
    intro index hge hlt
    have habove := (hmap.above hfree (Block.mem_iff.mpr ⟨hge, hlt⟩)).1 order
      horder
    rwa [Nat.mul_div_cancel _ hpow] at habove
  have hlow := hset _ (Nat.le_of_eq hfirst.symm) (by omega)
  have hhigh := hset ((block.leftmost order).index + 1)
    (by rw [Nat.add_mul]; omega) (by rw [Nat.add_mul]; omega)
  have hinside : (block.leftmost order).index + 1 <
      freeAreaLength map.pages order := by
    have hindex := Nat.succ_le_of_lt (hmap.index_lt hfree)
    rw [Nat.le_div_iff_mul_le (Nat.two_pow_pos _), Nat.succ_mul] at hindex
    rw [freeAreaLength_eq, Nat.lt_div_iff_mul_lt hpow]
    simp only [Block.first] at hfirst
    rw [Nat.add_mul]
    omega
  have hpair := (hmap.slots_sound order (by have := hfree.1; omega)).release_pair
    hlow hhigh hinside
  exact ⟨hlow, hhigh, hinside,
    Nat.lt_of_le_of_lt hpair.count_le (hmap.length_lt order)⟩

theorem Descends.start (hmap : map.WellFormed) (hfree : block ∈ map.free) :
    Descends map map block block.order := by
  refine ⟨rfl, (Family.opened_self hfree).symm, fun _ _ => rfl, ?_, ?_⟩
  · rw [if_neg (Nat.lt_irrefl _)]
  · intro other hother hgt
    have hsound := hmap.slots_sound other hother
    constructor
    · intro _ hlt
      omega
    · exact fun _ => hsound

theorem Descends.hint_eq (hdescends : Descends map opened block order)
    (hle : order ≤ block.order) :
    opened.nextFreePage order = map.hintAt block order := by
  have hcurrent := congrArg FreeSlots.hint hdescends.current
  rcases Nat.eq_or_lt_of_le hle with rfl | hlt
  · rw [if_neg (Nat.lt_irrefl _)] at hcurrent
    rw [BpaMap.hintAt_self]
    exact hcurrent
  · rw [if_pos hlt] at hcurrent
    exact hcurrent

theorem Descends.leftmost_free (hdescends : Descends map opened block order) :
    block.leftmost order ∈ opened.free := by
  rw [hdescends.free_eq]
  exact Family.leftmost_mem_opened

theorem Descends.split_sound_iff (hmap : map.WellFormed)
    (hfree : block ∈ map.free) (hzero : 0 < order) (hle : order ≤ block.order)
    (hdescends : Descends map opened block order) :
    ((zsplitBlock opened order (block.leftmost order).index).slots
        order).Sound ↔
      (order < block.order →
        map.hintAt block order = map.lowestAt block order) := by
  have hlt : order < maxOrder := Nat.lt_of_le_of_lt hle hfree.1
  have hsound := hmap.slots_sound order hlt
  have hcurrent := hdescends.current
  rcases Nat.eq_or_lt_of_le hle with rfl | hbelow
  · rw [if_neg (Nat.lt_irrefl _)] at hcurrent
    have hcount : opened.pagesFree block.order = map.pagesFree block.order :=
      congrArg FreeSlots.count hcurrent
    have hbound := hmap.count_lt hlt
    constructor
    · intro _ hirrefl
      omega
    · intro _
      apply zsplitBlock_slots_sound hzero
      · rw [hcurrent]
        exact hsound
      · omega
      · exact hdescends.leftmost_free.2
  · rw [if_pos hbelow] at hcurrent
    have hroom := hmap.room hfree hbelow
    rw [zsplitBlock_slots_sound_iff hzero hcurrent hsound hroom.low hroom.high
      hroom.inside hroom.count_lt
      (hmap.hintAt_le hfree (Nat.add_sub_cancel' hle))
      (map.hintAt_le_hint block order)]
    constructor
    · exact fun heq _ => heq
    · exact fun heq => heq hbelow

theorem Descends.step (hmap : map.WellFormed) (hfree : block ∈ map.free)
    (hlt : order < block.order)
    (hdescends : Descends map opened block (order + 1)) :
    Descends map
      (zblockSplit opened (order + 1) (block.leftmost (order + 1)).index)
      block order := by
  have htop : order + 1 < maxOrder := Nat.lt_of_le_of_lt hlt hfree.1
  have hleft := hdescends.leftmost_free
  have hroom := hmap.room hfree hlt
  rw [zblockSplit_of_free (Nat.succ_pos _) htop hleft.2]
  refine ⟨?_, ?_, ?_, ?_, ?_⟩
  · rw [zsplitBlock_pages]
    exact hdescends.pages_eq
  · rw [zsplitBlock_free _ htop, ← Family.opened_split hmap.apart hfree hlt,
      hdescends.free_eq]
    rfl
  · intro other hother
    rw [zsplitBlock_slots_of_ne _ _ (by omega) (by omega)]
    exact hdescends.below other (by omega)
  · have hpred := zsplitBlock_slots_pred opened
      (block.leftmost (order + 1)).index (Nat.succ_pos order)
    have hslots := hdescends.below order (Nat.lt_succ_self order)
    have hbits : opened.freeArea order = map.freeArea order :=
      congrArg FreeSlots.bits hslots
    have hlength : freeAreaLength opened.pages order =
        freeAreaLength map.pages order := congrArg FreeSlots.length hslots
    have hcount : opened.pagesFree order = map.pagesFree order :=
      congrArg FreeSlots.count hslots
    have hhint : opened.nextFreePage order = map.nextFreePage order :=
      congrArg FreeSlots.hint hslots
    rw [Nat.succ_sub_one] at hpred
    rw [hpred, if_pos hlt, hbits, hlength, hcount, hhint,
      wordAdd_of_lt hroom.count_lt, hdescends.hint_eq hlt,
      ← BpaMap.hintAt_of_lt hlt, Nat.mul_comm _ 2, leftmost_succ_index hlt]
    rfl
  · intro other hother hgt
    rcases Nat.eq_or_lt_of_le (Nat.succ_le_of_lt hgt) with heq | hlater
    · subst heq
      exact hdescends.split_sound_iff hmap hfree (Nat.succ_pos _) hlt
    · rw [zsplitBlock_slots_of_ne _ _ (by omega) (by omega)]
      exact hdescends.above other hother (by omega)

theorem splitDown_descends (hmap : map.WellFormed) (hfree : block ∈ map.free)
    (horder : order ≤ block.order) :
    Descends map (splitDown map order block.order block.index) block order :=
  @splitDown_rule block order (fun opened => Descends map opened block)
    (fun _ _ hlt hdescends => hdescends.step hmap hfree hlt) map
    (Descends.start hmap hfree) horder

/-- On the way from `block` down to `order` each hint, as the descent leaves it,
is the lowest free block of its order. -/
def BpaMap.Steers (map : BpaMap) (block : Block) (order : Nat) : Prop :=
  ∀ other, order ≤ other → other < block.order →
    min (map.nextFreePage other) (2 * map.lowestAt block (other + 1)) =
      map.lowestAt block other

theorem BpaMap.WellFormed.lowestAt_self (hmap : map.WellFormed)
    (hfree : block ∈ map.free) :
    map.lowestAt block block.order = map.nextFreePage block.order := by
  have hle := (hmap.slots_sound _ hfree.1).hint_le hfree.2
  have hpos := hmap.count_pos hfree
  rw [BpaMap.lowestAt, FreeSlots.lowestWith, Block.leftmost_self]
  change map.nextFreePage block.order ≤ block.index at hle
  by_cases hlt : map.nextFreePage block.order < block.index
  · exact if_pos ⟨hpos, hlt⟩
  · exact (if_neg (fun h => hlt h.2)).trans
      (Nat.le_antisymm (Nat.le_of_not_lt hlt) hle)

theorem BpaMap.Steers.hintAt_eq (hmap : map.WellFormed)
    (hfree : block ∈ map.free) (hsteers : map.Steers block order)
    {depth other : Nat} (hle : order ≤ other)
    (hdepth : other + depth = block.order) :
    map.hintAt block other = map.lowestAt block other := by
  induction depth generalizing other with
  | zero =>
      obtain rfl : other = block.order := hdepth
      rw [BpaMap.hintAt_self, hmap.lowestAt_self hfree]
  | succ depth ih =>
      have hlt : other < block.order := by omega
      rw [BpaMap.hintAt_of_lt hlt, ih (by omega) (by omega)]
      exact hsteers other hle hlt

theorem BpaMap.steers_iff (hmap : map.WellFormed) (hfree : block ∈ map.free) :
    (∀ other, order ≤ other → other < block.order →
        map.hintAt block other = map.lowestAt block other) ↔
      map.Steers block order := by
  constructor
  · intro hall other hle hlt
    have hnext : map.hintAt block (other + 1) =
        map.lowestAt block (other + 1) := by
      rcases Nat.eq_or_lt_of_le (Nat.succ_le_of_lt hlt) with heq | hbelow
      · rw [show other + 1 = block.order from heq, BpaMap.hintAt_self,
          hmap.lowestAt_self hfree]
      · exact hall (other + 1) (by omega) hbelow
    rw [← hnext, ← BpaMap.hintAt_of_lt hlt]
    exact hall other hle hlt
  · intro hsteers other hle hlt
    exact hsteers.hintAt_eq hmap hfree hle
      (show other + (block.order - other) = block.order by omega)

theorem Descends.taken_slots (hmap : map.WellFormed) (hfree : block ∈ map.free)
    (hlt : order < block.order)
    (hdescends : Descends map opened block order) (offset : Nat) :
    ((opened.blockSet order offset).setPagesFree order
      (wordSub (opened.pagesFree order) 1)).slots order =
      ⟨Function.update (opened.freeArea order) offset true,
        (map.slots order).length, (map.slots order).count + 1,
        map.hintAt block order⟩ := by
  have hroom := hmap.room hfree hlt
  have hcurrent := hdescends.current
  rw [if_pos hlt] at hcurrent
  have hnext := hdescends.hint_eq (Nat.le_of_lt hlt)
  have hlength : freeAreaLength opened.pages order = (map.slots order).length :=
    congrArg FreeSlots.length hcurrent
  have hcount : opened.pagesFree order = map.pagesFree order + 2 :=
    congrArg FreeSlots.count hcurrent
  have hdec : wordSub (opened.pagesFree order) 1 =
      map.pagesFree order + 1 := by
    rw [hcount, wordSub_of_le (by omega) hroom.count_lt]
    rfl
  rw [slots_setPagesFree_self, slots_writeBlock_self, hdec, ← hnext, ← hlength]
  rfl

theorem Descends.freeArea_eq (hlt : order < block.order)
    (hdescends : Descends map opened block order) :
    opened.freeArea order = Function.update (Function.update
      (map.freeArea order) (block.leftmost order).index false)
      ((block.leftmost order).index + 1) false := by
  have hcurrent := hdescends.current
  rw [if_pos hlt] at hcurrent
  exact congrArg FreeSlots.bits hcurrent

theorem Descends.reserve_slots_low (hmap : map.WellFormed)
    (hfree : block ∈ map.free) (hlt : order < block.order)
    (hdescends : Descends map opened block order) :
    (reserveBlock opened order (block.leftmost order).index).slots order =
      ⟨Function.update (map.slots order).bits
          ((block.leftmost order).index + 1) false,
        (map.slots order).length, (map.slots order).count + 1,
        if map.hintAt block order = (block.leftmost order).index then
          (block.leftmost order).index + 1
        else map.hintAt block order⟩ := by
  have hroom := hmap.room hfree hlt
  have hnext := hdescends.hint_eq (Nat.le_of_lt hlt)
  have hcurrent := hdescends.current
  rw [if_pos hlt] at hcurrent
  have hlength : freeAreaLength opened.pages order = (map.slots order).length :=
    congrArg FreeSlots.length hcurrent
  have htaken := hdescends.taken_slots hmap hfree hlt
    (block.leftmost order).index
  have hupdate : Function.update (opened.freeArea order)
      (block.leftmost order).index true =
        Function.update (map.freeArea order)
          ((block.leftmost order).index + 1) false := by
    rw [hdescends.freeArea_eq hlt]
    exact update_pair_low _ hroom.low
  rw [hupdate] at htaken
  by_cases hself : map.hintAt block order = (block.leftmost order).index
  · have hsearch : firstClear?
        (((opened.blockSet order (block.leftmost order).index).setPagesFree
          order (wordSub (opened.pagesFree order) 1)).freeArea order)
        ((block.leftmost order).index + 1)
        (freeAreaLength opened.pages order) =
          some ((block.leftmost order).index + 1) := by
      apply firstClear?_self
      · rw [hlength]
        exact hroom.inside
      · have hnew := congrFun (congrArg FreeSlots.bits htaken)
          ((block.leftmost order).index + 1)
        simp only [Function.update_self] at hnew
        exact hnew
    rw [reserveBlock_of_hint (hnext.trans hself),
      searchNextFreePage_of_some hsearch, slots_setNextFreePage_self, htaken,
      if_pos hself]
    rfl
  · rw [reserveBlock_of_ne_hint (hnext ▸ hself), htaken, if_neg hself]
    rfl

theorem Descends.reserve_slots_high (hmap : map.WellFormed)
    (hfree : block ∈ map.free) (hlt : order < block.order)
    (hdescends : Descends map opened block order) :
    (reserveBlock opened order ((block.leftmost order).index + 1)).slots order =
      ⟨Function.update (map.slots order).bits (block.leftmost order).index
          false,
        (map.slots order).length, (map.slots order).count + 1,
        map.hintAt block order⟩ := by
  have hroom := hmap.room hfree hlt
  have hnext := hdescends.hint_eq (Nat.le_of_lt hlt)
  have hhint := hmap.hintAt_le hfree (Nat.add_sub_cancel' (Nat.le_of_lt hlt))
  have hupdate : Function.update (opened.freeArea order)
      ((block.leftmost order).index + 1) true =
        Function.update (map.freeArea order)
          (block.leftmost order).index false := by
    rw [hdescends.freeArea_eq hlt]
    exact update_pair_high _ hroom.high
  rw [reserveBlock_of_ne_hint (by omega),
    hdescends.taken_slots hmap hfree hlt, hupdate]
  rfl

theorem Descends.reserve_sound_iff (hmap : map.WellFormed)
    (hfree : block ∈ map.free) (hlt : order < block.order)
    (hdescends : Descends map opened block order) {offset : Nat}
    (hoffset : offset = (block.leftmost order).index ∨
      offset = (block.leftmost order).index + 1) :
    ((reserveBlock opened order offset).slots order).Sound ↔
      map.hintAt block order = map.lowestAt block order := by
  have hroom := hmap.room hfree hlt
  have hsound := hmap.slots_sound order (Nat.lt_trans hlt hfree.1)
  have hhint := hmap.hintAt_le hfree (Nat.add_sub_cancel' (Nat.le_of_lt hlt))
  rcases hoffset with rfl | rfl
  · rw [hdescends.reserve_slots_low hmap hfree hlt,
      hsound.release_iff hroom.high hroom.inside,
      hsound.lowestWith_succ_iff hroom.low hhint (map.hintAt_le_hint _ _)]
    rfl
  · have hinside : (block.leftmost order).index <
        (map.slots order).length := Nat.lt_of_succ_lt hroom.inside
    rw [hdescends.reserve_slots_high hmap hfree hlt]
    exact hsound.release_iff hroom.low hinside

/-- The map is well formed again after the descent if and only if the hints have
steered it. -/
theorem Descends.reserve_wellFormed_iff (hmap : map.WellFormed)
    (hfree : block ∈ map.free) (hlt : order < block.order)
    (hdescends : Descends map opened block order) {offset : Nat}
    (hoffset : offset = (block.leftmost order).index ∨
      offset = (block.leftmost order).index + 1) :
    (reserveBlock opened order offset).WellFormed ↔
      map.Steers block order := by
  rw [← BpaMap.steers_iff hmap hfree]
  have hself := hdescends.reserve_sound_iff hmap hfree hlt hoffset
  constructor
  · intro hwell other hle hother
    have hotherLt : other < maxOrder := Nat.lt_trans hother hfree.1
    have hsound := hwell.slots_sound other hotherLt
    rcases Nat.eq_or_lt_of_le hle with rfl | hgt
    · exact hself.mp hsound
    · rw [reserveBlock_slots_of_ne opened offset (by omega)] at hsound
      exact (hdescends.above other hotherLt hgt).mp hsound hother
  · intro hall
    refine ⟨?_, ?_, ?_⟩
    · rw [reserveBlock_pages, hdescends.pages_eq]
      exact hmap.pages_lt
    · intro other hother
      rcases Nat.lt_trichotomy other order with hbelow | rfl | hgt
      · rw [reserveBlock_slots_of_ne opened offset (by omega),
          hdescends.below other hbelow]
        exact hmap.slots_sound other hother
      · exact hself.mpr (hall other (Nat.le_refl _) hlt)
      · rw [reserveBlock_slots_of_ne opened offset (by omega),
          hdescends.above other hother hgt]
        exact hall other (Nat.le_of_lt hgt)
    · rw [reserveBlock_free, hdescends.free_eq]
      exact (Family.opened_sound hmap.apart hfree
        (Nat.add_sub_cancel' (Nat.le_of_lt hlt))).1.remove

end

end Synos.Page

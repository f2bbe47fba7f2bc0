import Mathlib.Data.Set.Insert
import Mathlib.Algebra.Order.Group.Nat
import Mathlib.Tactic.Ring

namespace Synos.Data

/-! Dyadic blocks of natural numbers and the families a buddy system keeps:
pairwise apart, changed by splitting a block into halves, joining two halves,
inserting and removing. -/

/-- The aligned run of `2 ^ order` numbers starting at `index * 2 ^ order`. -/
structure Block where
  order : Nat
  index : Nat
  deriving DecidableEq, Repr

namespace Block

instance : Membership Nat Block where
  mem block point := point / 2 ^ block.order = block.index

instance (block : Block) (point : Nat) : Decidable (point ∈ block) :=
  inferInstanceAs (Decidable (point / 2 ^ block.order = block.index))

theorem mem_def {block : Block} {point : Nat} :
    point ∈ block ↔ point / 2 ^ block.order = block.index :=
  Iff.rfl

def first (block : Block) : Nat := block.index * 2 ^ block.order

def left (block : Block) : Block := ⟨block.order - 1, 2 * block.index⟩

def right (block : Block) : Block := ⟨block.order - 1, 2 * block.index + 1⟩

/-- The block of order `order` at the low end of `block`. -/
def leftmost (block : Block) (order : Nat) : Block :=
  ⟨order, block.index * 2 ^ (block.order - order)⟩

theorem mem_iff {block : Block} {point : Nat} :
    point ∈ block ↔
      block.first ≤ point ∧ point < block.first + 2 ^ block.order := by
  rw [mem_def, Nat.div_eq_iff (Nat.two_pow_pos _), first]
  have := Nat.two_pow_pos block.order
  omega

theorem first_mem (block : Block) : block.first ∈ block :=
  mem_iff.mpr ⟨Nat.le_refl _, by
    have := Nat.two_pow_pos block.order
    omega⟩

theorem mem_unique {left right : Block} {point : Nat}
    (hleft : point ∈ left) (hright : point ∈ right)
    (horder : left.order = right.order) : left = right := by
  cases left
  cases right
  subst horder
  rw [mem_def] at hleft hright
  exact congrArg _ (hleft.symm.trans hright)

theorem subset_of_order_le {inner outer : Block} {point : Nat}
    (horder : inner.order ≤ outer.order)
    (hinner : point ∈ inner) (houter : point ∈ outer) :
    ∀ other ∈ inner, other ∈ outer := by
  have hpow : 2 ^ outer.order =
      2 ^ inner.order * 2 ^ (outer.order - inner.order) := by
    rw [← pow_add, Nat.add_sub_cancel' horder]
  intro other hother
  rw [mem_def] at *
  rw [hpow, ← Nat.div_div_eq_div_mul] at houter ⊢
  rw [hother, ← houter, hinner]

theorem mem_halves {block : Block} (horder : 0 < block.order) {point : Nat} :
    point ∈ block ↔ point ∈ block.left ∨ point ∈ block.right := by
  have hpow : 2 ^ block.order = 2 ^ (block.order - 1) * 2 := by
    rw [← pow_succ, Nat.sub_add_cancel horder]
  simp only [mem_def, left, right, hpow, ← Nat.div_div_eq_div_mul]
  omega

theorem left_ne_right (block : Block) : block.left ≠ block.right := by
  intro h
  have := congrArg Block.index h
  simp only [left, right] at this
  omega

theorem not_mem_right_of_mem_left {block : Block} {point : Nat}
    (h : point ∈ block.left) : point ∉ block.right :=
  fun hright => left_ne_right block (mem_unique h hright rfl)

@[simp] theorem leftmost_self (block : Block) :
    block.leftmost block.order = block := by
  simp [leftmost]

theorem leftmost_left {block : Block} {order : Nat}
    (horder : order < block.order) :
    (block.leftmost (order + 1)).left = block.leftmost order := by
  have hstep : block.order - order = (block.order - (order + 1)) + 1 := by
    omega
  simp only [leftmost, left, hstep, pow_succ, Nat.add_sub_cancel]
  congr 1
  ring

theorem left_leftmost {block : Block} {order : Nat}
    (horder : order < block.order) :
    block.left.leftmost order = block.leftmost order := by
  have hstep : block.order - order = block.order - 1 - order + 1 := by omega
  simp only [leftmost, left, hstep, pow_succ]
  congr 1
  ring

@[simp] theorem leftmost_first (block : Block) {order : Nat}
    (horder : order ≤ block.order) :
    (block.leftmost order).first = block.first := by
  simp only [leftmost, first, Nat.mul_assoc, ← pow_add]
  rw [Nat.sub_add_cancel horder]

theorem mem_leftmost {block : Block} {order point : Nat}
    (horder : order ≤ block.order) :
    point ∈ block.leftmost order ↔
      block.first ≤ point ∧ point < block.first + 2 ^ order := by
  rw [mem_iff, leftmost_first block horder]
  rfl

theorem leftmost_subset {block : Block} {order point : Nat}
    (horder : order ≤ block.order) (h : point ∈ block.leftmost order) :
    point ∈ block := by
  refine subset_of_order_le horder (first_mem _) ?_ point h
  rw [leftmost_first block horder]
  exact first_mem block

end Block

/-- Every number of `inner` is one of `outer`. -/
def Block.Inside (inner outer : Block) : Prop :=
  ∀ point ∈ inner, point ∈ outer

theorem Block.inside_iff {inner outer : Block} :
    inner.Inside outer ↔ inner.order ≤ outer.order ∧
      inner.index / 2 ^ (outer.order - inner.order) = outer.index := by
  have hinner := first_mem inner
  constructor
  · intro h
    have horder : inner.order ≤ outer.order := by
      have hfirst := mem_iff.mp (h _ hinner)
      have hlast := mem_iff.mp (h (inner.first + 2 ^ inner.order - 1)
        (mem_iff.mpr ⟨by have := Nat.two_pow_pos inner.order; omega,
          by have := Nat.two_pow_pos inner.order; omega⟩))
      by_contra hgt
      have hpow := Nat.pow_lt_pow_right (show 1 < 2 by decide)
        (Nat.lt_of_not_le hgt)
      omega
    refine ⟨horder, ?_⟩
    have hmem := mem_def.mp (h _ hinner)
    rwa [← Nat.add_sub_cancel' horder, pow_add, ← Nat.div_div_eq_div_mul,
      mem_def.mp hinner] at hmem
  · rintro ⟨horder, hindex⟩
    apply subset_of_order_le horder hinner
    rw [mem_def, ← Nat.add_sub_cancel' horder, pow_add,
      ← Nat.div_div_eq_div_mul, mem_def.mp hinner]
    exact hindex

theorem Block.Inside.leftmost_le {inner outer : Block}
    (hinside : inner.Inside outer) :
    (outer.leftmost inner.order).index ≤ inner.index := by
  obtain ⟨-, hindex⟩ := inside_iff.mp hinside
  simp only [leftmost, ← hindex]
  exact Nat.div_mul_le_self _ _

def Block.Within (block : Block) (allowed : Nat → Prop) : Prop :=
  ∀ point ∈ block, allowed point

theorem Block.Within.halves {block : Block} {allowed : Nat → Prop}
    (horder : 0 < block.order) (h : block.Within allowed) :
    block.left.Within allowed ∧ block.right.Within allowed :=
  ⟨fun point hpoint => h point ((mem_halves horder).mpr (.inl hpoint)),
    fun point hpoint => h point ((mem_halves horder).mpr (.inr hpoint))⟩

theorem Block.Within.first {order other : Nat} {allowed : Nat → Prop}
    (h : (⟨order, 0⟩ : Block).Within allowed) (hle : other ≤ order) :
    (⟨other, 0⟩ : Block).Within allowed := by
  intro point hpoint
  apply h
  have hsub := @Block.leftmost_subset ⟨order, 0⟩ other point hle
  rw [leftmost, Nat.zero_mul] at hsub
  exact hsub hpoint

def Block.Apart (first second : Block) : Prop :=
  ∀ point ∈ first, point ∉ second

theorem Block.Apart.symm {first second : Block} (h : first.Apart second) :
    second.Apart first :=
  fun point hsecond hfirst => h point hfirst hsecond

theorem Block.Apart.ne {first second : Block} (h : first.Apart second) :
    first ≠ second := by
  intro heq
  exact h first.first first.first_mem (heq ▸ first.first_mem)

/-! Families of blocks. -/

abbrev Family := Set Block

namespace Family

variable {family : Family} {block : Block}

def Covers (family : Family) (point : Nat) : Prop :=
  ∃ block ∈ family, point ∈ block

/-- No number lies in two blocks of the family. -/
def Apart (family : Family) : Prop :=
  ∀ first ∈ family, ∀ second ∈ family, ∀ point,
    point ∈ first → point ∈ second → first = second

/-- No block of the family can be joined with its buddy below `top`. -/
def Coalesced (family : Family) (top : Nat) : Prop :=
  ∀ block : Block, block.order ≤ top →
    ¬ (block.left ∈ family ∧ block.right ∈ family ∧ 0 < block.order)

def remove (family : Family) (block : Block) : Family :=
  {other | other ∈ family ∧ other ≠ block}

def add (family : Family) (block : Block) : Family :=
  {other | other = block ∨ other ∈ family}

def split (family : Family) (block : Block) : Family :=
  ((family.remove block).add block.left).add block.right

def join (family : Family) (block : Block) : Family :=
  ((family.remove block.left).remove block.right).add block

@[simp] theorem mem_remove {other : Block} :
    other ∈ family.remove block ↔ other ∈ family ∧ other ≠ block := Iff.rfl

@[simp] theorem mem_add {other : Block} :
    other ∈ family.add block ↔ other = block ∨ other ∈ family := Iff.rfl

theorem Apart.unique (hapart : family.Apart) {first second : Block}
    {point : Nat} (hfirst : first ∈ family) (hsecond : second ∈ family)
    (hpointFirst : point ∈ first) (hpointSecond : point ∈ second) :
    first = second :=
  hapart first hfirst second hsecond point hpointFirst hpointSecond

theorem Apart.notMem_of_half (hapart : family.Apart)
    (horder : 0 < block.order) (hleft : block.left ∈ family) :
    block ∉ family := by
  intro hblock
  have hpoint := block.left.first_mem
  have heq := hapart.unique hleft hblock hpoint
    ((Block.mem_halves horder).mpr (.inl hpoint))
  have horders := congrArg Block.order heq
  simp only [Block.left] at horders
  omega

theorem Apart.remove (hapart : family.Apart) : (family.remove block).Apart :=
  fun first hfirst second hsecond => hapart first hfirst.1 second hsecond.1

theorem covers_remove (hapart : family.Apart) (hmem : block ∈ family)
    {point : Nat} :
    (family.remove block).Covers point ↔
      family.Covers point ∧ point ∉ block := by
  constructor
  · rintro ⟨other, ⟨hother, hne⟩, hpoint⟩
    exact ⟨⟨other, hother, hpoint⟩, fun hblock =>
      hne (hapart.unique hother hmem hpoint hblock)⟩
  · rintro ⟨⟨other, hother, hpoint⟩, hnot⟩
    refine ⟨other, ⟨hother, ?_⟩, hpoint⟩
    rintro rfl
    exact hnot hpoint

theorem covers_add {point : Nat} :
    (family.add block).Covers point ↔ point ∈ block ∨ family.Covers point := by
  constructor
  · rintro ⟨other, rfl | hother, hpoint⟩
    · exact .inl hpoint
    · exact .inr ⟨other, hother, hpoint⟩
  · rintro (hpoint | ⟨other, hother, hpoint⟩)
    · exact ⟨block, .inl rfl, hpoint⟩
    · exact ⟨other, .inr hother, hpoint⟩

theorem Apart.add (hapart : family.Apart)
    (hfresh : ∀ point ∈ block, ¬ family.Covers point) :
    (family.add block).Apart := by
  rintro first (rfl | hfirst) second (rfl | hsecond) point hp hq
  · rfl
  · exact (hfresh point hp ⟨second, hsecond, hq⟩).elim
  · exact (hfresh point hq ⟨first, hfirst, hp⟩).elim
  · exact hapart.unique hfirst hsecond hp hq

theorem covers_split (hapart : family.Apart) (hmem : block ∈ family)
    (horder : 0 < block.order) {point : Nat} :
    (family.split block).Covers point ↔ family.Covers point := by
  simp only [split, covers_add, covers_remove hapart hmem]
  constructor
  · rintro (hright | hleft | hrest)
    · exact ⟨block, hmem, (Block.mem_halves horder).mpr (.inr hright)⟩
    · exact ⟨block, hmem, (Block.mem_halves horder).mpr (.inl hleft)⟩
    · exact hrest.1
  · intro hcovers
    by_cases hpoint : point ∈ block
    · rcases (Block.mem_halves horder).mp hpoint with hleft | hright
      · exact .inr (.inl hleft)
      · exact .inl hright
    · exact .inr (.inr ⟨hcovers, hpoint⟩)

theorem Apart.split (hapart : family.Apart) (hmem : block ∈ family)
    (horder : 0 < block.order) : (family.split block).Apart := by
  refine (hapart.remove.add ?_).add ?_
  · intro point hleft hcovers
    rw [covers_remove hapart hmem] at hcovers
    exact hcovers.2 ((Block.mem_halves horder).mpr (.inl hleft))
  · intro point hright hcovers
    rw [covers_add, covers_remove hapart hmem] at hcovers
    rcases hcovers with hleft | hrest
    · exact Block.not_mem_right_of_mem_left hleft hright
    · exact hrest.2 ((Block.mem_halves horder).mpr (.inr hright))

theorem covers_join (hleft : block.left ∈ family) (hright : block.right ∈ family)
    (horder : 0 < block.order) {point : Nat} :
    (family.join block).Covers point ↔ family.Covers point := by
  simp only [join, covers_add]
  constructor
  · rintro (hpoint | ⟨other, hother, hpoint⟩)
    · rcases (Block.mem_halves horder).mp hpoint with h | h
      · exact ⟨_, hleft, h⟩
      · exact ⟨_, hright, h⟩
    · exact ⟨other, hother.1.1, hpoint⟩
  · rintro ⟨other, hother, hpoint⟩
    by_cases hl : other = block.left
    · exact .inl ((Block.mem_halves horder).mpr (.inl (hl ▸ hpoint)))
    · by_cases hr : other = block.right
      · exact .inl ((Block.mem_halves horder).mpr (.inr (hr ▸ hpoint)))
      · exact .inr ⟨other, ⟨⟨hother, hl⟩, hr⟩, hpoint⟩

theorem Apart.join (hapart : family.Apart) (hleft : block.left ∈ family)
    (hright : block.right ∈ family) (horder : 0 < block.order) :
    (family.join block).Apart := by
  refine hapart.remove.remove.add ?_
  rintro point hpoint ⟨other, ⟨⟨hother, hl⟩, hr⟩, hmem⟩
  rcases (Block.mem_halves horder).mp hpoint with h | h
  · exact hl (hapart.unique hother hleft hmem h)
  · exact hr (hapart.unique hother hright hmem h)

/-! Carving a block of order `order` off the low end of `block`: the block is
replaced by its leftmost part of that order and the right halves left over by
the splits. -/

def chips (block : Block) (order : Nat) : Family :=
  {other | order ≤ other.order ∧ other.order < block.order ∧
    other.index = block.index * 2 ^ (block.order - other.order) + 1}

def opened (family : Family) (block : Block) (order : Nat) : Family :=
  {other | (other ∈ family ∧ other ≠ block) ∨ other ∈ chips block order ∨
    other = block.leftmost order}

/-- What is left of the family once the leftmost part has been taken. -/
def carved (family : Family) (block : Block) (order : Nat) : Family :=
  {other | (other ∈ family ∧ other ≠ block) ∨ other ∈ chips block order}

theorem leftmost_not_mem_chips (block : Block) (order : Nat) :
    block.leftmost order ∉ chips block order := by
  rintro ⟨_, hlt, hindex⟩
  simp only [Block.leftmost] at *
  omega

@[simp] theorem opened_self (hmem : block ∈ family) :
    family.opened block block.order = family := by
  ext other
  simp only [opened, chips, Set.mem_ofPred_eq, Block.leftmost_self]
  constructor
  · rintro (h | h | rfl)
    · exact h.1
    · omega
    · exact hmem
  · intro h
    by_cases hother : other = block
    · exact .inr (.inr hother)
    · exact .inl ⟨h, hother⟩

theorem leftmost_mem (hapart : family.Apart) (hmem : block ∈ family)
    {order : Nat} (horder : order ≤ block.order)
    (h : block.leftmost order ∈ family) : block.leftmost order = block :=
  hapart.unique h hmem (Block.first_mem _)
    (Block.leftmost_subset horder (Block.first_mem _))

theorem opened_split (hapart : family.Apart) (hmem : block ∈ family)
    {order : Nat} (horder : order < block.order) :
    (family.opened block (order + 1)).split (block.leftmost (order + 1)) =
      family.opened block order := by
  have hfresh := leftmost_mem hapart hmem (Nat.succ_le_of_lt horder)
  have hchip := leftmost_not_mem_chips block (order + 1)
  have hstep : block.order - order = (block.order - (order + 1)) + 1 := by
    omega
  have hright : (block.leftmost (order + 1)).right ∈ chips block order := by
    refine ⟨Nat.le_refl _, horder, ?_⟩
    simp only [Block.leftmost, Block.right, Nat.add_sub_cancel, hstep, pow_succ]
    ring
  have hchips : ∀ other, other ∈ chips block order ↔
      other = (block.leftmost (order + 1)).right ∨
        other ∈ chips block (order + 1) := by
    intro other
    constructor
    · rintro ⟨hle, hlt, hindex⟩
      rcases Nat.eq_or_lt_of_le hle with heq | hgt
      · left
        obtain ⟨-, -, hrightIndex⟩ := hright
        cases other
        subst heq
        simp only at hindex
        simp only [Block.right, Block.leftmost, Nat.add_sub_cancel] at *
        rw [hindex, ← hrightIndex]
      · exact .inr ⟨hgt, hlt, hindex⟩
    · rintro (rfl | ⟨hle, hlt, hindex⟩)
      · exact hright
      · exact ⟨by omega, hlt, hindex⟩
  ext other
  simp only [split, mem_add, mem_remove, Block.leftmost_left horder]
  simp only [opened, Set.mem_ofPred_eq, hchips]
  constructor
  · rintro (h | h | ⟨h | h | h, hne⟩)
    · exact .inr (.inl (.inl h))
    · exact .inr (.inr h)
    · exact .inl h
    · exact .inr (.inl (.inr h))
    · exact (hne h).elim
  · rintro (h | (h | h) | h)
    · refine .inr (.inr ⟨.inl h, ?_⟩)
      rintro rfl
      exact h.2 (hfresh h.1)
    · exact .inl h
    · refine .inr (.inr ⟨.inr (.inl h), ?_⟩)
      rintro rfl
      exact hchip h
    · exact .inr (.inl h)

theorem opened_remove (hapart : family.Apart) (hmem : block ∈ family)
    {order : Nat} (horder : order ≤ block.order) :
    (family.opened block order).remove (block.leftmost order) =
      family.carved block order := by
  have hfresh := leftmost_mem hapart hmem horder
  ext other
  simp only [mem_remove, opened, carved, Set.mem_ofPred_eq]
  constructor
  · rintro ⟨h | h | h, hne⟩
    · exact .inl h
    · exact .inr h
    · exact (hne h).elim
  · rintro (h | h)
    · refine ⟨.inl h, ?_⟩
      rintro rfl
      exact h.2 (hfresh h.1)
    · refine ⟨.inr (.inl h), ?_⟩
      rintro rfl
      exact leftmost_not_mem_chips block order h

theorem leftmost_mem_opened {order : Nat} :
    block.leftmost order ∈ family.opened block order :=
  .inr (.inr rfl)

theorem opened_sound (hapart : family.Apart) (hmem : block ∈ family)
    {depth order : Nat} (horder : order + depth = block.order) :
    (family.opened block order).Apart ∧
      ∀ point, (family.opened block order).Covers point ↔
        family.Covers point := by
  induction depth generalizing order with
  | zero =>
      have heq : order = block.order := by omega
      subst heq
      rw [opened_self hmem]
      exact ⟨hapart, fun _ => Iff.rfl⟩
  | succ depth ih =>
      obtain ⟨hopened, hcovers⟩ := @ih (order + 1) (by omega)
      rw [← opened_split hapart hmem (by omega)]
      refine ⟨hopened.split leftmost_mem_opened (Nat.succ_pos _), ?_⟩
      intro point
      rw [covers_split hopened leftmost_mem_opened (Nat.succ_pos _),
        hcovers]

theorem covers_carved (hapart : family.Apart) (hmem : block ∈ family)
    {order : Nat} (horder : order ≤ block.order) {point : Nat} :
    (family.carved block order).Covers point ↔
      family.Covers point ∧ point ∉ block.leftmost order := by
  obtain ⟨hopened, hcovers⟩ :=
    opened_sound hapart hmem (Nat.add_sub_cancel' horder)
  rw [← opened_remove hapart hmem horder,
    covers_remove hopened leftmost_mem_opened, hcovers]

/-- In a coalesced family, a block all of whose numbers are covered lies in one
block of the family. -/
theorem Coalesced.exists_superset {top : Nat} (hcoalesced : family.Coalesced top) :
    ∀ block : Block, block.order ≤ top →
      (∀ point ∈ block, family.Covers point) →
      ∃ other ∈ family, block.order ≤ other.order ∧
        ∀ point ∈ block, point ∈ other := by
  rintro ⟨order, index⟩ htop hcovered
  induction order generalizing index with
  | zero =>
      obtain ⟨other, hother, hmem⟩ :=
        hcovered _ (Block.first_mem ⟨0, index⟩)
      exact ⟨other, hother, Nat.zero_le _,
        Block.subset_of_order_le (Nat.zero_le _) (Block.first_mem _) hmem⟩
  | succ order ih =>
      have hhalves := fun point =>
        @Block.mem_halves ⟨order + 1, index⟩ (Nat.succ_pos _) point
      obtain ⟨low, hlow, hlowOrder, hlowSub⟩ := ih (2 * index)
        (by simp only at *; omega) (fun point hpoint =>
          hcovered point ((hhalves point).mpr (.inl hpoint)))
      obtain ⟨high, hhigh, hhighOrder, hhighSub⟩ := ih (2 * index + 1)
        (by simp only at *; omega) (fun point hpoint =>
          hcovered point ((hhalves point).mpr (.inr hpoint)))
      have hlowFirst := Block.first_mem ⟨order, 2 * index⟩
      have hhighFirst := Block.first_mem ⟨order, 2 * index + 1⟩
      rcases Nat.eq_or_lt_of_le hlowOrder with hlowEq | hlowGt
      · rcases Nat.eq_or_lt_of_le hhighOrder with hhighEq | hhighGt
        · have hl := Block.mem_unique hlowFirst (hlowSub _ hlowFirst) hlowEq
          have hr := Block.mem_unique hhighFirst (hhighSub _ hhighFirst) hhighEq
          subst hl hr
          exact (hcoalesced ⟨order + 1, index⟩ htop
            ⟨hlow, hhigh, Nat.succ_pos _⟩).elim
        · exact ⟨high, hhigh, hhighGt, Block.subset_of_order_le hhighGt
            ((hhalves _).mpr (.inr hhighFirst)) (hhighSub _ hhighFirst)⟩
      · exact ⟨low, hlow, hlowGt, Block.subset_of_order_le hlowGt
          ((hhalves _).mpr (.inl hlowFirst)) (hlowSub _ hlowFirst)⟩

/-- Carving leaves no buddies behind when the orders it opens were empty: every
part that stays is the right half of a block. -/
theorem Coalesced.carved {top : Nat} (hcoalesced : family.Coalesced top)
    {order : Nat}
    (hempty : ∀ other ∈ family, order ≤ other.order →
      block.order ≤ other.order) :
    (family.carved block order).Coalesced top := by
  have hodd : ∀ parent : Block, parent.left ∉ chips block order := by
    intro parent hchip
    obtain ⟨-, hlt, hindex⟩ := hchip
    have hstep : block.order - parent.left.order =
        (block.order - parent.left.order - 1) + 1 := by omega
    rw [hstep, pow_succ, ← Nat.mul_assoc] at hindex
    simp only [Block.left] at hindex
    omega
  intro parent horder hboth
  obtain ⟨hleft, hright, hpos⟩ := hboth
  cases hleft with
  | inr hchip => exact hodd parent hchip
  | inl hold =>
      cases hright with
      | inl hrightOld => exact hcoalesced parent horder ⟨hold.1, hrightOld.1, hpos⟩
      | inr hchip =>
          have hle := hempty _ hold.1 hchip.1
          have hlt : parent.left.order < block.order := hchip.2.1
          omega

end Family

end Synos.Data

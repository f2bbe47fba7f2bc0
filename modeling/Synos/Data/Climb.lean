import Synos.Data.Dyadic

namespace Synos.Data

/-! Joining a block with its sibling, the block so made with its own sibling, and
so on up to some order. -/

namespace Block

/-- The other half of the block that `block` is a half of. -/
def sibling (block : Block) : Block :=
  ⟨block.order,
    if block.index % 2 = 1 then block.index - 1 else block.index + 1⟩

/-- The block of order `order` around `block`. -/
def ancestor (block : Block) (order : Nat) : Block :=
  ⟨order, block.index / 2 ^ (order - block.order)⟩

variable {block : Block}

@[simp] theorem ancestor_self (block : Block) :
    block.ancestor block.order = block := by
  simp [ancestor]

theorem ancestor_succ (block : Block) :
    block.ancestor (block.order + 1) = ⟨block.order + 1, block.index / 2⟩ := by
  rw [ancestor, Nat.add_sub_cancel_left, pow_one]

theorem ancestor_ancestor {middle order : Nat} (hlow : block.order ≤ middle)
    (hhigh : middle ≤ order) :
    (block.ancestor middle).ancestor order = block.ancestor order := by
  have hsum : order - block.order =
      (middle - block.order) + (order - middle) := by omega
  simp only [ancestor, Nat.div_div_eq_div_mul, ← pow_add, hsum]

theorem sibling_ne (block : Block) : block.sibling ≠ block := by
  intro heq
  have hindex := congrArg Block.index heq
  simp only [sibling] at hindex
  split at hindex <;> omega

theorem eq_half_iff {other : Block} :
    other = (block.ancestor (block.order + 1)).left ∨
        other = (block.ancestor (block.order + 1)).right ↔
      other = block ∨ other = block.sibling := by
  obtain ⟨order, index⟩ := block
  obtain ⟨otherOrder, otherIndex⟩ := other
  rw [ancestor_succ]
  simp only [left, right, sibling, Block.mk.injEq, Nat.add_sub_cancel]
  split <;> omega

end Block

namespace Family

variable {family : Family} {block : Block} {order : Nat}

/-- The block, and the siblings of all blocks around it below `order`. -/
def climbed (block : Block) (order : Nat) : Family :=
  {other | other = block ∨ ∃ level, block.order ≤ level ∧ level < order ∧
    other = (block.ancestor level).sibling}

def climb (family : Family) (block : Block) (order : Nat) : Family :=
  {other | other = block.ancestor order ∨
    other ∈ family ∧ other ∉ climbed block order}

theorem mem_climb {other : Block} :
    other ∈ family.climb block order ↔ other = block.ancestor order ∨
      other ∈ family ∧ other ∉ climbed block order := Iff.rfl

theorem mem_climbed_succ {other : Block} :
    other ∈ climbed block (block.order + 1) ↔
      other = block ∨ other = block.sibling := by
  constructor
  · rintro (hself | ⟨level, hlow, hhigh, hother⟩)
    · exact .inl hself
    · obtain rfl : level = block.order := by omega
      rw [Block.ancestor_self] at hother
      exact .inr hother
  · rintro (hself | hother)
    · exact .inl hself
    · refine .inr ⟨block.order, Nat.le_refl _, Nat.lt_succ_self _, ?_⟩
      rw [Block.ancestor_self]
      exact hother

theorem join_eq_climb :
    family.join (block.ancestor (block.order + 1)) =
      family.climb block (block.order + 1) := by
  ext other
  rw [mem_climb, mem_climbed_succ, ← Block.eq_half_iff]
  simp only [join, mem_add, mem_remove, not_or, and_assoc, ne_eq]

theorem mem_climbed_of_le {other : Block} {first : Nat}
    (horder : first ≤ order) (hother : other ∈ climbed block first) :
    other ∈ climbed block order := by
  cases hother with
  | inl hself => exact .inl hself
  | inr hsibling =>
      obtain ⟨level, hlow, hhigh, hother⟩ := hsibling
      exact .inr ⟨level, hlow, Nat.lt_of_lt_of_le hhigh horder, hother⟩

theorem mem_climbed_ancestor {other : Block} {middle : Nat}
    (hmiddle : block.order ≤ middle) :
    other ∈ climbed (block.ancestor middle) order ↔
      other = block.ancestor middle ∨
        ∃ level, middle ≤ level ∧ level < order ∧
          other = (block.ancestor level).sibling := by
  refine or_congr Iff.rfl (exists_congr fun level => ?_)
  refine and_congr_right fun hlevel => and_congr_right fun _ => ?_
  rw [Block.ancestor_ancestor hmiddle hlevel]

theorem mem_climbed_parent {other : Block} (horder : block.order < order) :
    other ∈ climbed block order ↔
      other ∈ climbed block (block.order + 1) ∨
        other ∈ climbed (block.ancestor (block.order + 1)) order ∧
          other ≠ block.ancestor (block.order + 1) := by
  rw [mem_climbed_ancestor (Nat.le_succ _)]
  constructor
  · rintro (hself | ⟨level, hlow, hhigh, hother⟩)
    · exact .inl (.inl hself)
    · rcases Nat.eq_or_lt_of_le hlow with heq | hgt
      · exact .inl (.inr ⟨level, hlow, by omega, hother⟩)
      · refine .inr ⟨.inr ⟨level, hgt, hhigh, hother⟩, ?_⟩
        intro hparent
        rw [hother] at hparent
        obtain rfl : level = block.order + 1 := congrArg Block.order hparent
        exact Block.sibling_ne _ hparent
  · rintro (hfirst | ⟨hparent | ⟨level, hlow, hhigh, hother⟩, hne⟩)
    · exact mem_climbed_of_le horder hfirst
    · exact absurd hparent hne
    · exact .inr ⟨level, by omega, hhigh, hother⟩

theorem climb_join (horder : block.order < order)
    (hparent : block.ancestor (block.order + 1) ∉ family) :
    (family.join (block.ancestor (block.order + 1))).climb
        (block.ancestor (block.order + 1)) order =
      family.climb block order := by
  ext other
  have hclimbed := @mem_climbed_parent block order other horder
  have hself : block.ancestor (block.order + 1) ∈
      climbed (block.ancestor (block.order + 1)) order := .inl rfl
  rw [join_eq_climb, mem_climb, mem_climb, mem_climb, hclimbed,
    Block.ancestor_ancestor (Nat.le_succ _) horder]
  refine or_congr_right ⟨?_, ?_⟩
  · rintro ⟨hmade | ⟨hold, hfirst⟩, hlater⟩
    · exact absurd (hmade ▸ hself) hlater
    · exact ⟨hold, fun hmem => hmem.elim hfirst fun hrest => hlater hrest.1⟩
  · rintro ⟨hold, hnot⟩
    have hne : other ≠ block.ancestor (block.order + 1) := by
      rintro rfl
      exact hparent hold
    exact ⟨.inr ⟨hold, fun hfirst => hnot (.inl hfirst)⟩,
      fun hlater => hnot (.inr ⟨hlater, hne⟩)⟩

end Family

end Synos.Data

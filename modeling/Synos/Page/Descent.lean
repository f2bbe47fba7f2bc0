import Synos.Page.Reserve

namespace Synos.Page

open Synos.Data

/-! The descent of `pages_reserve` from a free block to its leftmost part, when
every hint on the way names the block that is split: each split is then one the
allocator would make. -/

/-- `opened` is `map` with `block` opened down to `order`. -/
structure Opening (map opened : BpaMap) (block : Block) (order : Nat) :
    Prop where
  wellFormed : opened.WellFormed
  pages_eq : opened.pages = map.pages
  free_eq : opened.free = map.free.opened block order
  below : ∀ other < order,
    opened.pagesFree other = map.pagesFree other ∧
      opened.nextFreePage other = map.nextFreePage other
  hint : opened.nextFreePage order = (block.leftmost order).index

/-- The hints of the orders below `block` do not lead the descent astray: no
free block of these orders lies before it, and an order is empty only if the
block is the first of the region. -/
structure BpaMap.Guides (map : BpaMap) (block : Block) : Prop where
  hint : map.nextFreePage block.order = block.index
  after : ∀ other ∈ map.free, other.order < block.order →
    (block.leftmost other.order).index < other.index
  stocked : ∀ order < block.order, map.pagesFree order = 0 → block.index = 0

section

variable {map opened : BpaMap} {block : Block} {order : Nat}

theorem Opening.start (hmap : map.WellFormed) (hfree : block ∈ map.free)
    (hguides : map.Guides block) : Opening map map block block.order := by
  refine ⟨hmap, rfl, ?_, fun _ _ => ⟨rfl, rfl⟩, ?_⟩
  · exact (Family.opened_self hfree).symm
  · rw [Block.leftmost_self]
    exact hguides.hint

theorem Opening.leftmost_free (hopening : Opening map opened block order) :
    block.leftmost order ∈ opened.free := by
  rw [hopening.free_eq]
  exact Family.leftmost_mem_opened

theorem leftmost_lowest (hguides : map.Guides block)
    (hlt : order < block.order) (hfamily : opened.free =
      map.free.opened block order) (horder : order < maxOrder) {index : Nat}
    (hindex : index < (block.leftmost order).index) :
    opened.freeArea order index = true := by
  by_contra hclear
  have hmem : (⟨order, index⟩ : Block) ∈ opened.free :=
    ⟨horder, by simpa using hclear⟩
  rw [hfamily] at hmem
  cases hmem with
  | inl hold =>
      have := hguides.after _ hold.1 hlt
      simp only at this
      omega
  | inr hnew =>
      cases hnew with
      | inl hchip =>
          obtain ⟨-, -, heq⟩ := hchip
          simp only [Block.leftmost] at *
          omega
      | inr hleft =>
          have heq := congrArg Block.index hleft
          simp only at heq
          omega

theorem Opening.step (hmap : map.WellFormed) (hfree : block ∈ map.free)
    (hguides : map.Guides block) (hlt : order < block.order)
    (hopening : Opening map opened block (order + 1)) :
    Opening map
      (zblockSplit opened (order + 1) (block.leftmost (order + 1)).index)
      block order := by
  have htop : order + 1 < maxOrder := by
    have := hfree.1
    omega
  have hleft := hopening.leftmost_free
  have hbelow := hopening.below order (Nat.lt_succ_self order)
  have hsplit : zblockSplit opened (order + 1)
      (block.leftmost (order + 1)).index = splitNextFree opened (order + 1) := by
    rw [zblockSplit_of_free (Nat.succ_pos _) htop hleft.2]
    apply zsplitBlock_eq_splitNextFree (Nat.succ_pos _) hopening.hint
    intro hempty
    rw [show order.succ - 1 = order from rfl, hbelow.1] at hempty
    have hzero := hguides.stocked order hlt hempty
    simp [Block.leftmost, hzero]
  have hcount := hopening.wellFormed.count_pos hleft
  have hwell := splitNextFree_wellFormed hopening.wellFormed (Nat.succ_pos order)
    htop hcount
  have hfamily : (splitNextFree opened (order + 1)).free =
      map.free.opened block order := by
    rw [splitNextFree_free _ htop, hopening.hint,
      ← Family.opened_split hmap.apart hfree hlt, hopening.free_eq]
    rfl
  rw [hsplit]
  refine ⟨hwell, ?_, hfamily, ?_, ?_⟩
  · rw [splitNextFree_pages]
    exact hopening.pages_eq
  · intro other hother
    have hslots := splitNextFree_slots_of_ne opened
      (show other ≠ order + 1 by omega) (show other ≠ order + 1 - 1 by omega)
    have hcountEq := congrArg FreeSlots.count hslots
    have hhintEq := congrArg FreeSlots.hint hslots
    have hold := hopening.below other (by omega)
    exact ⟨hcountEq.trans hold.1, hhintEq.trans hold.2⟩
  · have hmem : block.leftmost order ∈
        (splitNextFree opened (order + 1)).free := by
      rw [hfamily]
      exact Family.leftmost_mem_opened
    exact (hwell.slots_sound order (by omega)).hint_unique hmem.2
      (fun index hindex =>
        leftmost_lowest hguides hlt hfamily (by omega) hindex)

theorem splitDown_opening (hmap : map.WellFormed) (hfree : block ∈ map.free)
    (hguides : map.Guides block) (horder : order ≤ block.order) :
    Opening map (splitDown map order block.order block.index) block order :=
  @splitDown_rule block order (fun opened => Opening map opened block)
    (fun _ _ hlt hopening => hopening.step hmap hfree hguides hlt) map
    (Opening.start hmap hfree hguides) horder

end

end Synos.Page

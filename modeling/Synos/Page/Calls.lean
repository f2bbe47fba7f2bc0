import Synos.Page.Return
import Mathlib.Data.List.Pairwise

namespace Synos.Page

open Synos.Data

/-! Runs of `pages_alloc` and `pages_free` on one region.  The session remembers
which blocks have been handed out and not freed since. -/

structure Grant where
  address : Nat
  order : Nat
  deriving DecidableEq, Repr

structure Session (Map : Type := BpaMap) where
  region : Region Map
  live : List Grant

inductive Call
  | alloc (order : Nat)
  | free (grant : Grant)
  deriving DecidableEq, Repr

def callMachine : Machine Fault Session Call where
  step session
    | .alloc order =>
        match pagesAlloc session.region order with
        | .error fault => .error fault
        | .ok (address, region) =>
            .ok ⟨region, if address = 0 then session.live
              else ⟨address, order⟩ :: session.live⟩
    | .free grant =>
        match pagesFree session.region grant.address grant.order with
        | .error fault => .error fault
        | .ok region => .ok ⟨region, session.live.erase grant⟩

/-- Orders are orders of the allocator, and a free names a live block. -/
def Call.Legal {Map : Type} (session : Session Map) : Call → Prop
  | .alloc order => order < maxOrder
  | .free grant => grant ∈ session.live

instance {Map : Type} (session : Session Map) :
    DecidablePred (Call.Legal session)
  | .alloc order => inferInstanceAs (Decidable (order < maxOrder))
  | .free grant => inferInstanceAs (Decidable (grant ∈ session.live))

/-- The call does not free a block at an offset in the wrong unit, nor leave the
hint of order zero pointing below the page it frees. -/
def Call.Exact (session : Session) : Call → Prop
  | .alloc _ => True
  | .free grant =>
      grant.address = session.region.start ∨
        grant.order = 0 ∧
          (0 < session.region.map.pagesFree 0 ∨
            session.region.offsetOf grant.address ≤
              session.region.map.nextFreePage 0)

instance (session : Session) : DecidablePred (Call.Exact session)
  | .alloc _ => inferInstanceAs (Decidable True)
  | .free _ => inferInstanceAs (Decidable (_ ∨ _))

def Grant.stop (grant : Grant) : Nat :=
  grant.address + blockOrderSize grant.order

def Grant.Disjoint (first second : Grant) : Prop :=
  first.stop ≤ second.address ∨ second.stop ≤ first.address

instance : DecidableRel Grant.Disjoint :=
  fun _ _ => inferInstanceAs (Decidable (_ ∨ _))

/-! Grants are blocks of the region, seen by address. -/

def grantOf (start : Nat) (block : Block) : Grant :=
  ⟨start + pageSize * block.first, block.order⟩

theorem grantOf_injective (start : Nat) :
    Function.Injective (grantOf start) := by
  intro first second h
  have horder : first.order = second.order := congrArg Grant.order h
  have haddress : start + pageSize * first.first =
      start + pageSize * second.first := congrArg Grant.address h
  have hfirst : first.first = second.first :=
    Nat.eq_of_mul_eq_mul_left (show 0 < pageSize by decide) (by omega)
  apply Block.mem_unique (Block.first_mem first) _ horder
  rw [hfirst]
  exact Block.first_mem second

theorem grantOf_stop (start : Nat) (block : Block) :
    (grantOf start block).stop =
      start + pageSize * (block.first + 2 ^ block.order) := by
  simp only [Grant.stop, grantOf, blockOrderSize]
  ring

theorem grantOf_disjoint {start : Nat} {first second : Block}
    (hapart : first.Apart second) :
    (grantOf start first).Disjoint (grantOf start second) := by
  have hlow := hapart second.first
  have hhigh := hapart.symm first.first
  simp only [Block.mem_iff] at hlow hhigh
  have hfirst := Nat.two_pow_pos first.order
  have hsecond := Nat.two_pow_pos second.order
  have hseparate : first.first + 2 ^ first.order ≤ second.first ∨
      second.first + 2 ^ second.order ≤ first.first := by omega
  unfold Grant.Disjoint
  rw [grantOf_stop, grantOf_stop]
  cases hseparate with
  | inl hle =>
      exact .inl (Nat.add_le_add_left (Nat.mul_le_mul_left _ hle) _)
  | inr hle =>
      exact .inr (Nat.add_le_add_left (Nat.mul_le_mul_left _ hle) _)

/-! A region from which `blocks` are on loan. -/

structure Region.Lends (region : Region) (blocks : List Block) : Prop where
  wellFormed : region.map.WellFormed
  unlocked : region.lock = false
  space : region.Addressable
  held : ∀ block ∈ blocks, region.map.Held block
  apart : blocks.Pairwise Block.Apart

section

variable {region : Region} {blocks : List Block}

theorem Takes.held {order : Nat} {block : Block} {map : BpaMap}
    (htakes : Takes region order block map) (horder : order < maxOrder)
    (hmap : region.map.WellFormed) : map.Held block where
  order_lt := by
    rw [htakes.order_eq]
    exact horder
  inside := by
    rw [htakes.pages_eq]
    exact hmap.inside htakes.was_free
  not_free point hpoint hcovers := ((htakes.covers point).mp hcovers).2 hpoint

theorem Takes.keeps_held {order : Nat} {block other : Block} {map : BpaMap}
    (htakes : Takes region order block map) (hheld : region.map.Held other) :
    map.Held other :=
  hheld.keep htakes.pages_eq fun point _ hcovers =>
    ((htakes.covers point).mp hcovers).1

theorem Takes.lends (hlends : region.Lends blocks) {order : Nat}
    (horder : order < maxOrder) {block : Block} {map : BpaMap}
    (htakes : Takes region order block map) :
    (region.afterAlloc order map).Lends (block :: blocks) := by
  refine ⟨htakes.wellFormed, rfl, ?_, ?_, ?_⟩
  · have hspace := hlends.space
    unfold Region.Addressable at *
    simp only [Region.afterAlloc]
    rwa [htakes.pages_eq]
  · intro other hother
    cases hother with
    | head => exact htakes.held horder hlends.wellFormed
    | tail _ hother => exact htakes.keeps_held (hlends.held other hother)
  · rw [List.pairwise_cons]
    refine ⟨?_, hlends.apart⟩
    intro other hother
    exact (hlends.held other hother).apart_of_free htakes.was_free

instance : Std.Symm Block.Apart := ⟨fun _ _ h => h.symm⟩

theorem Region.Lends.apart_of_ne (hlends : region.Lends blocks)
    {first second : Block} (hfirst : first ∈ blocks) (hsecond : second ∈ blocks)
    (hne : first ≠ second) : first.Apart second :=
  hlends.apart.forall hfirst hsecond hne

theorem Region.Lends.nodup (hlends : region.Lends blocks) : blocks.Nodup :=
  hlends.apart.imp Block.Apart.ne

theorem Region.Lends.takeBack (hlends : region.Lends blocks) {block : Block}
    (hmem : block ∈ blocks)
    (hindex : block.order = 0 ∨ block.index = 0)
    (hhint : 0 < region.map.pagesFree block.order ∨
      block.index ≤ region.map.nextFreePage block.order) :
    Page.pagesFree region (region.address block) block.order =
        .ok { region with lock := true } ∨
      ∃ map, Page.pagesFree region (region.address block) block.order =
          .ok (region.afterFree block.order map) ∧
        map.pages = region.map.pages ∧
        (∀ point, map.free.Covers point ↔
          region.map.free.Covers point ∨ point ∈ block) ∧
        (region.afterFree block.order map).Lends (blocks.erase block) := by
  have hheld := hlends.held block hmem
  have hoffset : region.offsetOf (region.address block) = block.index := by
    rw [hlends.space.offsetOf_address hheld.inside,
      first_eq_index_iff.mpr hindex]
  by_cases hset : region.Contains (region.address block) ∧
      region.map.freeArea block.order
        (region.offsetOf (region.address block)) = true
  · right
    have hcall := pagesFree_of_set hlends.unlocked hset.1 hset.2
    have hpages : (returnBlock region.map block.order block.index).pages =
        region.map.pages := returnBlock_pages _ hheld.order_lt
    have hcovers := @returnBlock_covers region.map block.order block.index
      hheld.order_lt
    rw [hoffset] at hcall
    refine ⟨_, hcall, hpages, hcovers,
      returnBlock_wellFormed hlends.wellFormed hheld hhint, rfl, ?_, ?_, ?_⟩
    · have hspace := hlends.space
      unfold Region.Addressable at *
      simp only [Region.afterFree]
      rwa [hpages]
    · intro other hother
      rw [hlends.nodup.mem_erase_iff] at hother
      exact (hlends.held other hother.2).returned hpages hcovers
        (hlends.apart_of_ne hother.2 hmem hother.1)
    · exact hlends.apart.sublist List.erase_sublist
  · exact .inl (pagesFree_of_not_set hlends.unlocked hset)

end

end Synos.Page

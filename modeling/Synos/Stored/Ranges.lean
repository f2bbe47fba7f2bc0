import Synos.Page.BoundedRun
import Synos.Stored.Init
import Mathlib.Logic.Relation

namespace Synos.Stored

open Synos.Data
open Synos.Page

/-! No function on the bytes of memory moves a region or changes its size or its
attributes. -/

section

variable {region after : Region StoredMap} {order offset address mbp : Nat}

theorem spinlockLock_same {Map : Type} {region held : Region Map}
    (hlock : spinlockLock region = .ok held) : held.Same region := by
  unfold spinlockLock at hlock
  split at hlock <;> cases hlock
  exact ⟨rfl, rfl, rfl⟩

theorem blockSplit_same (region : Region StoredMap) (order : Nat) :
    (blockSplit region order).Same region := by
  fun_induction blockSplit region order with
  | case1 => exact .refl _
  | case2 => exact ⟨rfl, rfl, rfl⟩
  | case3 => exact ⟨rfl, rfl, rfl⟩
  | case4 _ _ _ _ _ _ ih => exact ⟨ih.start_eq, ih.size_eq, ih.attrib_eq⟩
  | case5 _ _ _ _ _ _ ih => exact ⟨ih.start_eq, ih.size_eq, ih.attrib_eq⟩

theorem allocNextFree_same (region : Region StoredMap) (order : Nat) :
    (allocNextFree region order).2.Same region := by
  rw [allocNextFree_eq]
  exact ⟨rfl, rfl, rfl⟩

theorem pagesAlloc_same
    (hcall : pagesAlloc region order = .ok (address, after)) :
    after.Same region := by
  unfold pagesAlloc at hcall
  split at hcall
  · cases hcall
    exact .refl _
  · split at hcall
    · cases hcall
    · next held hlock =>
        have hheld := spinlockLock_same hlock
        have hsplit := (blockSplit_same held (order + 1)).trans hheld
        simp only at hcall
        split_ifs at hcall <;> cases hcall
        · exact (allocNextFree_same _ _).trans hheld
        · exact ⟨hheld.start_eq, hheld.size_eq, hheld.attrib_eq⟩
        · exact ⟨hsplit.start_eq, hsplit.size_eq, hsplit.attrib_eq⟩
        · exact (allocNextFree_same _ _).trans hsplit

theorem regionMap_same {memory : Memory} {region : Region Nat}
    {pages sb pageent : Nat}
    (hcall : regionMap memory region pages sb pageent = .ok after) :
    after.Same region := by
  unfold regionMap at hcall
  split at hcall <;> cases hcall
  next held hlock =>
    have hheld := spinlockLock_same hlock
    exact ⟨hheld.start_eq, hheld.size_eq, hheld.attrib_eq⟩

theorem pagesReserve_same
    (hcall : pagesReserve region order offset = .ok (address, after)) :
    after.Same region := by
  unfold pagesReserve at hcall
  split at hcall
  · cases hcall
  · next held hlock =>
      have hheld := spinlockLock_same hlock
      simp only at hcall
      split at hcall <;> cases hcall <;>
        exact ⟨hheld.start_eq, hheld.size_eq, hheld.attrib_eq⟩

/-- Both parts of `mem_p_protect` reserve a block or do nothing. -/
theorem protect_same {p : Prop} [Decidable p]
    (hcall : (if p then
        match pagesReserve region order offset with
        | .error fault => .error fault
        | .ok (_, region) => .ok region
      else .ok region) = Except.ok after) : after.Same region := by
  split at hcall
  · split at hcall
    · cases hcall
    · next reply hreply =>
        cases hcall
        exact pagesReserve_same hreply
  · cases hcall
    exact .refl _

theorem memPProtect_same (hcall : memPProtect region mbp = .ok after) :
    after.Same region := by
  unfold memPProtect at hcall
  split at hcall
  · cases hcall
  · next middle hlow =>
      rw [protectLow] at hlow
      rw [protectInfo] at hcall
      exact (protect_same hcall).trans (protect_same hlow)

end

/-! The chain. -/

/-- `vpages_map` takes single pages for page tables and writes to memory. -/
def OnlyAllocates (vpagesMap : StoredSystem → (paddress order : Nat) →
    Except Fault StoredSystem) : Prop :=
  ∀ system paddress order next, vpagesMap system paddress order = .ok next →
    Relation.ReflTransGen
      (fun before after => (∃ address, allocPage before = .ok (address, after)) ∨
        ∃ memory, after = { before with memory := memory }) system next

section

variable {Other : Type} {system next : StoredSystem}
  {initial : List (Region Other)} {index order address mbp : Nat}

theorem StoredSystem.same_put (hsystem : system.Same initial)
    {before : Region Nat} (hbefore : system.regions[index]? = some before)
    {after : Region StoredMap} (hsame : after.Same before) :
    (system.put index after).Same initial :=
  hsystem.set hbefore
    (show Region.Same (withMap after after.map.address) before from
      ⟨hsame.start_eq, hsame.size_eq, hsame.attrib_eq⟩)

theorem StoredSystem.same_alloc (hsystem : system.Same initial)
    {before : Region Nat} (hbefore : system.regions[index]? = some before)
    {after : Region StoredMap}
    (hcall : pagesAlloc (system.attach before) order = .ok (address, after)) :
    (system.put index after).Same initial := by
  have hafter := pagesAlloc_same hcall
  exact system.same_put hsystem hbefore
    ⟨hafter.start_eq, hafter.size_eq, hafter.attrib_eq⟩

theorem pagesAllocAt_same (hsystem : system.Same initial)
    (hcall : pagesAllocAt system index order = .ok (address, next)) :
    next.Same initial := by
  unfold pagesAllocAt at hcall
  split at hcall
  · cases hcall
  · next before hbefore =>
      split at hcall
      · cases hcall
      · next reply hreply =>
          cases hcall
          exact system.same_alloc hsystem hbefore hreply

theorem allocPage_same (hsystem : system.Same initial)
    (hcall : allocPage system = .ok (address, next)) : next.Same initial := by
  unfold allocPage at hcall
  split at hcall
  · cases hcall
    exact hsystem
  · split at hcall
    · cases hcall
    · split at hcall
      · cases hcall
      · next region hregion =>
          split at hcall
          · split at hcall
            · cases hcall
              exact hsystem.congr rfl
            · split at hcall
              · cases hcall
              · next other hother =>
                  split at hcall
                  · cases hcall
                  · next reply hreply =>
                      cases hcall
                      exact (system.same_alloc hsystem hother hreply).congr rfl
          · split at hcall
            · cases hcall
            · next reply hreply =>
                cases hcall
                exact system.same_alloc hsystem hregion hreply

theorem setUpRegion_same (hsystem : system.Same initial)
    {pages sb pageent : Nat}
    (hcall : setUpRegion mbp system index pages sb pageent = .ok next) :
    next.Same initial := by
  unfold setUpRegion at hcall
  split at hcall
  · cases hcall
  · next before hbefore =>
      split at hcall
      · cases hcall
      · next fresh hfresh =>
          split at hcall
          · cases hcall
          · next after hafter =>
              cases hcall
              exact system.same_put hsystem hbefore
                ((memPProtect_same hafter).trans (regionMap_same hfresh))

variable {vpagesMap : StoredSystem → (paddress order : Nat) →
  Except Fault StoredSystem} {paddress : Nat}

theorem OnlyAllocates.same (honly : OnlyAllocates vpagesMap)
    (hsystem : system.Same initial)
    (hcall : vpagesMap system paddress order = .ok next) :
    next.Same initial := by
  have hsteps := honly system paddress order next hcall
  clear hcall
  induction hsteps with
  | refl => exact hsystem
  | tail _ hstep ih =>
      rcases hstep with ⟨address, hcall⟩ | ⟨memory, rfl⟩
      · exact allocPage_same ih hcall
      · exact ih

theorem initRegion_same {chosen : Nat} (honly : OnlyAllocates vpagesMap)
    (hsystem : system.Same initial)
    (hround : initRegion vpagesMap mbp chosen system index = .ok next) :
    next.Same initial := by
  unfold initRegion at hround
  split at hround
  · cases hround
    exact hsystem
  · split at hround
    · cases hround
    · next region hregion =>
        simp only at hround
        split at hround
        · cases hround
          exact hsystem.set hregion ⟨rfl, rfl, rfl⟩
        · obtain ⟨⟨paSb, taken⟩, htaken, hround⟩ := bind_eq_ok.mp hround
          obtain ⟨⟨paTbl, both⟩, hboth, hround⟩ := bind_eq_ok.mp hround
          obtain ⟨mapped, hmapped, hround⟩ := bind_eq_ok.mp hround
          obtain ⟨ready, hready, hround⟩ := bind_eq_ok.mp hround
          exact setUpRegion_same (honly.same (honly.same (pagesAllocAt_same
            (pagesAllocAt_same hsystem htaken) hboth) hmapped) hready) hround

theorem rounds_same {chosen : Nat} (honly : OnlyAllocates vpagesMap)
    (hsystem : system.Same initial) {rounds : List Nat}
    (hrounds : rounds.foldlM (initRegion vpagesMap mbp chosen) system =
      .ok next) : next.Same initial := by
  induction rounds generalizing system with
  | nil =>
      cases hrounds
      exact hsystem
  | cons index rounds ih =>
      obtain ⟨middle, hround, hrest⟩ := bind_eq_ok.mp hrounds
      exact ih (initRegion_same honly hsystem hround) hrest

theorem ppageInit_same {regsb regst : Nat} {memory : Memory}
    {regions : List (Region Nat)} (honly : OnlyAllocates vpagesMap)
    (hinit : ppageInit vpagesMap mbp regsb regst memory regions = .ok system) :
    system.Same regions := by
  obtain ⟨chosen, region, first, last, -, -, -, -, hfirst, hlast, rfl⟩ :=
    ppageInit_ok hinit
  have hstart : PageSystem.Same ⟨regions, some chosen, false⟩ regions :=
    ⟨rfl, fun index region hregion => ⟨region, hregion, .refl region⟩⟩
  have hdone : last.Same regions :=
    rounds_same honly (setUpRegion_same hstart hfirst) hlast
  exact hdone.congr rfl

end

end Synos.Stored

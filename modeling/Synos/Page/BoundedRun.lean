import Synos.Page.Bounded
import Synos.Page.Spare

namespace Synos.Page

open Synos.Data

/-! The chain of regions: what is handed out lies in an accepted region. -/

/-- The regions are the ranges of memory they were at first. -/
structure PageSystem.Same {Map Other : Type} (system : PageSystem Map)
    (initial : List (Region Other)) : Prop where
  length_eq : system.regions.length = initial.length
  region : ∀ (index : Nat) (region : Region Map),
    system.regions[index]? = some region →
    ∃ first, initial[index]? = some first ∧ region.Same first

/-- The regions are those of the start, the accepted ones keep their blocks
inside, and the cursor stays on them. -/
structure PageSystem.Fenced {Other : Type} (system : PageSystem)
    (initial : List (Region Other)) : Prop where
  same : system.Same initial
  bounded : ∀ (index : Nat) (region : Region),
    system.regions[index]? = some region → region.Accepted → region.Bounded
  cursor : ∀ next, system.nextRegion = some next → system.Accepts next

/-- The block lies in one of the accepted regions. -/
def Grant.From {Map : Type} (grant : Grant) (initial : List (Region Map)) :
    Prop :=
  ∃ first ∈ initial, first.Accepted ∧ first.Has grant.address grant.order

section

variable {Map Other : Type} {system next : PageSystem Map}
  {initial : List (Region Other)} {index : Nat} {before after : Region Map}

theorem PageSystem.Same.congr (hsame : system.Same initial)
    (hregions : next.regions = system.regions) : next.Same initial := by
  obtain ⟨hlength, hregion⟩ := hsame
  rw [← hregions] at hlength hregion
  exact ⟨hlength, hregion⟩

theorem PageSystem.Same.set (hsystem : system.Same initial)
    (hbefore : system.regions[index]? = some before) (hsame : after.Same before) :
    (system.setRegion index after).Same initial where
  length_eq := (List.length_set ..).trans hsystem.length_eq
  region place region hregion := by
    rcases getElem?_set_cases hregion with ⟨rfl, rfl⟩ | ⟨-, hold⟩
    · obtain ⟨first, hfirst, hfirstSame⟩ :=
        hsystem.region place before hbefore
      exact ⟨first, hfirst, hsame.trans hfirstSame⟩
    · exact hsystem.region place region hold

theorem PageSystem.Same.accepts (hsystem : system.Same initial)
    {first : Region Other} (hfirst : initial[index]? = some first)
    (haccepted : first.Accepted) : system.Accepts index := by
  have hlt : index < system.regions.length :=
    hsystem.length_eq ▸ (List.getElem?_eq_some_iff.mp hfirst).1
  have hregion := List.getElem?_eq_getElem hlt
  obtain ⟨same, hsame, hregionSame⟩ := hsystem.region index _ hregion
  rw [hfirst] at hsame
  cases hsame
  exact ⟨_, hregion, hregionSame.accepted_iff.mpr haccepted⟩

theorem PageSystem.Accepts.set (hplace : system.Accepts index) {place : Nat}
    (hbefore : system.regions[place]? = some before)
    (hsame : after.Same before) :
    (system.setRegion place after).Accepts index := by
  obtain ⟨region, hregion, haccepted⟩ := hplace
  by_cases heq : index = place
  · subst heq
    obtain rfl := Option.some.inj (hregion.symm.trans hbefore)
    exact ⟨after, List.getElem?_set_self
      (List.getElem?_eq_some_iff.mp hregion).1,
      hsame.accepted_iff.mpr haccepted⟩
  · exact ⟨region, (List.getElem?_set_ne (Ne.symm heq)).trans hregion,
      haccepted⟩

end

section

variable {Other : Type} {system next : PageSystem}
  {initial : List (Region Other)} {index order address : Nat}
  {before after : Region}

theorem PageSystem.Fenced.set (hsystem : system.Fenced initial)
    (hbefore : system.regions[index]? = some before)
    (hsame : after.Same before) (hbounded : after.Accepted → after.Bounded) :
    (system.setRegion index after).Fenced initial where
  same := hsystem.same.set hbefore hsame
  bounded place region hregion haccepted := by
    rcases getElem?_set_cases hregion with ⟨rfl, rfl⟩ | ⟨-, hold⟩
    · exact hbounded haccepted
    · exact hsystem.bounded place region hold haccepted
  cursor next hnext := (hsystem.cursor next hnext).set hbefore hsame

theorem PageSystem.Fenced.moved (hsystem : system.Fenced initial)
    (hregions : next.regions = system.regions)
    (hcursor : ∀ cursor, next.nextRegion = some cursor →
      system.Accepts cursor) : next.Fenced initial where
  same := hsystem.same.congr hregions
  bounded := by
    rw [hregions]
    exact hsystem.bounded
  cursor cursor hnext := by
    rw [PageSystem.Accepts, hregions]
    exact hcursor cursor hnext

theorem PageSystem.Fenced.pagesAllocAt (hsystem : system.Fenced initial)
    (hplace : system.Accepts index)
    (hcall : pagesAllocAt system index order = .ok (address, next)) :
    next.Fenced initial ∧ next.Accepts index ∧
      (address ≠ 0 → Grant.From ⟨address, order⟩ initial) := by
  obtain ⟨before, after, hbefore, hreply, rfl⟩ := pagesAllocAt_eq_ok hcall
  obtain ⟨region, hregion, haccepted⟩ := hplace
  obtain rfl := Option.some.inj (hregion.symm.trans hbefore)
  have hsame := pagesAlloc_same hreply
  obtain ⟨hafter, hhas⟩ :=
    (hsystem.bounded index region hregion haccepted).pagesAlloc hreply
  obtain ⟨first, hfirst, hfirstSame⟩ := hsystem.same.region index region hregion
  refine ⟨hsystem.set hregion hsame fun _ => hafter,
    PageSystem.Accepts.set ⟨region, hregion, haccepted⟩ hregion hsame,
    fun hne => ?_⟩
  exact ⟨first, List.mem_of_getElem? hfirst,
    hfirstSame.accepted_iff.mp haccepted, hfirstSame.has_iff.mp (hhas hne)⟩

theorem pagesAllocAt_of_ok {region : Region} {reply : Nat × Region}
    (hregion : system.regions[index]? = some region)
    (hreply : pagesAlloc region order = .ok reply) :
    Page.pagesAllocAt system index order =
      .ok (reply.1, system.setRegion index reply.2) := by
  simp only [Page.pagesAllocAt, hregion, hreply]

theorem allocPage_cases (hcall : allocPage system = .ok (address, next)) :
    (address = 0 ∧ next.regions = system.regions ∧
      ∀ cursor, next.nextRegion = some cursor →
        system.nextRegion = some cursor) ∨
    ∃ found middle, Page.pagesAllocAt system found 0 = .ok (address, middle) ∧
      (system.nextRegion = some found ∨
        ∃ start, findFreeRegion system.regions start = some found) ∧
      next.regions = middle.regions ∧ next.nextRegion = some found := by
  unfold allocPage at hcall
  split at hcall
  · cases hcall
    exact .inl ⟨rfl, rfl, fun _ hcursor => hcursor⟩
  · split at hcall
    · cases hcall
    · next cursor hcursor =>
        split at hcall
        · cases hcall
        · next region hregion =>
            split at hcall
            · split at hcall
              · cases hcall
                refine .inl ⟨rfl, rfl, ?_⟩
                intro cursor hnone
                cases hnone
              · next found hfound =>
                  split at hcall
                  · cases hcall
                  · next other hother =>
                      split at hcall
                      · cases hcall
                      · next reply hreply =>
                          cases hcall
                          exact .inr ⟨found, _,
                            pagesAllocAt_of_ok hother hreply,
                            .inr ⟨_, hfound⟩, rfl, rfl⟩
            · split at hcall
              · cases hcall
              · next reply hreply =>
                  cases hcall
                  exact .inr ⟨cursor, _, pagesAllocAt_of_ok hregion hreply,
                    .inl hcursor, rfl, hcursor⟩

theorem PageSystem.Fenced.allocPage (hsystem : system.Fenced initial)
    (hcall : allocPage system = .ok (address, next)) :
    next.Fenced initial ∧
      (address ≠ 0 → Grant.From ⟨address, 0⟩ initial) := by
  rcases allocPage_cases hcall with
    ⟨rfl, hregions, hcursor⟩ | ⟨found, middle, hat, hfound, hregions, hcursor⟩
  · exact ⟨hsystem.moved hregions fun cursor hnext =>
      hsystem.cursor cursor (hcursor cursor hnext), fun hne => (hne rfl).elim⟩
  · have hplace : system.Accepts found := by
      rcases hfound with hnext | ⟨start, hfree⟩
      · exact hsystem.cursor found hnext
      · obtain ⟨-, ⟨region, hregion, haccepted, -⟩, -⟩ :=
          findFreeRegion_eq_some hfree
        exact ⟨region, hregion, haccepted⟩
    obtain ⟨hmiddle, haccepts, hlent⟩ := hsystem.pagesAllocAt hplace hat
    refine ⟨hmiddle.moved hregions fun cursor hnext => ?_, hlent⟩
    obtain rfl := Option.some.inj (hcursor.symm.trans hnext)
    exact haccepts

theorem PageSystem.Fenced.allocPagesFrom (hsystem : system.Fenced initial)
    {areg : Nat} (hplace : system.Accepts areg)
    (hcall : allocPagesFrom system order areg = .ok (address, next)) :
    next.Fenced initial ∧
      (address ≠ 0 → Grant.From ⟨address, order⟩ initial) := by
  fun_induction Page.allocPagesFrom system order areg with
  | case1 => cases hcall
  | case2 => cases hcall
  | case3 system areg region hregion after hnone hreply =>
      cases hcall
      obtain ⟨hafter, -, hlent⟩ :=
        hsystem.pagesAllocAt hplace (pagesAllocAt_of_ok hregion hreply)
      exact ⟨hafter, hlent⟩
  | case4 system areg region hregion after found hfound hreply ih =>
      obtain ⟨hafter, -, -⟩ :=
        hsystem.pagesAllocAt hplace (pagesAllocAt_of_ok hregion hreply)
      obtain ⟨-, ⟨other, hother, haccepted, -⟩, -⟩ :=
        findFreeRegion_eq_some hfound
      exact ih hafter ⟨other, hother, haccepted⟩ hcall
  | case5 system areg region hregion reply after hreply hne =>
      cases hcall
      obtain ⟨hafter, -, hlent⟩ :=
        hsystem.pagesAllocAt hplace (pagesAllocAt_of_ok hregion hreply)
      exact ⟨hafter, hlent⟩

theorem PageSystem.Fenced.allocPages (hsystem : system.Fenced initial)
    (hcall : allocPages system order = .ok (address, next)) :
    next.Fenced initial ∧
      (address ≠ 0 → Grant.From ⟨address, order⟩ initial) := by
  unfold Page.allocPages at hcall
  split at hcall
  · cases hcall
    exact ⟨hsystem, fun hne => (hne rfl).elim⟩
  · split at hcall
    · cases hcall
    · next areg hareg =>
        exact hsystem.allocPagesFrom (hsystem.cursor areg hareg) hcall

theorem freePages_same (hsystem : system.Same initial)
    (hcall : freePages system order address = .ok next) : next.Same initial := by
  unfold freePages at hcall
  cases hfind : findRegion system.regions address with
  | none =>
      rw [hfind] at hcall
      cases hcall
      exact hsystem
  | some index =>
      have hlt := findRegion_lt hfind
      have hregion := List.getElem?_eq_getElem hlt
      simp only [hfind, hregion] at hcall
      cases hreply : pagesFree system.regions[index] address order with
      | error fault =>
          rw [hreply] at hcall
          cases hcall
      | ok after =>
          rw [hreply] at hcall
          simp only at hcall
          split at hcall
          · cases hcall
          · split at hcall
            · cases hcall
            · cases hcall
              exact (hsystem.set hregion (pagesFree_same hreply)).congr rfl

end

/-- A call on a fenced chain lends blocks of its regions and moves none. -/
theorem systemMachine_within {Other : Type} {session next : SystemSession}
    {initial : List (Region Other)} (hsystem : session.system.Fenced initial)
    (hlive : ∀ grant ∈ session.live, grant.From initial) {call : SystemCall}
    (hstep : systemMachine.step session call = .ok next) :
    next.system.Same initial ∧ ∀ grant ∈ next.live, grant.From initial := by
  have hlend {system : PageSystem} {address order : Nat}
      (hfrom : address ≠ 0 → Grant.From ⟨address, order⟩ initial) :
      ∀ grant ∈ (SystemSession.lend system session.live address order).live,
        grant.From initial := by
    intro grant hgrant
    simp only [SystemSession.lend] at hgrant
    split at hgrant
    · exact hlive grant hgrant
    · next hne =>
        rcases List.mem_cons.mp hgrant with rfl | hold
        · exact hfrom hne
        · exact hlive grant hold
  have herase (freed : Grant) :
      ∀ grant ∈ session.live.erase freed, grant.From initial :=
    fun grant hgrant => hlive grant (List.mem_of_mem_erase hgrant)
  cases call with
  | allocPage =>
      simp only [systemMachine] at hstep
      split at hstep
      · cases hstep
      · next reply hcall =>
          cases hstep
          obtain ⟨hafter, hfrom⟩ := hsystem.allocPage hcall
          exact ⟨hafter.same, hlend hfrom⟩
  | allocPages order =>
      simp only [systemMachine] at hstep
      split at hstep
      · cases hstep
      · next reply hcall =>
          cases hstep
          obtain ⟨hafter, hfrom⟩ := hsystem.allocPages hcall
          exact ⟨hafter.same, hlend hfrom⟩
  | freePage page =>
      simp only [systemMachine, freePage] at hstep
      split at hstep
      · cases hstep
      · next system hcall =>
          cases hstep
          exact ⟨freePages_same hsystem.same hcall, herase _⟩
  | freePages grant =>
      simp only [systemMachine] at hstep
      split at hstep
      · cases hstep
      · next system hcall =>
          cases hstep
          exact ⟨freePages_same hsystem.same hcall, herase _⟩

end Synos.Page

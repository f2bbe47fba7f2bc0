import Synos.Page.SpareRun
import Mathlib.Data.List.Perm.Subperm

namespace Synos.Page

open Synos.Data

/-! What `alloc_page` answers when it is called again and again. -/

def answers (system : PageSystem) : (count : Nat) → Except Fault (List Nat)
  | 0 => .ok []
  | count + 1 =>
      match allocPage system with
      | .error fault => .error fault
      | .ok (address, system) =>
          (answers system count).map (address :: ·)

/-- It answers these pages, one after the other, and then zero for good. -/
def PageSystem.HandsOut (system : PageSystem) (pages : List Nat) : Prop :=
  ∀ count, answers system count =
    .ok ((pages ++ List.replicate count 0).take count)

/-- The address of a page that was free at first. -/
def PageSystem.Offers (system : PageSystem) (address : Nat) : Prop :=
  ∃ region ∈ system.regions, region.Accepted ∧
    ∃ page, region.map.free.Covers page ∧
      address = region.start + pageSize * page

def pageGrants (pages : List Nat) : List Grant :=
  pages.map fun address => ⟨address, 0⟩

section

variable {initial : PageSystem} {session : SystemSession}

theorem SystemSession.Keeps.spare_of_ne (hready : initial.Ready)
    (hkeeps : session.Keeps initial) {address : Nat} {system : PageSystem}
    (hcall : Page.allocPage session.system = .ok (address, system))
    (hne : address ≠ 0) :
    session.Spare initial ∧
      SystemSession.Keeps initial
        ⟨system, ⟨address, 0⟩ :: session.live⟩ := by
  obtain ⟨other, after, hother, -, hnext⟩ := hkeeps.allocPage hready
  rw [hcall] at hother
  obtain ⟨rfl, rfl⟩ := Prod.mk.inj (Except.ok.inj hother)
  rw [SystemSession.lend, if_neg hne] at hnext
  refine ⟨?_, hnext⟩
  obtain ⟨index, first, region, block, hon⟩ := hnext.lends _ (.head _)
  refine ⟨first, List.mem_of_getElem? hon.first_eq, hon.accepted, block.first,
    hon.was_free _ block.first_mem, ?_⟩
  intro grant hgrant
  apply ((List.pairwise_cons.mp hnext.disjoint).1 grant hgrant).not_holds
  rw [hon.grant_eq]
  exact grantOf_holds_iff.mpr block.first_mem

theorem SystemSession.Keeps.answers_none (hready : initial.Ready)
    (hkeeps : session.Keeps initial) (hnone : ¬ session.Spare initial)
    (count : Nat) :
    answers session.system count = .ok (List.replicate count 0) := by
  induction count generalizing session with
  | zero => rfl
  | succ count ih =>
      obtain ⟨address, system, hcall, -, hnext⟩ := hkeeps.allocPage hready
      by_cases hzero : address = 0
      · subst hzero
        rw [SystemSession.lend, if_pos rfl] at hnext
        rw [answers, hcall]
        simp only [ih hnext hnone]
        rfl
      · exact absurd (hkeeps.spare_of_ne hready hcall hzero).1 hnone

/-- Pages on loan do not overlap, so there are no more of them than pages in
the address space. -/
theorem SystemSession.Keeps.length_le (hready : initial.Ready)
    (hkeeps : session.Keeps initial) : session.live.length ≤ 2 ^ 52 := by
  have hlow : ∀ grant ∈ session.live,
      grant.address + 4096 ≤ grant.stop ∧ grant.stop ≤ 2 ^ 64 := by
    intro grant hgrant
    obtain ⟨index, first, region, block, hon⟩ := hkeeps.lends grant hgrant
    have hbounds := hkeeps.bounds hon
    have hspace := (hready.first_exact hon.first_eq hon.accepted).space
    have hpos := Nat.two_pow_pos grant.order
    rw [Grant.stop]
    simp only [Grant.stop, blockOrderSize, pageSize, wordSize] at *
    omega
  have hpages : (session.live.map fun grant => grant.address / 4096).Nodup := by
    rw [List.nodup_iff_pairwise_ne, List.pairwise_map]
    apply hkeeps.disjoint.imp_of_mem
    intro first second hfirst hsecond hdisjoint
    have hone := hlow first hfirst
    have htwo := hlow second hsecond
    simp only [Grant.Disjoint] at hdisjoint
    omega
  have hrange : (session.live.map fun grant => grant.address / 4096) ⊆
      List.range (2 ^ 52) := by
    intro page hpage
    obtain ⟨grant, hgrant, rfl⟩ := List.mem_map.mp hpage
    have hbound := hlow grant hgrant
    rw [List.mem_range]
    omega
  have hle := (List.subperm_of_subset hpages hrange).length_le
  rwa [List.length_map, List.length_range] at hle

theorem SystemSession.Keeps.block_of_holds (hready : initial.Ready)
    (hkeeps : session.Keeps initial) {grant : Grant}
    (hgrant : grant ∈ session.live) {place : Nat} {first : Region}
    (hfirst : initial.regions[place]? = some first)
    (haccepted : first.Accepted) {page : Nat}
    (hcovers : first.map.free.Covers page)
    (hholds : grant.Holds (first.start + pageSize * page)) :
    ∃ block, grant = grantOf first.start block ∧ page ∈ block := by
  obtain ⟨index, other, region, block, hon⟩ := hkeeps.lends grant hgrant
  by_cases hplace : place = index
  · subst hplace
    obtain rfl := Option.some.inj (hfirst.symm.trans hon.first_eq)
    refine ⟨block, hon.grant_eq, ?_⟩
    rw [← grantOf_holds_iff, ← hon.grant_eq]
    exact hholds
  · have hapart := hready.apart_of_ne hon.first_eq hfirst hplace
    have hbounds := hkeeps.bounds hon
    have hinside := hready.page_bounds hfirst haccepted hcovers
    simp only [Region.Apart, Grant.Holds] at *
    omega

theorem SystemSession.Keeps.handsOut (hready : initial.Ready)
    {room : Nat} (hkeeps : session.Keeps initial)
    (hroom : session.live.length + room = 2 ^ 52 + 1) :
    ∃ pages last, session.system.HandsOut pages ∧
      SystemSession.Keeps initial
        ⟨last, (pageGrants pages).reverse ++ session.live⟩ ∧
      ¬ SystemSession.Spare initial
        ⟨last, (pageGrants pages).reverse ++ session.live⟩ := by
  induction room generalizing session with
  | zero =>
      have hle := hkeeps.length_le hready
      omega
  | succ room ih =>
      obtain ⟨address, system, hcall, hnone, hnext⟩ := hkeeps.allocPage hready
      by_cases hzero : address = 0
      · refine ⟨[], session.system, ?_, hkeeps, hnone hzero⟩
        intro count
        rw [hkeeps.answers_none hready (hnone hzero), List.nil_append,
          List.take_of_length_le (by simp)]
      · have hlent := (hkeeps.spare_of_ne hready hcall hzero).2
        obtain ⟨pages, last, hpages, hlast, hspare⟩ := ih hlent (by
          simp only [List.length_cons]
          omega)
        have hlive : (pageGrants (address :: pages)).reverse ++ session.live =
            (pageGrants pages).reverse ++ (⟨address, 0⟩ :: session.live) := by
          simp [pageGrants]
        refine ⟨address :: pages, last, ?_, hlive ▸ hlast, hlive ▸ hspare⟩
        intro count
        cases count with
        | zero => rfl
        | succ count =>
            have hrest : answers system count = _ := hpages count
            have htail : (pages ++ List.replicate (count + 1) 0).take count =
                (pages ++ List.replicate count 0).take count := by
              rw [List.replicate_succ', ← List.append_assoc,
                List.take_append_of_le_length (by simp)]
            rw [answers, hcall, List.cons_append, List.take_succ_cons, htail]
            simp only [hrest]
            rfl

end

/-- `alloc_page` hands out every page that is free at first, once each, before
it answers zero. -/
theorem PageSystem.Ready.exists_handsOut {system : PageSystem}
    (hready : system.Ready) (hpointed : system.Pointed) :
    ∃ pages, system.HandsOut pages ∧
      pages.Pairwise (fun address other => address + pageSize ≤ other ∨
        other + pageSize ≤ address) ∧
      ∀ address, address ∈ pages ↔ system.Offers address := by
  obtain ⟨pages, last, hpages, hlast, hspare⟩ :=
    (hready.keeps hpointed).handsOut hready
      (show 0 + (2 ^ 52 + 1) = 2 ^ 52 + 1 by omega)
  rw [List.append_nil] at hlast hspare
  have hlive : ∀ grant, grant ∈ (pageGrants pages).reverse ↔
      ∃ address ∈ pages, (⟨address, 0⟩ : Grant) = grant := by
    intro grant
    rw [List.mem_reverse, pageGrants, List.mem_map]
  refine ⟨pages, hpages, ?_, ?_⟩
  · have hdisjoint := hlast.disjoint
    simp only [pageGrants, List.pairwise_reverse, List.pairwise_map]
      at hdisjoint
    apply hdisjoint.imp
    intro address other h
    simp only [Grant.Disjoint, Grant.stop, blockOrderSize, pageSize,
      Nat.pow_zero, Nat.mul_one] at h ⊢
    omega
  · intro address
    constructor
    · intro hmem
      obtain ⟨index, first, region, block, hon⟩ :=
        hlast.lends ⟨address, 0⟩ ((hlive _).mpr ⟨address, hmem, rfl⟩)
      exact ⟨first, List.mem_of_getElem? hon.first_eq, hon.accepted,
        block.first, hon.was_free _ block.first_mem,
        congrArg Grant.address hon.grant_eq⟩
    · rintro ⟨region, hregion, haccepted, page, hcovers, rfl⟩
      obtain ⟨place, hplace⟩ := List.mem_iff_getElem?.mp hregion
      by_contra hmissing
      apply hspare
      refine ⟨region, hregion, haccepted, page, hcovers, ?_⟩
      intro grant hgrant hholds
      obtain ⟨block, hblock, hmem⟩ := hlast.block_of_holds hready hgrant hplace
        haccepted hcovers hholds
      obtain ⟨address, haddress, rfl⟩ := (hlive grant).mp hgrant
      have horder : block.order = 0 := (congrArg Grant.order hblock).symm
      have hstart : address = region.start + pageSize * block.first :=
        congrArg Grant.address hblock
      rw [Block.mem_iff, horder, Nat.pow_zero] at hmem
      have hpage : page = block.first := by omega
      apply hmissing
      rw [hpage, ← hstart]
      exact haddress

end Synos.Page

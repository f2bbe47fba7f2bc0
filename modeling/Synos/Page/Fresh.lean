import Synos.Page.CallRun
import Mathlib.Data.List.Perm.Subperm

namespace Synos.Page

open Synos.Data

/-! Allocation alone: a page is free exactly while it has not been handed out,
and no two free buddies are ever left unjoined. -/

structure Session.Exhaustive (session : Session) (start pages : Nat)
    (blocks : List Block) : Prop where
  tracks : session.Tracks start pages blocks
  coalesced : session.region.map.free.Coalesced (maxOrder - 1)
  covers : ∀ point, session.region.map.free.Covers point ↔
    point < pages ∧ ∀ block ∈ blocks, point ∉ block

/-- No byte of the grant has been handed out. -/
def Session.Unallocated (session : Session) (grant : Grant) : Prop :=
  ∀ other ∈ session.live, grant.Disjoint other

theorem apart_of_grantOf_disjoint {start : Nat} {first second : Block}
    (hdisjoint : (grantOf start first).Disjoint (grantOf start second)) :
    first.Apart second := by
  intro point hfirst hsecond
  rw [Block.mem_iff] at hfirst hsecond
  unfold Grant.Disjoint at hdisjoint
  rw [grantOf_stop, grantOf_stop] at hdisjoint
  simp only [grantOf, pageSize] at hdisjoint
  omega

theorem regionMap_exhaustive {region fresh : Region} {pages : Nat}
    (hspace : region.start + pages * pageSize ≤ wordSize)
    (hfresh : regionMap region pages = .ok fresh) :
    Session.Exhaustive ⟨fresh, []⟩ region.start pages [] := by
  refine ⟨regionMap_tracks hspace hfresh, ?_, ?_⟩ <;>
  · cases hlock : region.lock with
    | true => simp [regionMap, spinlockLock, hlock] at hfresh
    | false =>
        rw [regionMap_eq region pages hlock] at hfresh
        cases hfresh
        first
        | exact partitionMap_coalesced pages
        | simp [partitionMap_covers]

section

variable {session : Session} {start pages order : Nat} {blocks : List Block}

theorem Session.Exhaustive.serves
    (hsession : session.Exhaustive start pages blocks)
    (horder : order < maxOrder) {index : Nat}
    (hinside : (index + 1) * 2 ^ order ≤ pages)
    (hapart : ∀ block ∈ blocks, Block.Apart ⟨order, index⟩ block) :
    ∃ other, order ≤ other ∧ other < maxOrder ∧
      session.region.map.pagesFree other ≠ 0 := by
  have hcovered : ∀ point ∈ (⟨order, index⟩ : Block),
      session.region.map.free.Covers point := by
    intro point hpoint
    rw [hsession.covers]
    refine ⟨?_, fun block hblock => hapart block hblock point hpoint⟩
    rw [Block.mem_iff, Block.first] at hpoint
    rw [Nat.add_mul, Nat.one_mul] at hinside
    simp only at hpoint
    omega
  obtain ⟨block, hfree, hle, -⟩ :=
    hsession.coalesced.exists_superset ⟨order, index⟩
      (by simp only; omega) hcovered
  have hcount := hsession.tracks.lends.wellFormed.count_pos hfree
  exact ⟨block.order, hle, hfree.1, by omega⟩

/-- One allocation: either every run of the size is broken and it returns zero,
or it returns a run that was unallocated. -/
theorem Session.Exhaustive.alloc
    (hsession : session.Exhaustive start pages blocks) (hstart : 0 < start)
    (horder : order < maxOrder) :
    (pagesAlloc session.region order = .ok (0, outOfMem session.region) ∧
      callMachine.step session (.alloc order) =
        .ok ⟨outOfMem session.region, session.live⟩ ∧
      Session.Exhaustive ⟨outOfMem session.region, session.live⟩ start pages
        blocks ∧
      ∀ index, (index + 1) * 2 ^ order ≤ pages →
        ∃ block ∈ blocks, ¬ Block.Apart ⟨order, index⟩ block) ∨
    ∃ block next, block.order = order ∧
      (block.index + 1) * 2 ^ order ≤ pages ∧
      pagesAlloc session.region order =
        .ok ((grantOf start block).address, next.region) ∧
      callMachine.step session (.alloc order) = .ok next ∧
      session.MayGrant start pages (grantOf start block) ∧
      next.Exhaustive start pages (block :: blocks) := by
  have htracks := hsession.tracks
  cases htracks.alloc_cases horder with
  | inl hempty =>
      left
      refine ⟨hempty.2.1, hempty.1, ⟨⟨htracks.start_eq, htracks.pages_eq,
        htracks.lends.outOfMem, htracks.live_eq⟩, hsession.coalesced,
        hsession.covers⟩, ?_⟩
      intro index hinside
      by_contra hnone
      obtain ⟨other, hle, hlt, hne⟩ := hsession.serves horder hinside (by
        intro block hblock
        by_contra hmeet
        exact hnone ⟨block, hblock, hmeet⟩)
      exact hne (hempty.2.2 other hle hlt)
  | inr htakes =>
      right
      obtain ⟨block, map, htakes, hcall, hstep⟩ := htakes
      have hinside := htracks.lends.wellFormed.inside htakes.was_free
      rw [htakes.order_eq, htracks.pages_eq] at hinside
      have hne : (grantOf start block).address ≠ 0 := by
        simp only [grantOf]
        omega
      rw [if_neg hne] at hstep
      refine ⟨block, _, htakes.order_eq, hinside, hcall, hstep,
        htracks.mayGrant htakes.was_free, ⟨htracks.start_eq,
          htakes.pages_eq.trans htracks.pages_eq,
          htakes.lends htracks.lends horder, ?_⟩,
        htakes.coalesced hsession.coalesced, ?_⟩
      · simp only
        rw [htracks.live_eq]
        rfl
      · intro point
        refine (htakes.covers point).trans ?_
        rw [hsession.covers, List.forall_mem_cons]
        constructor
        · intro h
          exact ⟨h.1.1, h.2, h.1.2⟩
        · intro h
          exact ⟨⟨h.1, h.2.2⟩, h.2.1⟩

theorem Session.Exhaustive.reply
    (hsession : session.Exhaustive start pages blocks) (hstart : 0 < start)
    (horder : order < maxOrder) :
    ∃ address after,
      pagesAlloc session.region order = .ok (address, after) ∧
      (address ≠ 0 → session.MayGrant start pages ⟨address, order⟩) ∧
      (address = 0 ↔ ∀ index, (index + 1) * 2 ^ order ≤ pages →
        ¬ session.Unallocated (grantOf start ⟨order, index⟩)) := by
  have hlive := hsession.tracks.live_eq
  cases hsession.alloc hstart horder with
  | inl hnone =>
      obtain ⟨hcall, -, -, hbroken⟩ := hnone
      refine ⟨0, _, hcall, fun h => (h rfl).elim, fun _ => ?_, fun _ => rfl⟩
      intro index hinside hunallocated
      obtain ⟨block, hblock, hmeet⟩ := hbroken index hinside
      apply hmeet
      apply apart_of_grantOf_disjoint
      apply hunallocated
      rw [hlive]
      exact List.mem_map_of_mem hblock
  | inr hsome =>
      obtain ⟨block, next, horderEq, hinside, hcall, -, hmay, -⟩ := hsome
      have hgrant : grantOf start block =
          ⟨(grantOf start block).address, order⟩ := by
        rw [← horderEq]
        rfl
      refine ⟨_, _, hcall, fun _ => hgrant ▸ hmay, ?_, ?_⟩
      · intro hzero
        simp only [grantOf] at hzero
        omega
      · intro hbroken
        have hsame : (⟨order, block.index⟩ : Block) = block := by
          rw [← horderEq]
        have hmeet := hbroken block.index hinside
        rw [hsame] at hmeet
        exact (hmeet hmay.disjoint).elim

end

theorem run_allocs_exhaustive {start pages : Nat} (hstart : 0 < start)
    {orders : List Nat} (horders : ∀ order ∈ orders, order < maxOrder)
    {session : Session} {blocks : List Block}
    (hsession : session.Exhaustive start pages blocks) :
    ∃ last, callMachine.run session (orders.map .alloc) = .ok last ∧
      ∃ loans, last.Exhaustive start pages loans := by
  induction orders generalizing session blocks with
  | nil => exact ⟨session, rfl, blocks, hsession⟩
  | cons order orders ih =>
      have hnext : ∃ next,
          callMachine.step session (.alloc order) = .ok next ∧
            ∃ loans, next.Exhaustive start pages loans := by
        cases hsession.alloc hstart (horders order (.head _)) with
        | inl hnone => exact ⟨_, hnone.2.1, blocks, hnone.2.2.1⟩
        | inr hsome =>
            obtain ⟨block, next, -, -, -, hstep, -, hafter⟩ := hsome
            exact ⟨next, hstep, _, hafter⟩
      obtain ⟨next, hstep, loans, hloans⟩ := hnext
      obtain ⟨last, hrun, hlast⟩ :=
        ih (fun other hother => horders other (.tail _ hother)) hloans
      exact ⟨last, Machine.run_cons_ok.mpr ⟨next, hstep, hrun⟩, hlast⟩

/-! Single pages. -/

theorem exists_page_left {pages : Nat} {blocks : List Block}
    (hlt : blocks.length < pages) (hzero : ∀ block ∈ blocks, block.order = 0) :
    ∃ page < pages, ∀ block ∈ blocks, Block.Apart ⟨0, page⟩ block := by
  by_contra hnone
  have hsub : List.range pages ⊆ blocks.map Block.index := by
    intro page hpage
    rw [List.mem_range] at hpage
    by_contra hmissing
    apply hnone
    refine ⟨page, hpage, ?_⟩
    intro block hblock point hpoint hmem
    apply hmissing
    have hsame := Block.mem_unique hpoint hmem (hzero block hblock).symm
    rw [List.mem_map]
    exact ⟨block, hblock, by rw [← hsame]⟩
  have hle := (List.subperm_of_subset List.nodup_range hsub).length_le
  rw [List.length_range, List.length_map] at hle
  omega

theorem run_page_allocs {start pages : Nat} (hstart : 0 < start)
    {session : Session} (hsession : session.Exhaustive start pages [])
    {count : Nat} (hcount : count ≤ pages) :
    ∃ last blocks,
      callMachine.run session (List.replicate count (.alloc 0)) = .ok last ∧
      last.Exhaustive start pages blocks ∧ blocks.length = count ∧
      ∀ block ∈ blocks, block.order = 0 := by
  induction count with
  | zero => exact ⟨session, [], rfl, hsession, rfl, fun _ h => absurd h List.not_mem_nil⟩
  | succ count ih =>
      obtain ⟨last, blocks, hrun, hlast, hlength, hzero⟩ := ih (by omega)
      obtain ⟨page, hpage, hleft⟩ :=
        exists_page_left (by omega : blocks.length < pages) hzero
      cases hlast.alloc hstart (show 0 < maxOrder by decide) with
      | inl hnone =>
          obtain ⟨block, hblock, hmeet⟩ := hnone.2.2.2 page (by omega)
          exact (hmeet (hleft block hblock)).elim
      | inr hsome =>
          obtain ⟨block, next, horder, -, -, hstep, -, hnext⟩ := hsome
          refine ⟨next, block :: blocks, ?_, hnext, by simp [hlength], ?_⟩
          · rw [List.replicate_succ', Machine.run_append_ok]
            exact ⟨last, hrun, Machine.run_cons_ok.mpr ⟨next, hstep, rfl⟩⟩
          · rw [List.forall_mem_cons]
            exact ⟨horder, hzero⟩

theorem Session.Tracks.pages_distinct {session : Session} {start pages : Nat}
    {blocks : List Block} (htracks : session.Tracks start pages blocks)
    (hzero : ∀ block ∈ blocks, block.order = 0) :
    (blocks.map Block.index).Subperm (List.range pages) := by
  have hsame : ∀ first ∈ blocks, ∀ second ∈ blocks,
      first.index = second.index → first = second := by
    intro first hfirst second hsecond hindex
    have hf := hzero first hfirst
    have hs := hzero second hsecond
    cases first
    cases second
    simp_all
  apply List.subperm_of_subset
  · exact List.Nodup.map_on hsame htracks.lends.nodup
  · intro index hindex
    rw [List.mem_map] at hindex
    obtain ⟨block, hblock, rfl⟩ := hindex
    have hinside := (htracks.lends.held block hblock).inside
    rw [hzero block hblock, htracks.pages_eq] at hinside
    rw [List.mem_range]
    omega

theorem Session.Tracks.all_pages {session : Session} {start pages : Nat}
    {blocks : List Block} (htracks : session.Tracks start pages blocks)
    (hlength : blocks.length = pages)
    (hzero : ∀ block ∈ blocks, block.order = 0) :
    (session.live.map Grant.address).Perm
      ((List.range pages).map fun page => start + page * pageSize) := by
  have hperm : (blocks.map Block.index).Perm (List.range pages) := by
    apply (htracks.pages_distinct hzero).perm_of_length_le
    simp [hlength]
  have haddress : session.live.map Grant.address =
      (blocks.map Block.index).map fun page => start + page * pageSize := by
    rw [htracks.live_eq, List.map_map, List.map_map]
    apply List.map_congr_left
    intro block hblock
    simp [grantOf, Block.first, hzero block hblock, Nat.mul_comm]
  rw [haddress]
  exact hperm.map _

/-- Allocation from a fresh region is sound and complete, and single pages
exhaust it. -/
theorem run_allocs_sound_complete {region fresh : Region} {pages : Nat}
    (hstart : 0 < region.start)
    (hspace : region.start + pages * pageSize ≤ wordSize)
    (hfresh : regionMap region pages = .ok fresh) :
    (∀ orders : List Nat, (∀ order ∈ orders, order < maxOrder) →
      ∃ session,
        callMachine.run ⟨fresh, []⟩ (orders.map .alloc) = .ok session ∧
        ∀ order < maxOrder, ∃ address after,
          pagesAlloc session.region order = .ok (address, after) ∧
          (address ≠ 0 →
            session.MayGrant region.start pages ⟨address, order⟩) ∧
          (address = 0 ↔ ∀ index, (index + 1) * 2 ^ order ≤ pages →
            ¬ session.Unallocated
              (grantOf region.start ⟨order, index⟩))) ∧
    ∃ session after,
      callMachine.run ⟨fresh, []⟩ (List.replicate pages (.alloc 0)) =
        .ok session ∧
      (session.live.map Grant.address).Perm
        ((List.range pages).map fun page =>
          region.start + page * pageSize) ∧
      pageAlloc session.region = .ok (0, after) := by
  have hinit := regionMap_exhaustive hspace hfresh
  refine ⟨?_, ?_⟩
  · intro orders horders
    obtain ⟨session, hrun, blocks, hsession⟩ :=
      run_allocs_exhaustive hstart horders hinit
    exact ⟨session, hrun, fun order horder => hsession.reply hstart horder⟩
  · obtain ⟨session, blocks, hrun, hsession, hlength, hzero⟩ :=
      run_page_allocs hstart hinit (Nat.le_refl pages)
    have hperm := hsession.tracks.all_pages hlength hzero
    refine ⟨session, outOfMem session.region, hrun, hperm, ?_⟩
    cases hsession.alloc hstart (show 0 < maxOrder by decide) with
    | inl hnone => exact hnone.1
    | inr hsome =>
        obtain ⟨block, next, horder, -, -, -, -, hnext⟩ := hsome
        have hle := (hnext.tracks.pages_distinct (by
          rw [List.forall_mem_cons]
          exact ⟨horder, hzero⟩)).length_le
        rw [List.length_map, List.length_range, List.length_cons] at hle
        omega

theorem run_allocs_three_pages :
    Returns (regionMap pairRegion 3) fun fresh =>
      (∃ session,
        callMachine.run ⟨fresh, []⟩ [.alloc 1] = .ok session ∧
        ∀ order < maxOrder, ∃ address after,
          pagesAlloc session.region order = .ok (address, after) ∧
          (address ≠ 0 →
            session.MayGrant 0x200000 3 ⟨address, order⟩) ∧
          (address = 0 ↔ ∀ index, (index + 1) * 2 ^ order ≤ 3 →
            ¬ session.Unallocated (grantOf 0x200000 ⟨order, index⟩))) ∧
      ∃ session after,
        callMachine.run ⟨fresh, []⟩ (List.replicate 3 (.alloc 0)) =
          .ok session ∧
        (session.live.map Grant.address).Perm
          [0x200000, 0x201000, 0x202000] ∧
        pageAlloc session.region = .ok (0, after) := by
  have hmapped : Returns (regionMap pairRegion 3) fun _ => True := by
    decide +kernel
  rw [returns_iff] at hmapped ⊢
  obtain ⟨fresh, hfresh, -⟩ := hmapped
  obtain ⟨hsound, hcomplete⟩ :=
    run_allocs_sound_complete (by decide) (by decide) hfresh
  exact ⟨fresh, hfresh, hsound [1] (by decide), hcomplete⟩

end Synos.Page

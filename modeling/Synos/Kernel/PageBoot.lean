import Synos.Kernel.PageRun

namespace Synos.Kernel

open Synos.Paging
open Synos.Data (Fault Machine)

/-! What `vpage_init` makes of the boot tables. -/

section

variable {rest : Memory} {pml4 : Frame} {supply : List Reply}
  {address : BitVec 64}

theorem tableIndex_zero (level : Nat) : tableIndex 0 level = 0 := by
  simp [tableIndex]

theorem bootTables_reach (houtside : Outside address)
    (hfirst : path address 2 = path 0 2) {depth level : Nat}
    (hdepth : level + depth = 4) (hpos : 1 ≤ level) :
    tableOf (bootTables rest pml4 supply).memory pml4 address level =
      some (pml4 + BitVec.ofNat 40 (4 - level)) := by
  induction depth generalizing level with
  | zero =>
      have htop : level = 4 := by omega
      subst htop
      rw [tableOf_top]
      simp
  | succ depth ih =>
      have hindex : tableIndex address (level + 1) = 0 :=
        (path_eq_iff.mp hfirst (level + 1) (by omega) (by omega)).trans
          (tableIndex_zero _)
      have hread := @bootTables_read rest pml4 supply address houtside
        (level + 1) (by omega) (by omega)
      rw [if_pos hindex] at hread
      have hnext : pml4 + BitVec.ofNat 40 (4 - (level + 1)) + 1 =
          pml4 + BitVec.ofNat 40 (4 - level) := by
        rw [show 4 - level = 4 - (level + 1) + 1 by omega, BitVec.ofNat_add,
          ← BitVec.add_assoc]
        rfl
      rw [tableOf_succ (by omega), entryAt, ih (by omega) (by omega),
        Option.map_some, hread, Option.bind_some, present_or_flags, if_pos rfl,
        frameOf_or_flags, frameOf_pageAddress, hnext]

theorem bootTables_leaf (houtside : Outside address)
    (hfirst : path address 2 = path 0 2) :
    entryAt (bootTables rest pml4 supply).memory pml4 address 1 =
      some (pageAddress ((tableIndex address 1).setWidth 40) ||| 0b11#64) := by
  have hdepth : (pml4 + BitVec.ofNat 40 3 - pml4).toNat = 3 := by
    rw [BitVec.add_comm, BitVec.add_sub_cancel]
    rfl
  have hroot : pml4 + BitVec.ofNat 40 3 ≠ pml4 := by
    intro hsame
    rw [hsame, BitVec.sub_self] at hdepth
    cases hdepth
  rw [entryAt, bootTables_reach houtside hfirst (show 1 + 3 = 4 from rfl)
    (Nat.le_refl 1), Option.map_some]
  simp only [bootTables, pgaInit, frameOf_pageAddress]
  rw [writeEntry_of_ne _ _ (.inl hroot), bootMemory, hdepth]
  simp

theorem bootTables_missing (houtside : Outside address)
    (hfirst : path address 2 = path 0 2) :
    missing (bootTables rest pml4 supply).memory pml4 address = 0 := by
  have hleaf : EntryPresent (bootTables rest pml4 supply).memory pml4 address
      1 := ⟨_, bootTables_leaf houtside hfirst, present_or_flags _⟩
  have hlevel : ∀ level, 1 < level → level ≤ 4 →
      presentAt (bootTables rest pml4 supply).memory pml4 address level =
        true :=
    fun level hgt hle => presentAt_iff.mpr (hleaf.above hgt hle)
  rw [missing, hlevel 4 (by omega) (by omega), hlevel 3 (by omega) (by omega),
    hlevel 2 (by omega) (by omega)]
  rfl

theorem first_pages {i : Nat} (hi : i < 256) :
    (0x100000 + 4096#64 * BitVec.ofNat 64 i).toNat = 0x100000 + 4096 * i := by
  have hbase : (0x100000 : BitVec 64).toNat = 0x100000 := rfl
  rw [BitVec.toNat_add, BitVec.toNat_mul, BitVec.toNat_ofNat,
    BitVec.toNat_ofNat, hbase]
  omega

theorem path_of_lt (hlow : address.toNat < 0x200000) :
    path address 2 = path 0 2 := by
  rw [path_eq_iff]
  intro level hge hle
  rw [tableIndex_zero]
  apply BitVec.eq_of_toNat_eq
  rw [toNat_tableIndex]
  change _ = 0
  have hcases : level = 2 ∨ level = 3 ∨ level = 4 := by omega
  rcases hcases with rfl | rfl | rfl <;>
    simp only [Nat.reduceSub, Nat.reduceMul, Nat.reduceAdd, Nat.reducePow] <;>
    omega

/-- The first free address is the one behind the first 2 MiB. -/
theorem vpageInit_ready (hpos : 0 < pml4.toNat)
    (hlt : pml4.toNat + 3 < 2 ^ 40)
    (hstock : Stock (bootTables rest pml4 supply).inUse supply)
    (hroom : 0x200000 + (supply.length + 1) * 4096 ≤ lowHalf) :
    ∃ space, vpageInit (bootTables rest pml4 supply) = .ok space ∧
      space.Ready [] ∧ space.tables.supply = supply ∧
      space.tables.frames ⊆ (bootTables rest pml4 supply).frames := by
  have htree := @bootTables_tree rest pml4 supply hpos hlt
  have hzero : Outside 0 := by decide
  have hnone := @bootTables_missing rest pml4 supply 0 hzero rfl
  obtain ⟨after, hmap, hmaps⟩ := @mapPage_maps (bootTables rest pml4 supply) 0
    (leafEntry 0 (flagEntry (vpageNotWritable ||| vpageNoExecute)) 0) htree
    hzero (by
      change LegalReplies _ (missing _ pml4 0) _
      rw [hnone]
      trivial) (by
      change CleanReplies _ (missing _ pml4 0) _
      rw [hnone]
      trivial)
  obtain ⟨used, hconsumed, hlength⟩ := hmaps.consumed
  have hused : used = [] := List.eq_nil_of_length_eq_zero
    (hlength.trans hnone)
  subst hused
  have hsupply : after.supply = supply := hconsumed.supply_eq.symm
  have hgranted : Granted after [] := {
    tree := hmaps.tree
    mapped := by
      intro address _ hmapped
      left
      rw [hmaps.mapped_eq] at hmapped
      by_cases hpath : path address 1 = path 0 1
      · exact path_mono hpath (by omega)
      · rw [Function.update_of_ne hpath] at hmapped
        have htake : (path address 1).take 3 = path address 2 := rfl
        have hfirst : path 0 2 = [0, 0, 0] := by decide
        rw [hfirst, ← htake]
        exact eq_of_beq hmapped
    first := ⟨_, hmaps.leaf_eq, present_leafEntry _ (by decide),
      frameOf_leafEntry _ _⟩
    leaf := fun _ h => absurd h List.not_mem_nil
    handable := fun _ h => absurd h List.not_mem_nil
    pages := List.nodup_nil
    frames := List.nodup_nil
    apart := fun _ h => absurd h List.not_mem_nil
    unused := by
      intro hmem
      have hold := hconsumed.inUse_of_nil hmem
      rcases List.mem_append.mp hold with hinstalled | hroot
      · obtain ⟨item, hitem, hsame⟩ := List.mem_map.mp hinstalled
        exact (htree.proper item hitem).1 hsame
      · have hpml4 : (0 : Frame) = pml4 := List.mem_singleton.mp hroot
        rw [← hpml4] at hpos
        exact absurd hpos (by decide)
    stock := by
      rw [hsupply]
      refine @Stock.drop _ [] supply hstock _ ?_
      intro frame hframe
      exact .inl (hconsumed.inUse_of_nil hframe) }
  have hfnfp := @fnfp_skip after hmaps.tree 0x100000 256 (by
    intro i hi
    have hplace := first_pages hi
    have hlow : (0x100000 + 4096#64 * BitVec.ofNat 64 i).toNat < lowHalf := by
      rw [hplace]
      simp only [lowHalf]
      omega
    have hfirst : path (0x100000 + 4096#64 * BitVec.ofNat 64 i) 2 =
        path 0 2 := path_of_lt (by omega)
    have hleaf := @bootTables_leaf rest pml4 supply _ (outside_of_lt hlow)
      hfirst
    refine ⟨_, (hmaps.keeps _ (outside_of_lt hlow) ?_ ⟨_, hleaf,
      present_or_flags _⟩).trans hleaf, present_or_flags _⟩
    have hbase : (0 : BitVec 64).toNat = 0 := rfl
    rw [Ne, path_eq_iff_page hlow (by decide), hplace, hbase]
    omega)
    (hgranted.absent ⟨by decide, by decide, by decide⟩
      fun _ h => absurd h List.not_mem_nil) (by decide)
  refine ⟨⟨after, 0x100000 + 4096#64 * BitVec.ofNat 64 256⟩, ?_,
    ⟨hgranted, ?_, ?_, ?_, fun _ h => absurd h List.not_mem_nil⟩, hsupply,
    hconsumed.frames⟩
  · unfold vpageInit
    rw [pgaMap_page, hmap]
    simp only [hfnfp]
  · change 4096 ∣ (0x100000 + 4096#64 * BitVec.ofNat 64 256).toNat
    decide
  · change 0x200000 ≤ (0x100000 + 4096#64 * BitVec.ofNat 64 256).toNat
    decide
  · change 0x200000 + (after.supply.length + 1) * 4096 ≤ lowHalf
    rw [hsupply]
    exact hroom

end

end Synos.Kernel

import Synos.Paging.Tree

namespace Synos.Paging

open Synos.Data

/-! Mapping and unmapping one page. -/

/-- How many table entries `page_table_alloc` has to fill for a page. -/
def missing (memory : Memory) (root : Frame) (address : BitVec 64) : Nat :=
  if presentAt memory root address 4 = false then 3
  else if presentAt memory root address 3 = false then 2
  else if presentAt memory root address 2 = false then 1
  else 0

/-- The next `count` answers of `alloc_page` are zero or frames not in use. -/
def LegalReplies : (inUse : List Frame) → (count : Nat) → List Reply → Prop
  | _, 0, _ => True
  | _, _ + 1, [] => True
  | inUse, count + 1, reply :: supply =>
      (reply.address = 0 ∨
        frameOf reply.address ≠ 0 ∧ frameOf reply.address ∉ inUse) ∧
      LegalReplies (frameOf reply.address :: inUse) count supply

/-- The next `count` answers are frames, and each holds no present entry except
where the entry for `address` is about to be written. -/
def CleanReplies (address : BitVec 64) : (count : Nat) → List Reply → Prop
  | 0, _ => True
  | _ + 1, [] => False
  | count + 1, reply :: supply =>
      reply.address ≠ 0 ∧
      (∀ index, index ≠ tableIndex address (count + 1) →
        present (reply.contents index) = false) ∧
      CleanReplies address count supply

section

variable {tables : Tables} {target : BitVec 64}

theorem missing_eq {memory : Memory} {root : Frame} {address : BitVec 64}
    {level : Nat} (hge : 2 ≤ level) (hle : level ≤ 4)
    (hmissing : presentAt memory root address level = false)
    (habove : level < 4 → presentAt memory root address (level + 1) = true) :
    missing memory root address = level - 1 := by
  have hsteps : level = 4 ∨ level = 3 ∨ level = 2 := by omega
  cases hsteps with
  | inl h =>
      subst h
      rw [missing, if_pos hmissing]
  | inr h =>
      cases h with
      | inl h =>
          subst h
          have htop := habove (by omega)
          rw [missing, if_neg (by rw [htop]; decide), if_pos hmissing]
      | inr h =>
          subst h
          have hthree := habove (by omega)
          have htop := presentAt_iff.mpr
            ((presentAt_iff.mp hthree).above (show 3 < 4 by omega) (by omega))
          rw [missing, if_neg (by rw [htop]; decide),
            if_neg (by rw [hthree]; decide), if_pos hmissing]

theorem tableOf_of_presentAt {memory : Memory} {root : Frame}
    {address : BitVec 64} {level : Nat} (hlt : level < 4)
    (h : presentAt memory root address (level + 1) = true) :
    ∃ table, tableOf memory root address level = some table := by
  rw [← Option.isSome_iff_exists, tableOf_isSome_iff (by omega)]
  exact fun above hgt hle => (presentAt_iff.mp h).upward hgt hle

/-- What the chain of installations leaves for the level below `level`. -/
structure Installed (before after : Tables) (target : BitVec 64)
    (level : Nat) : Prop where
  tree : Tree after target level
  table : ∃ table,
    tableOf after.memory after.root target level = some table
  mapped : after.mapped = before.mapped
  legal : LegalReplies after.inUse (level - 1) after.supply
  clean : CleanReplies target (level - 1) after.supply

theorem Installed.install_eq {before : Tables} {level : Nat}
    (hready : Installed before tables target level)
    (htarget : Outside target) (hge : 2 ≤ level) (hle : level ≤ 4) :
    ∃ table reply supply,
      tableOf tables.memory tables.root target level = some table ∧
      tables.supply = reply :: supply ∧
      frameOf reply.address ∉ tables.inUse ∧
      installTable tables level target =
        .ok (tables.install target level table reply supply) ∧
      Installed before (tables.install target level table reply supply)
        target (level - 1) := by
  obtain ⟨htree, ⟨table, htable⟩, hmapped, hlegal, hclean⟩ := hready
  have hcount : level - 1 = (level - 2) + 1 := by omega
  rw [hcount] at hlegal hclean
  cases hsupply : tables.supply with
  | nil =>
      rw [hsupply] at hclean
      exact hclean.elim
  | cons reply supply =>
      rw [hsupply] at hlegal hclean
      obtain ⟨haddress, hblank, hclean⟩ := hclean
      obtain ⟨hreply, hlegal⟩ := hlegal
      obtain ⟨hframe, hfresh⟩ := hreply.resolve_left haddress
      rw [← hcount] at hblank
      obtain ⟨hnext, hreached⟩ := htree.install htarget hge hle htable supply
        hframe hfresh hblank
      refine ⟨table, reply, supply, htable, rfl, hfresh,
        installTable_eq htree htarget (by omega) hle htable hsupply haddress
          hfresh, hnext, ⟨_, hreached⟩, hmapped, ?_, ?_⟩
      · exact hlegal
      · exact hclean

theorem Installed.installTable {before : Tables} {level : Nat}
    (hready : Installed before tables target level)
    (htarget : Outside target) (hge : 2 ≤ level) (hle : level ≤ 4) :
    ∃ after, installTable tables level target = .ok after ∧
      Installed before after target (level - 1) := by
  obtain ⟨_, _, _, -, -, -, hcall, hafter⟩ :=
    hready.install_eq htarget hge hle
  exact ⟨_, hcall, hafter⟩

/-- What holds before the topmost missing table is installed, and is kept by
each installation, holds after `page_table_alloc`. -/
theorem pageTableAlloc_chain {Inv : Nat → Tables → Prop}
    (hself : SelfMapped tables.memory tables.root)
    (hready : ∀ level, 2 ≤ level → level ≤ 4 →
      presentAt tables.memory tables.root target level = false →
      (level < 4 →
        presentAt tables.memory tables.root target (level + 1) = true) →
      Inv level tables)
    (hinstall : ∀ level middle, 2 ≤ level → level ≤ 4 → Inv level middle →
      ∃ after, installTable middle level target = .ok after ∧
        Inv (level - 1) after)
    {depth level : Nat} (hdepth : level + depth = 4) (hge : 2 ≤ level)
    (hmissing : presentAt tables.memory tables.root target level = false) :
    ∃ after, pageTableAlloc tables level target = .ok (true, after) ∧
      Inv (level - 1) after := by
  induction depth generalizing level with
  | zero =>
      have htop : level = 4 := by omega
      subst htop
      obtain ⟨after, hcall, hafter⟩ := hinstall 4 tables hge (Nat.le_refl 4)
        (hready 4 hge (Nat.le_refl 4) hmissing (by omega))
      refine ⟨after, ?_, hafter⟩
      rw [pageTableAlloc, if_neg (by omega), if_neg (by omega)]
      simp only [hcall]
  | succ depth ih =>
      rw [pageTableAlloc, if_neg (by omega), if_pos (by omega),
        @pageIspresent_eq tables target (level + 1) hself depth (by omega)
          (by omega)]
      cases hfound : presentAt tables.memory tables.root target
          (level + 1) with
      | true =>
          obtain ⟨after, hcall, hafter⟩ := hinstall level tables hge (by omega)
            (hready level hge (by omega) hmissing (fun _ => hfound))
          refine ⟨after, ?_, hafter⟩
          simp only [hcall]
      | false =>
          obtain ⟨middle, halloc, hmiddle⟩ := ih (by omega) (by omega) hfound
          rw [Nat.add_sub_cancel] at hmiddle
          obtain ⟨after, hcall, hafter⟩ := hinstall level middle hge (by omega)
            hmiddle
          refine ⟨after, ?_, hafter⟩
          simp only [halloc, hcall]

theorem installed_ready (htree : Tree tables target 0)
    (hlegal : LegalReplies tables.inUse
      (missing tables.memory tables.root target) tables.supply)
    (hclean : CleanReplies target
      (missing tables.memory tables.root target) tables.supply)
    {level : Nat} (hge : 2 ≤ level) (hle : level ≤ 4)
    (hmissing : presentAt tables.memory tables.root target level = false)
    (habove : level < 4 →
      presentAt tables.memory tables.root target (level + 1) = true) :
    Installed tables tables target level := by
  have hcount := missing_eq hge hle hmissing habove
  refine ⟨htree.weaken target level, ?_, rfl, hcount ▸ hlegal,
    hcount ▸ hclean⟩
  cases Nat.eq_or_lt_of_le hle with
  | inl htop =>
      subst htop
      exact ⟨_, tableOf_top⟩
  | inr hlt => exact tableOf_of_presentAt hlt (habove hlt)

theorem pageTableAlloc_installed (htree : Tree tables target 0)
    (htarget : Outside target)
    (hlegal : LegalReplies tables.inUse
      (missing tables.memory tables.root target) tables.supply)
    (hclean : CleanReplies target
      (missing tables.memory tables.root target) tables.supply)
    {depth level : Nat} (hdepth : level + depth = 4) (hge : 2 ≤ level)
    (hmissing : presentAt tables.memory tables.root target level = false) :
    ∃ after, pageTableAlloc tables level target = .ok (true, after) ∧
      Installed tables after target (level - 1) :=
  @pageTableAlloc_chain tables target
    (fun level middle => Installed tables middle target level)
    htree.selfMapped
    (fun _ hge hle hmissing habove =>
      installed_ready htree hlegal hclean hge hle hmissing habove)
    (fun _ _ hge hle hmiddle => hmiddle.installTable htarget hge hle)
    depth level hdepth hge hmissing

theorem mapPage_tree (htree : Tree tables target 0) (htarget : Outside target)
    (hlegal : LegalReplies tables.inUse
      (missing tables.memory tables.root target) tables.supply)
    (hclean : CleanReplies target
      (missing tables.memory tables.root target) tables.supply)
    (entry settled : BitVec 64) :
    ∃ after, mapPage tables target entry = .ok after ∧
      Tree after settled 0 := by
  have hwrite : ∀ middle : Tables, Tree middle target 1 →
      (∃ table, tableOf middle.memory middle.root target 1 = some table) →
      ∃ stored, store middle (getTableAddress target 1) entry = .ok stored ∧
        Tree { stored with
          mapped := Function.update stored.mapped (path target 1) true }
          settled 0 := by
    intro middle hmiddle htable
    obtain ⟨table, htable⟩ := htable
    exact ⟨_, store_table hmiddle.selfMapped (Nat.le_refl 1) (by omega) htable,
      hmiddle.writeLeaf htarget htable entry true (fun _ => rfl) settled⟩
  unfold mapPage
  rw [@pageIspresent_eq tables target 2 htree.selfMapped 2 rfl (by omega)]
  cases hfound : presentAt tables.memory tables.root target 2 with
  | true =>
      obtain ⟨stored, hstored, hafter⟩ := hwrite tables
        (htree.weaken target 1) (tableOf_of_presentAt (by omega) hfound)
      simp only [if_true, hstored]
      exact ⟨_, rfl, hafter⟩
  | false =>
      obtain ⟨middle, halloc, hmiddle⟩ := @pageTableAlloc_installed tables
        target htree htarget hlegal hclean 2 2 rfl (Nat.le_refl 2) hfound
      obtain ⟨stored, hstored, hafter⟩ := hwrite middle hmiddle.tree
        hmiddle.table
      simp only [Bool.false_eq_true, if_false, halloc, hstored]
      exact ⟨_, rfl, hafter⟩

theorem unmapPage_tree (htree : Tree tables target 0)
    (htarget : Outside target) (settled : BitVec 64) :
    ∃ after, unmapPage tables target = .ok after ∧
      Tree after settled 0 := by
  unfold unmapPage
  simp only
  rw [@pageIspresent_eq tables target 1 htree.selfMapped 3 rfl (by omega)]
  cases hfound : presentAt tables.memory tables.root target 1 with
  | true =>
      obtain ⟨table, htable⟩ :=
        tableOf_of_presentAt (by omega) (presentAt_iff.mpr
          ((presentAt_iff.mp hfound).above (show 1 < 2 by omega) (by omega)))
      refine ⟨_, ?_, (htree.weaken target 1).writeLeaf htarget htable 0 false
        (by decide) settled⟩
      simp only [store_table htree.selfMapped (Nat.le_refl 1) (by omega)
        htable]
  | false =>
      refine ⟨_, rfl, htree.selfMapped, ?_, ?_, htree.distinct, htree.proper⟩
      · exact (htree.weaken settled 0).table
      · intro address houtside _ hpresent
        have hne : path address 1 ≠ path target 1 := by
          intro hpath
          rw [← presentAt_iff, presentAt, entryAt_congr (by omega) hpath,
            ← presentAt] at hpresent
          simp only at hpresent
          rw [hfound] at hpresent
          cases hpresent
        simp only [Function.update_of_ne hne]
        exact htree.page address houtside (fun h => by
          have := h.1
          omega) hpresent

end

end Synos.Paging

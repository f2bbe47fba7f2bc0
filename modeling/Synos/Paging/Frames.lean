import Synos.Paging.Leaf

namespace Synos.Paging

open Synos.Data

/-! Which frames a mapping writes to, and what becomes of the pages that are
mapped already. -/

def framesOf (replies : List Reply) : List Frame :=
  replies.map fun reply => frameOf reply.address

/-- Going from `before` to `after` took the answers `used`, and wrote to no
other frames than those and the tables. -/
structure Consumed (before after : Tables) (used : List Reply) : Prop where
  root_eq : after.root = before.root
  supply_eq : before.supply = used ++ after.supply
  inUse : ∀ frame ∈ after.inUse,
    frame ∈ before.inUse ∨ frame ∈ framesOf used
  memory_eq : ∀ frame, frame ∉ before.inUse → frame ∉ framesOf used →
    after.memory frame = before.memory frame

def Tables.frames (tables : Tables) : List Frame :=
  tables.inUse ++ framesOf tables.supply

/-- Pages off the path of `target` keep their entries. -/
def Keeps (before after : Tables) (target : BitVec 64) : Prop :=
  ∀ address, Outside address → path address 1 ≠ path target 1 →
    EntryPresent before.memory before.root address 1 →
    entryAt after.memory after.root address 1 =
      entryAt before.memory before.root address 1

section

variable {before middle after : Tables} {target : BitVec 64} {level : Nat}

theorem Consumed.refl (tables : Tables) : Consumed tables tables [] :=
  ⟨rfl, rfl, fun _ => .inl, fun _ _ _ => rfl⟩

theorem Consumed.frames {used : List Reply}
    (hconsumed : Consumed before after used) :
    after.frames ⊆ before.frames := by
  have hsplit : framesOf before.supply =
      framesOf used ++ framesOf after.supply := by
    rw [hconsumed.supply_eq]
    exact List.map_append
  intro frame hframe
  rw [Tables.frames, hsplit]
  rcases List.mem_append.mp hframe with htable | hleft
  · rcases hconsumed.inUse frame htable with hold | hused
    · exact List.mem_append_left _ hold
    · exact List.mem_append_right _ (List.mem_append_left _ hused)
  · exact List.mem_append_right _ (List.mem_append_right _ hleft)

theorem Consumed.outside {used : List Reply}
    (hconsumed : Consumed before after used) {frame : Frame}
    (hframe : frame ∉ before.frames) :
    after.memory frame = before.memory frame := by
  rw [Tables.frames, List.mem_append, not_or] at hframe
  refine hconsumed.memory_eq frame hframe.1 fun hused => hframe.2 ?_
  rw [hconsumed.supply_eq, framesOf, List.map_append]
  exact List.mem_append_left _ hused

theorem Consumed.inUse_of_nil (hconsumed : Consumed before after []) :
    after.inUse ⊆ before.inUse := by
  intro frame hframe
  rcases hconsumed.inUse frame hframe with hold | hused
  · exact hold
  · exact absurd hused List.not_mem_nil

/-- What is known while the missing tables are being installed. -/
structure Chained (before middle : Tables) (target : BitVec 64)
    (level : Nat) : Prop where
  installed : Installed before middle target level
  missing_eq : presentAt before.memory before.root target level = false
  consumed : ∃ used, Consumed before middle used ∧
    used.length + (level - 1) = missing before.memory before.root target
  kept : ∀ address, Outside address →
    EntryPresent before.memory before.root address 1 →
    entryAt middle.memory middle.root address 1 =
      entryAt before.memory before.root address 1

/-- A page that is mapped does not lie below a missing entry. -/
theorem not_pending_of_present {address : BitVec 64} (hlevel : level ≤ 4)
    (hmissing : presentAt before.memory before.root target level = false)
    (hpresent : EntryPresent before.memory before.root address 1) :
    ¬ Pending target level address 1 := by
  intro hpending
  have habove := presentAt_iff.mpr (hpresent.upward hpending.1 hlevel)
  rw [presentAt, entryAt_congr hlevel hpending.2, ← presentAt, hmissing]
    at habove
  cases habove

theorem Consumed.install {used : List Reply}
    (hconsumed : Consumed before middle used)
    {table : Frame} (htable : table ∈ middle.inUse) {reply : Reply}
    {supply : List Reply} (hsupply : middle.supply = reply :: supply) :
    Consumed before (middle.install target level table reply supply)
      (used ++ [reply]) where
  root_eq := hconsumed.root_eq
  supply_eq := by
    rw [hconsumed.supply_eq, hsupply]
    exact (List.append_assoc used [reply] supply).symm
  inUse := by
    intro frame hframe
    have hcases : frame = frameOf reply.address ∨ frame ∈ middle.inUse := by
      simpa [Tables.inUse, Tables.install, or_assoc] using hframe
    rcases hcases with rfl | hold
    · right
      simp [framesOf]
    · rcases hconsumed.inUse frame hold with hbefore | hused
      · exact .inl hbefore
      · right
        simp only [framesOf, List.map_append, List.mem_append] at hused ⊢
        exact .inl hused
  memory_eq := by
    intro frame hbefore hused
    simp only [framesOf, List.map_append, List.mem_append, List.map_cons,
      List.map_nil, List.mem_singleton, not_or] at hused
    have hmiddle : frame ∉ middle.inUse := by
      intro hframe
      rcases hconsumed.inUse frame hframe with hold | hnew
      · exact hbefore hold
      · exact hused.1 hnew
    have htable : frame ≠ table := fun heq => hmiddle (heq ▸ htable)
    have hwrite : (middle.install target level table reply supply).memory
        frame = middle.memory frame := by
      change (writeEntry _ _ _ _) frame = _
      rw [writeEntry, Function.update_of_ne htable,
        Function.update_of_ne hused.2]
    rw [hwrite]
    exact hconsumed.memory_eq frame hbefore hused.1

theorem Chained.install (hchained : Chained before middle target level)
    (htarget : Outside target) (hge : 2 ≤ level) (hle : level ≤ 4) :
    ∃ after, installTable middle level target = .ok after ∧
      Chained before after target (level - 1) := by
  obtain ⟨table, reply, supply, htable, hsupply, hfresh, hcall, hafter⟩ :=
    hchained.installed.install_eq htarget hge hle
  have htree := hchained.installed.tree
  obtain ⟨used, hconsumed, hlength⟩ := hchained.consumed
  have huse := htree.mem_inUse htarget (by omega) hle
    (Tree.target_settled target level) htable
  refine ⟨_, hcall, hafter, ?_, ?_, ?_⟩
  · cases hbelow : presentAt before.memory before.root target (level - 1) with
    | false => rfl
    | true =>
        have habove := presentAt_iff.mpr ((presentAt_iff.mp hbelow).above
          (show level - 1 < level by omega) hle)
        rw [hchained.missing_eq] at habove
        cases habove
  · refine ⟨_, hconsumed.install huse hsupply, ?_⟩
    rw [List.length_append]
    change used.length + 1 + (level - 1 - 1) = _
    omega
  · intro address houtside hpresent
    have hsettled := not_pending_of_present hle hchained.missing_eq hpresent
    have hkept := htree.entryAt_of_agrees htarget (by omega) hle htable
      (agreesOff_install hfresh) houtside (Nat.le_refl 1) (by omega) hsettled
    exact hkept.trans (hchained.kept address houtside hpresent)

theorem chained_ready {tables : Tables} (htree : Tree tables target 0)
    (hlegal : LegalReplies tables.inUse
      (missing tables.memory tables.root target) tables.supply)
    (hclean : CleanReplies target
      (missing tables.memory tables.root target) tables.supply)
    (hge : 2 ≤ level) (hle : level ≤ 4)
    (hmissing : presentAt tables.memory tables.root target level = false)
    (habove : level < 4 →
      presentAt tables.memory tables.root target (level + 1) = true) :
    Chained tables tables target level where
  installed := installed_ready htree hlegal hclean hge hle hmissing habove
  missing_eq := hmissing
  consumed := ⟨[], Consumed.refl tables, by
    rw [missing_eq hge hle hmissing habove, List.length_nil, Nat.zero_add]⟩
  kept := fun _ _ _ => rfl

end

/-! One page. -/

/-- What mapping a page comes to. -/
structure Maps (before after : Tables) (target entry : BitVec 64) : Prop where
  tree : Tree after 0 0
  consumed : ∃ used, Consumed before after used ∧
    used.length = missing before.memory before.root target
  mapped_eq : after.mapped =
    Function.update before.mapped (path target 1) true
  leaf_eq : entryAt after.memory after.root target 1 = some entry
  keeps : Keeps before after target

section

variable {tables middle : Tables} {target entry : BitVec 64}

/-- The last write, once there is a table for it. -/
theorem Installed.leaf
    (hinstalled : Installed tables middle target 1)
    (hconsumed : ∃ used, Consumed tables middle used ∧
      used.length = missing tables.memory tables.root target)
    (hkept : ∀ address, Outside address →
      EntryPresent tables.memory tables.root address 1 →
      entryAt middle.memory middle.root address 1 =
        entryAt tables.memory tables.root address 1)
    (htarget : Outside target) :
    ∃ stored, store middle (getTableAddress target 1) entry = .ok stored ∧
      Maps tables { stored with
        mapped := Function.update stored.mapped (path target 1) true }
        target entry := by
  obtain ⟨htree, ⟨table, htable⟩, hmapped, -, -⟩ := hinstalled
  obtain ⟨used, hconsumed, hlength⟩ := hconsumed
  refine ⟨_, store_table htree.selfMapped (Nat.le_refl 1) (by omega) htable,
    htree.writeLeaf htarget htable entry true (fun _ => rfl) 0, ?_, ?_, ?_, ?_⟩
  · refine ⟨used, ⟨hconsumed.root_eq, hconsumed.supply_eq, hconsumed.inUse, ?_⟩,
      hlength⟩
    intro frame hbefore hused
    have huse := htree.mem_inUse htarget (Nat.le_refl 1) (by omega)
      (Tree.target_settled target 1) htable
    have hne : frame ≠ table := by
      rintro rfl
      rcases hconsumed.inUse frame huse with hold | hnew
      · exact hbefore hold
      · exact hused hnew
    have hmemory := hconsumed.memory_eq frame hbefore hused
    rw [← hmemory]
    exact Function.update_of_ne hne _ _
  · rw [← hmapped]
  · exact entryAt_writeEntry_self htree.selfMapped
      (htree.unshared (Nat.le_refl 1)) htarget htable entry
  · intro address houtside hne hpresent
    have hsettled : ¬ Pending target 1 address 1 := fun h => hne h.2
    have hsame := htree.entryAt_of_agrees htarget (Nat.le_refl 1) (by omega)
      htable (agreesOff_write (fun _ _ _ _ => rfl) entry) houtside
      (Nat.le_refl 1) (by omega) hsettled
    exact hsame.trans (hkept address houtside hpresent)

/-- Mapping a page writes to tables only, and leaves the other pages that are
mapped as they are. -/
theorem mapPage_maps (htree : Tree tables target 0) (htarget : Outside target)
    (hlegal : LegalReplies tables.inUse
      (missing tables.memory tables.root target) tables.supply)
    (hclean : CleanReplies target
      (missing tables.memory tables.root target) tables.supply) :
    ∃ after, mapPage tables target entry = .ok after ∧
      Maps tables after target entry := by
  unfold mapPage
  rw [@pageIspresent_eq tables target 2 htree.selfMapped 2 rfl (by omega)]
  cases hfound : presentAt tables.memory tables.root target 2 with
  | true =>
      have hnone : missing tables.memory tables.root target = 0 := by
        have hthree := presentAt_iff.mpr ((presentAt_iff.mp hfound).above
          (show 2 < 3 by omega) (by omega))
        have hfour := presentAt_iff.mpr ((presentAt_iff.mp hfound).above
          (show 2 < 4 by omega) (by omega))
        rw [missing, hfound, hthree, hfour]
        rfl
      have hready : Installed tables tables target 1 :=
        ⟨htree.weaken target 1, tableOf_of_presentAt (by omega) hfound, rfl,
          trivial, trivial⟩
      obtain ⟨stored, hstored, hmaps⟩ := @Installed.leaf tables tables target
        entry hready ⟨[], Consumed.refl tables, by rw [hnone]; rfl⟩
        (fun _ _ _ => rfl) htarget
      simp only [if_true, hstored]
      exact ⟨_, rfl, hmaps⟩
  | false =>
      obtain ⟨middle, halloc, hmiddle⟩ := @pageTableAlloc_chain tables target
        (fun level middle => Chained tables middle target level)
        htree.selfMapped
        (fun _ hge hle hmissing habove =>
          chained_ready htree hlegal hclean hge hle hmissing habove)
        (fun _ _ hge hle hmiddle => hmiddle.install htarget hge hle)
        2 2 rfl (Nat.le_refl 2) hfound
      obtain ⟨stored, hstored, hmaps⟩ := @Installed.leaf tables middle target
        entry hmiddle.installed hmiddle.consumed hmiddle.kept htarget
      simp only [Bool.false_eq_true, if_false, halloc, hstored]
      exact ⟨_, rfl, hmaps⟩

/-- Unmapping a page that is mapped writes to its last table only. -/
theorem unmapPage_keeps (htree : Tree tables target 0)
    (htarget : Outside target)
    (hpresent : EntryPresent tables.memory tables.root target 1) :
    ∃ after, unmapPage tables target = .ok after ∧ Tree after 0 0 ∧
      Consumed tables after [] ∧
      after.mapped = Function.update tables.mapped (path target 1) false ∧
      Keeps tables after target := by
  obtain ⟨table, htable⟩ := tableOf_of_presentAt (by omega)
    (presentAt_iff.mpr (hpresent.above (show 1 < 2 by omega) (by omega)))
  have hstored := @store_table tables target 0 1 htree.selfMapped
    (Nat.le_refl 1) (by omega) table htable
  have hone := htree.weaken target 1
  have huse := hone.mem_inUse htarget (Nat.le_refl 1) (by omega)
    (Tree.target_settled target 1) htable
  refine ⟨_, ?_, hone.writeLeaf htarget htable 0 false (by decide) 0,
    ⟨rfl, rfl, fun _ => .inl, ?_⟩, rfl, ?_⟩
  · unfold unmapPage
    simp only
    rw [@pageIspresent_eq tables target 1 htree.selfMapped 3 rfl (by omega),
      presentAt_iff.mpr hpresent]
    simp only [hstored]
  · intro frame hbefore _
    have hne : frame ≠ table := fun heq => hbefore (heq ▸ huse)
    exact Function.update_of_ne hne _ _
  · intro address houtside hne _
    have hsettled : ¬ Pending target 1 address 1 := fun h => hne h.2
    exact hone.entryAt_of_agrees htarget (Nat.le_refl 1) (by omega) htable
      (agreesOff_write (fun _ _ _ _ => rfl) 0) houtside (Nat.le_refl 1)
      (by omega) hsettled

end

/-! Writes to frames that hold no table. -/

section

variable {tables : Tables} {memory : Memory} {address : BitVec 64}

theorem not_pending_zero {target : BitVec 64} {other : Nat} (hpos : 1 ≤ other) :
    ¬ Pending target 0 address other := by
  intro h
  have := h.1
  omega

theorem Tree.tableOf_of_apart (htree : Tree tables 0 0)
    (hsame : ∀ table ∈ tables.inUse, memory table = tables.memory table)
    (houtside : Outside address) {level : Nat} (hle : level ≤ 4) :
    tableOf memory tables.root address level =
      tableOf tables.memory tables.root address level := by
  apply tableOf_of_agree (Nat.add_sub_cancel' hle)
  intro above table hgt habove htable
  rw [hsame table (htree.mem_inUse houtside (by omega) habove
    (not_pending_zero (by omega)) htable)]

theorem Tree.entryAt_of_apart (htree : Tree tables 0 0)
    (hsame : ∀ table ∈ tables.inUse, memory table = tables.memory table)
    (houtside : Outside address) {level : Nat} (hpos : 1 ≤ level)
    (hle : level ≤ 4) :
    entryAt memory tables.root address level =
      entryAt tables.memory tables.root address level := by
  rw [entryAt, entryAt, htree.tableOf_of_apart hsame houtside hle]
  cases htable : tableOf tables.memory tables.root address level with
  | none => rfl
  | some table =>
      rw [Option.map_some, Option.map_some,
        hsame table (htree.mem_inUse houtside hpos hle
          (not_pending_zero (by omega)) htable)]

theorem Tree.of_apart (htree : Tree tables 0 0)
    (hsame : ∀ table ∈ tables.inUse, memory table = tables.memory table) :
    Tree { tables with memory := memory } 0 0 where
  selfMapped := by
    have hroot := hsame tables.root (by simp [Tables.inUse])
    constructor
    · change present (memory tables.root 511) = true
      rw [hroot]
      exact htree.selfMapped.present
    · change frameOf (memory tables.root 511) = tables.root
      rw [hroot]
      exact htree.selfMapped.frame
  table := by
    intro address other houtside hge hle hsettled entry hentry hpresent
    apply htree.table address other houtside hge hle hsettled entry _ hpresent
    rw [← htree.entryAt_of_apart hsame houtside (by omega) hle]
    exact hentry
  page := by
    intro address houtside hsettled hpresent
    apply htree.page address houtside hsettled
    obtain ⟨entry, hentry, hset⟩ := hpresent
    refine ⟨entry, ?_, hset⟩
    rw [← htree.entryAt_of_apart hsame houtside (Nat.le_refl 1) (by omega)]
    exact hentry
  distinct := htree.distinct
  proper := htree.proper

/-- The walk of the processor ends at the frame of the leaf entry. -/
theorem walk_of_leaf {root : Frame} {entry : BitVec 64}
    (hcanonical : canonical address)
    (hentry : entryAt memory root address 1 = some entry)
    (hpresent : present entry = true) :
    walk memory root address =
      some (frameOf entry, address.extractLsb' 0 12) := by
  have hdescend : descend memory address 4 4 root = some (frameOf entry) := by
    change tableOf memory root address 0 = _
    rw [tableOf_succ (by omega), hentry]
    simp [hpresent]
  rw [walk, if_pos hcanonical, hdescend]
  rfl

end

/-! Answers of `alloc_page` that are frames of their own. -/

/-- The frames are not among those `taken`, and hold no present entry. -/
structure Stock (taken : List Frame) (supply : List Reply) : Prop where
  distinct : (framesOf supply).Nodup
  apart : ∀ frame ∈ framesOf supply, frame ≠ 0 ∧ frame ∉ taken
  blank : ∀ reply ∈ supply, ∀ index, present (reply.contents index) = false

section

variable {taken : List Frame} {used supply : List Reply} {count : Nat}

theorem ne_zero_of_frame {address : BitVec 64} (hframe : frameOf address ≠ 0) :
    address ≠ 0 := by
  rintro rfl
  exact hframe (by decide)

theorem Stock.drop (hstock : Stock taken (used ++ supply))
    {more : List Frame} (hmore : ∀ frame ∈ more,
      frame ∈ taken ∨ frame ∈ framesOf used) : Stock more supply := by
  have hsplit : framesOf (used ++ supply) = framesOf used ++ framesOf supply :=
    List.map_append
  have hdistinct := hstock.distinct
  rw [hsplit, List.nodup_append] at hdistinct
  refine ⟨hdistinct.2.1, ?_, ?_⟩
  · intro frame hframe
    have hapart := hstock.apart frame (hsplit ▸ List.mem_append_right _ hframe)
    refine ⟨hapart.1, ?_⟩
    intro htaken
    rcases hmore frame htaken with hold | hused
    · exact hapart.2 hold
    · exact hdistinct.2.2 frame hused frame hframe rfl
  · intro reply hreply
    exact hstock.blank reply (List.mem_append_right _ hreply)

theorem Stock.legal (hstock : Stock taken supply) :
    LegalReplies taken count supply := by
  induction count generalizing taken supply with
  | zero => exact trivial
  | succ count ih =>
      cases supply with
      | nil => exact trivial
      | cons reply supply =>
          have hfirst := hstock.apart (frameOf reply.address) (.head _)
          refine ⟨.inr hfirst, ih ?_⟩
          refine @Stock.drop taken [reply] supply hstock _ ?_
          intro frame hframe
          rcases List.mem_cons.mp hframe with rfl | hold
          · exact .inr (.head _)
          · exact .inl hold

theorem Stock.clean (hstock : Stock taken supply) {address : BitVec 64}
    (hcount : count ≤ supply.length) : CleanReplies address count supply := by
  induction count generalizing taken supply with
  | zero => exact trivial
  | succ count ih =>
      cases supply with
      | nil => exact absurd hcount (Nat.not_succ_le_zero count)
      | cons reply supply =>
          have hfirst := hstock.apart (frameOf reply.address) (.head _)
          refine ⟨ne_zero_of_frame hfirst.1,
            fun index _ => hstock.blank reply (.head _) index, ?_⟩
          refine @ih (frameOf reply.address :: taken) supply ?_
            (Nat.le_of_succ_le_succ hcount)
          refine @Stock.drop taken [reply] supply hstock _ ?_
          intro frame hframe
          rcases List.mem_cons.mp hframe with rfl | hold
          · exact .inr (.head _)
          · exact .inl hold

end

end Synos.Paging

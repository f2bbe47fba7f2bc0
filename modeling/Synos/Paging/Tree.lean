import Synos.Paging.Map

namespace Synos.Paging

open Synos.Data

/-! The tree of tables.  Between the installation of a table and the write of
the one entry that needed it, that entry is pending: what it leads to is not
known yet. -/

def Outside (address : BitVec 64) : Prop := tableIndex address 4 ≠ 511

instance (address : BitVec 64) : Decidable (Outside address) :=
  inferInstanceAs (Decidable (_ ≠ _))

/-- The entry of `address` at `other` is, or lies below, that of `target` at
`level`.  At level zero nothing is pending. -/
def Pending (target : BitVec 64) (level : Nat) (address : BitVec 64)
    (other : Nat) : Prop :=
  other ≤ level ∧ path address level = path target level

theorem Pending.below {target address : BitVec 64} {level other below : Nat}
    (h : Pending target level address other) (hle : below ≤ other) :
    Pending target level address below :=
  ⟨Nat.le_trans hle h.1, h.2⟩

def Tables.inUse (tables : Tables) : List Frame :=
  tables.installed.map Prod.snd ++ [tables.root]

structure Tree (tables : Tables) (target : BitVec 64) (level : Nat) :
    Prop where
  selfMapped : SelfMapped tables.memory tables.root
  table : ∀ address other, Outside address → 2 ≤ other → other ≤ 4 →
    ¬ Pending target level address other → ∀ entry,
      entryAt tables.memory tables.root address other = some entry →
      present entry = true →
      (path address other, frameOf entry) ∈ tables.installed
  page : ∀ address, Outside address → ¬ Pending target level address 1 →
    EntryPresent tables.memory tables.root address 1 →
    tables.mapped (path address 1) = true
  distinct : (tables.installed.map Prod.snd).Nodup
  proper : ∀ item ∈ tables.installed, item.2 ≠ 0 ∧ item.2 ≠ tables.root

/-! Where walks through two memories agree. -/

theorem tableOf_of_agree {memory other : Memory} {root : Frame}
    {address : BitVec 64} {depth level : Nat} (hdepth : level + depth = 4)
    (hagree : ∀ above table, level < above → above ≤ 4 →
      tableOf memory root address above = some table →
      other table (tableIndex address above) =
        memory table (tableIndex address above)) :
    tableOf other root address level = tableOf memory root address level := by
  induction depth generalizing level with
  | zero =>
      have htop : level = 4 := by omega
      subst htop
      rfl
  | succ depth ih =>
      have habove := @ih (level + 1) (by omega)
        (fun above table hgt => hagree above table (by omega))
      rw [tableOf_succ (by omega), tableOf_succ (by omega), entryAt, entryAt,
        habove]
      cases htable : tableOf memory root address (level + 1) with
      | none => rfl
      | some table =>
          rw [Option.map_some, Option.map_some,
            hagree (level + 1) table (by omega) (by omega) htable]

section

variable {tables : Tables} {target address : BitVec 64} {level other : Nat}

theorem Tree.mem_installed (htree : Tree tables target level)
    (houtside : Outside address) (hpos : 1 ≤ other) (hlt : other < 4)
    (hsettled : ¬ Pending target level address (other + 1)) {table : Frame}
    (htable : tableOf tables.memory tables.root address other = some table) :
    (path address (other + 1), table) ∈ tables.installed := by
  rw [tableOf_succ hlt] at htable
  obtain ⟨entry, hentry, hframe⟩ := Option.bind_eq_some_iff.mp htable
  cases hpresent : present entry with
  | false => simp [hpresent] at hframe
  | true =>
      rw [hpresent, if_pos rfl, Option.some.injEq] at hframe
      rw [← hframe]
      exact htree.table address (other + 1) houtside (by omega) (by omega)
        hsettled entry hentry hpresent

theorem Tree.mem_inUse (htree : Tree tables target level)
    (houtside : Outside address) (hpos : 1 ≤ other) (hle : other ≤ 4)
    (hsettled : ¬ Pending target level address (other + 1)) {table : Frame}
    (htable : tableOf tables.memory tables.root address other = some table) :
    table ∈ tables.inUse := by
  unfold Tables.inUse
  rw [List.mem_append, List.mem_map, List.mem_singleton]
  cases Nat.eq_or_lt_of_le hle with
  | inl htop =>
      subst htop
      rw [tableOf_top, Option.some.injEq] at htable
      exact .inr htable.symm
  | inr hlt =>
      exact .inl ⟨_, htree.mem_installed houtside hpos hlt hsettled htable,
        rfl⟩

theorem Tree.unique (htree : Tree tables target level)
    (houtside : Outside address) (hpos : 1 ≤ other) (hle : other ≤ 4)
    (hsettled : ¬ Pending target level address (other + 1)) {table : Frame}
    (htable : tableOf tables.memory tables.root address other = some table)
    {second : BitVec 64} {secondLevel : Nat} (hsecond : Outside second)
    (hsecondPos : 1 ≤ secondLevel) (hsecondLe : secondLevel ≤ 4)
    (hsecondSettled : ¬ Pending target level second (secondLevel + 1))
    (hsecondTable :
      tableOf tables.memory tables.root second secondLevel = some table) :
    other = secondLevel ∧
      path address (other + 1) = path second (secondLevel + 1) := by
  have hroot : ∀ {address other}, Outside address → 1 ≤ other → other < 4 →
      ¬ Pending target level address (other + 1) →
      tableOf tables.memory tables.root address other ≠ some tables.root := by
    intro address other houtside hpos hlt hsettled htable
    exact (htree.proper _
      (htree.mem_installed houtside hpos hlt hsettled htable)).2 rfl
  cases Nat.eq_or_lt_of_le hle with
  | inl htop =>
      subst htop
      rw [tableOf_top, Option.some.injEq] at htable
      subst htable
      cases Nat.eq_or_lt_of_le hsecondLe with
      | inl hsecondTop =>
          subst hsecondTop
          exact ⟨rfl, rfl⟩
      | inr hlt =>
          exact (hroot hsecond hsecondPos hlt hsecondSettled
            hsecondTable).elim
  | inr hlt =>
      have hfirst := htree.mem_installed houtside hpos hlt hsettled htable
      cases Nat.eq_or_lt_of_le hsecondLe with
      | inl hsecondTop =>
          subst hsecondTop
          rw [tableOf_top, Option.some.injEq] at hsecondTable
          subst hsecondTable
          exact (hroot houtside hpos hlt hsettled htable).elim
      | inr hsecondLt =>
          have hmem := htree.mem_installed hsecond hsecondPos hsecondLt
            hsecondSettled hsecondTable
          have heq := List.inj_on_of_nodup_map htree.distinct hfirst hmem rfl
          have hpath := congrArg Prod.fst heq
          have hlevel := level_eq_of_path_eq hpath (by omega) (by omega)
          exact ⟨by omega, hpath⟩

/-- Tables in use read the same, except at one slot. -/
def AgreesOff (tables : Tables) (memory : Memory) (table : Frame)
    (index : BitVec 9) : Prop :=
  ∀ other slot, other ∈ tables.inUse → ¬ (other = table ∧ slot = index) →
    memory other slot = tables.memory other slot

/-- The slot of a settled entry is in a table in use and is not the pending
slot. -/
theorem Tree.slot_settled (htree : Tree tables target level)
    (htarget : Outside target) (hpos : 1 ≤ level) (hlevel : level ≤ 4)
    {table : Frame}
    (htable : tableOf tables.memory tables.root target level = some table)
    (houtside : Outside address) (hotherPos : 1 ≤ other) (hother : other ≤ 4)
    (hsettled : ¬ Pending target level address other) {reached : Frame}
    (hreached :
      tableOf tables.memory tables.root address other = some reached) :
    reached ∈ tables.inUse ∧
      ¬ (reached = table ∧
        tableIndex address other = tableIndex target level) := by
  have habove : ¬ Pending target level address (other + 1) :=
    fun h => hsettled (h.below (Nat.le_succ other))
  refine ⟨htree.mem_inUse houtside hotherPos hother habove hreached, ?_⟩
  intro hslot
  obtain ⟨hsame, hindex⟩ := hslot
  subst hsame
  have hself : ¬ Pending target level target (level + 1) := by
    intro h
    have := h.1
    omega
  obtain ⟨hlevels, hpath⟩ := htree.unique houtside hotherPos hother habove
    hreached htarget hpos hlevel hself htable
  subst hlevels
  exact hsettled ⟨Nat.le_refl _, (path_succ hother).mpr ⟨hpath, hindex⟩⟩

theorem Tree.tableOf_of_agrees (htree : Tree tables target level)
    (htarget : Outside target) (hpos : 1 ≤ level) (hlevel : level ≤ 4)
    {table : Frame}
    (htable : tableOf tables.memory tables.root target level = some table)
    {memory : Memory}
    (hagree : AgreesOff tables memory table (tableIndex target level))
    (houtside : Outside address) (hother : other ≤ 4)
    (hsettled : ¬ Pending target level address (other + 1)) :
    tableOf memory tables.root address other =
      tableOf tables.memory tables.root address other := by
  apply tableOf_of_agree (Nat.add_sub_cancel' hother)
  intro above reached hgt hle hreached
  obtain ⟨huse, hslot⟩ := htree.slot_settled htarget hpos hlevel htable
    houtside (by omega) hle (fun h => hsettled (h.below hgt)) hreached
  exact hagree reached _ huse hslot

theorem Tree.entryAt_of_agrees (htree : Tree tables target level)
    (htarget : Outside target) (hpos : 1 ≤ level) (hlevel : level ≤ 4)
    {table : Frame}
    (htable : tableOf tables.memory tables.root target level = some table)
    {memory : Memory}
    (hagree : AgreesOff tables memory table (tableIndex target level))
    (houtside : Outside address) (hotherPos : 1 ≤ other) (hother : other ≤ 4)
    (hsettled : ¬ Pending target level address other) :
    entryAt memory tables.root address other =
      entryAt tables.memory tables.root address other := by
  have habove : ¬ Pending target level address (other + 1) :=
    fun h => hsettled (h.below (Nat.le_succ other))
  rw [entryAt, entryAt, htree.tableOf_of_agrees htarget hpos hlevel htable
    hagree houtside hother habove]
  cases hreached : tableOf tables.memory tables.root address other with
  | none => rfl
  | some reached =>
      obtain ⟨huse, hslot⟩ := htree.slot_settled htarget hpos hlevel htable
        houtside hotherPos hother hsettled hreached
      rw [Option.map_some, Option.map_some, hagree reached _ huse hslot]

/-- The slot of the self-map is never the pending one. -/
theorem Tree.selfMapped_of_agrees (htree : Tree tables target level)
    (htarget : Outside target) (hpos : 1 ≤ level) (hlevel : level ≤ 4)
    {table : Frame}
    (htable : tableOf tables.memory tables.root target level = some table)
    {memory : Memory}
    (hagree : AgreesOff tables memory table (tableIndex target level)) :
    SelfMapped memory tables.root := by
  have hsame : memory tables.root 511 = tables.memory tables.root 511 := by
    apply hagree
    · simp [Tables.inUse]
    · intro hslot
      obtain ⟨hroot, hindex⟩ := hslot
      cases Nat.eq_or_lt_of_le hlevel with
      | inl htop =>
          subst htop
          exact htarget hindex.symm
      | inr hlt =>
          have hmem := htree.mem_installed htarget hpos hlt (by
            intro h
            have := h.1
            omega) htable
          exact (htree.proper _ hmem).2 hroot.symm
  have hself := htree.selfMapped
  exact ⟨hsame ▸ hself.present, hsame ▸ hself.frame⟩

theorem Tree.weaken {settled : BitVec 64} (htree : Tree tables settled 0)
    (target : BitVec 64) (level : Nat) : Tree tables target level where
  selfMapped := htree.selfMapped
  table := fun address other houtside hge hle _ =>
    htree.table address other houtside hge hle (fun h => by
      have := h.1
      omega)
  page := fun address houtside _ =>
    htree.page address houtside (fun h => by
      have := h.1
      omega)
  distinct := htree.distinct
  proper := htree.proper

end

/-! Installing a table. -/

section

variable {tables : Tables} {target : BitVec 64} {level : Nat}

def Tables.installMemory (tables : Tables) (target : BitVec 64) (level : Nat)
    (table : Frame) (reply : Reply) : Memory :=
  writeEntry
    (Function.update tables.memory (frameOf reply.address) reply.contents)
    table (tableIndex target level) (reply.address ||| 3#64)

/-- What the tables are after the frame of `reply` has been put into the entry of
`target`. -/
def Tables.install (tables : Tables) (target : BitVec 64) (level : Nat)
    (table : Frame) (reply : Reply) (supply : List Reply) : Tables :=
  { tables with
    memory := tables.installMemory target level table reply
    supply := supply
    installed := (path target level, frameOf reply.address) ::
      tables.installed }

theorem agreesOff_update {frame : Frame} (hfresh : frame ∉ tables.inUse)
    (contents : BitVec 9 → BitVec 64) (table : Frame) (index : BitVec 9) :
    AgreesOff tables (Function.update tables.memory frame contents) table
      index := by
  intro other slot huse _
  have hne : other ≠ frame := fun h => hfresh (h ▸ huse)
  rw [Function.update_of_ne hne]

theorem agreesOff_write {memory : Memory} {table : Frame} {index : BitVec 9}
    (hagree : AgreesOff tables memory table index) (entry : BitVec 64) :
    AgreesOff tables (writeEntry memory table index entry) table index := by
  intro other slot huse hslot
  rw [writeEntry_of_ne]
  · exact hagree other slot huse hslot
  · by_cases htable : other = table
    · exact .inr fun hindex => hslot ⟨htable, hindex⟩
    · exact .inl htable

theorem Tree.target_settled (target : BitVec 64) (level : Nat) :
    ¬ Pending target level target (level + 1) := by
  intro h
  have := h.1
  omega

theorem installTable_eq (htree : Tree tables target level)
    (htarget : Outside target) (hpos : 1 ≤ level) (hlevel : level ≤ 4)
    {table : Frame}
    (htable : tableOf tables.memory tables.root target level = some table)
    {reply : Reply} {supply : List Reply}
    (hsupply : tables.supply = reply :: supply) (haddress : reply.address ≠ 0)
    (hfresh : frameOf reply.address ∉ tables.inUse) :
    installTable tables level target =
      .ok (tables.install target level table reply supply) := by
  have hagree := agreesOff_update hfresh reply.contents table
    (tableIndex target level)
  have hself := htree.selfMapped_of_agrees htarget hpos hlevel htable hagree
  have hreached := htree.tableOf_of_agrees htarget hpos hlevel htable hagree
    htarget hlevel (Tree.target_settled target level)
  rw [htable] at hreached
  have halloc : allocPage tables =
      (reply.address, { tables with
        supply := supply
        memory := Function.update tables.memory (frameOf reply.address)
          reply.contents }) := by
    simp only [allocPage, hsupply, haddress, if_false]
  have hstore := @store_table { tables with
      supply := supply
      memory := Function.update tables.memory (frameOf reply.address)
        reply.contents } target (reply.address ||| 3#64) level hself hpos
    hlevel table hreached
  simp only [installTable, halloc]
  rw [hstore]
  rfl

theorem agreesOff_install {table : Frame} {reply : Reply}
    (hfresh : frameOf reply.address ∉ tables.inUse) :
    AgreesOff tables (tables.installMemory target level table reply) table
      (tableIndex target level) :=
  agreesOff_write (agreesOff_update hfresh _ _ _) _

/-- The new entry, for everything that shares the path of `target` down to
`level`. -/
theorem Tree.entryAt_install (htree : Tree tables target level)
    (htarget : Outside target) (hpos : 1 ≤ level) (hlevel : level ≤ 4)
    {table : Frame}
    (htable : tableOf tables.memory tables.root target level = some table)
    {reply : Reply} (hfresh : frameOf reply.address ∉ tables.inUse)
    {address : BitVec 64} (hpath : path address level = path target level) :
    entryAt (tables.installMemory target level table reply) tables.root
      address level = some (reply.address ||| 3#64) := by
  have hreached := htree.tableOf_of_agrees htarget hpos hlevel htable
    (agreesOff_install hfresh) htarget hlevel
    (Tree.target_settled target level)
  rw [htable] at hreached
  rw [entryAt_congr hlevel hpath, entryAt, hreached, Option.map_some,
    Tables.installMemory, writeEntry_self]

theorem Tree.tableOf_install (htree : Tree tables target level)
    (htarget : Outside target) (hpos : 1 ≤ level) (hlevel : level ≤ 4)
    {table : Frame}
    (htable : tableOf tables.memory tables.root target level = some table)
    {reply : Reply} (hfresh : frameOf reply.address ∉ tables.inUse)
    {address : BitVec 64} (hpath : path address level = path target level) :
    tableOf (tables.installMemory target level table reply) tables.root
      address (level - 1) = some (frameOf reply.address) := by
  have hstep := @tableOf_succ (tables.installMemory target level table reply)
    tables.root address (level - 1) (by omega)
  rw [Nat.sub_add_cancel hpos, htree.entryAt_install htarget hpos hlevel htable
    hfresh hpath] at hstep
  rw [hstep]
  simp

theorem Tree.frame_ne_table (htree : Tree tables target level)
    (htarget : Outside target) (hpos : 1 ≤ level) (hlevel : level ≤ 4)
    {table frame : Frame}
    (htable : tableOf tables.memory tables.root target level = some table)
    (hfresh : frame ∉ tables.inUse) : frame ≠ table := by
  intro hsame
  have huse := htree.mem_inUse htarget hpos hlevel
    (Tree.target_settled target level) htable
  exact hfresh (hsame ▸ huse)

theorem Tree.entryAt_below (htree : Tree tables target level)
    (htarget : Outside target) (hpos : 1 ≤ level) (hlevel : level ≤ 4)
    {table : Frame}
    (htable : tableOf tables.memory tables.root target level = some table)
    {reply : Reply} (hfresh : frameOf reply.address ∉ tables.inUse)
    {address : BitVec 64} (hpath : path address level = path target level) :
    entryAt (tables.installMemory target level table reply) tables.root
      address (level - 1) =
        some (reply.contents (tableIndex address (level - 1))) := by
  have hnewTable := htree.frame_ne_table htarget hpos hlevel htable hfresh
  rw [entryAt, htree.tableOf_install htarget hpos hlevel htable hfresh hpath,
    Option.map_some, Tables.installMemory,
    writeEntry_of_ne _ _ (.inl hnewTable), Function.update_self]

theorem Tree.install_empty (htree : Tree tables target level)
    (htarget : Outside target) (hpos : 2 ≤ level) (hlevel : level ≤ 4)
    {table : Frame}
    (htable : tableOf tables.memory tables.root target level = some table)
    {reply : Reply} (hfresh : frameOf reply.address ∉ tables.inUse)
    (hblank : ∀ index, index ≠ tableIndex target (level - 1) →
      present (reply.contents index) = false)
    {address : BitVec 64} {other : Nat} (hlt : other < level)
    (hpath : path address level = path target level)
    (hsettled : ¬ Pending target (level - 1) address other) :
    ¬ EntryPresent (tables.installMemory target level table reply)
      tables.root address other := by
  intro hpresent
  have hne : tableIndex address (level - 1) ≠ tableIndex target (level - 1) := by
    intro hindex
    apply hsettled
    refine ⟨by omega, (path_succ (by omega)).mpr ⟨?_, hindex⟩⟩
    rwa [Nat.sub_add_cancel (by omega)]
  obtain ⟨entry, hentry, hset⟩ : EntryPresent
      (tables.installMemory target level table reply) tables.root
      address (level - 1) :=
    hpresent.upward (Nat.le_sub_one_of_lt hlt) (by omega)
  rw [htree.entryAt_below htarget (by omega) hlevel htable hfresh hpath,
    Option.some.injEq] at hentry
  rw [← hentry, hblank _ hne] at hset
  cases hset

/-- After the installation the pending entry is the one below, in the new
table. -/
theorem Tree.install (htree : Tree tables target level)
    (htarget : Outside target) (hpos : 2 ≤ level) (hlevel : level ≤ 4)
    {table : Frame}
    (htable : tableOf tables.memory tables.root target level = some table)
    {reply : Reply} (supply : List Reply)
    (hframe : frameOf reply.address ≠ 0)
    (hfresh : frameOf reply.address ∉ tables.inUse)
    (hblank : ∀ index, index ≠ tableIndex target (level - 1) →
      present (reply.contents index) = false) :
    Tree (tables.install target level table reply supply) target (level - 1) ∧
      tableOf (tables.installMemory target level table reply)
        tables.root target (level - 1) = some (frameOf reply.address) := by
  have hagree : AgreesOff tables
      (tables.installMemory target level table reply) table
      (tableIndex target level) := agreesOff_install hfresh
  have hself := htree.selfMapped_of_agrees htarget (by omega) hlevel htable
    hagree
  refine ⟨⟨hself, ?_, ?_, ?_, ?_⟩,
    htree.tableOf_install htarget (by omega) hlevel htable hfresh rfl⟩
  · intro address other houtside hge hle hsettled entry hread hpresent
    by_cases hpending : Pending target level address other
    · obtain ⟨hother, hpath⟩ := hpending
      cases Nat.eq_or_lt_of_le hother with
      | inl heq =>
          subst heq
          have hentry := htree.entryAt_install htarget (by omega) hlevel htable
            hfresh hpath
          have hsame := hentry.symm.trans hread
          rw [Option.some.injEq] at hsame
          rw [← hsame, frameOf_or_flags, hpath]
          exact .head _
      | inr hlt =>
          exact (htree.install_empty htarget hpos hlevel htable hfresh hblank
            hlt hpath hsettled ⟨entry, hread, hpresent⟩).elim
    · have hold := htree.entryAt_of_agrees htarget (by omega) hlevel htable
        hagree houtside (by omega) hle hpending
      exact .tail _ (htree.table address other houtside hge hle hpending entry
        (hold ▸ hread) hpresent)
  · intro address houtside hsettled hpresent
    by_cases hpending : Pending target level address 1
    · exact (htree.install_empty htarget hpos hlevel htable hfresh hblank
        (by omega) hpending.2 hsettled hpresent).elim
    · have hold := htree.entryAt_of_agrees htarget (by omega) hlevel htable
        hagree houtside (Nat.le_refl 1) (by omega) hpending
      apply htree.page address houtside hpending
      unfold EntryPresent at *
      rwa [← hold]
  · have hnotMem : frameOf reply.address ∉ tables.installed.map Prod.snd :=
      fun h => hfresh (List.mem_append_left _ h)
    exact List.nodup_cons.mpr ⟨hnotMem, htree.distinct⟩
  · intro item hitem
    cases hitem with
    | head =>
        refine ⟨hframe, ?_⟩
        intro hroot
        have hroot : frameOf reply.address = tables.root := hroot
        apply hfresh
        rw [hroot]
        exact List.mem_append_right _ (.head _)
    | tail _ hitem => exact htree.proper item hitem

theorem Tree.writeLeaf (htree : Tree tables target 1)
    (htarget : Outside target) {table : Frame}
    (htable : tableOf tables.memory tables.root target 1 = some table)
    (entry : BitVec 64) (value : Bool)
    (hvalue : present entry = true → value = true) (settled : BitVec 64) :
    Tree { tables with
      memory := writeEntry tables.memory table (tableIndex target 1) entry
      mapped := Function.update tables.mapped (path target 1) value }
      settled 0 := by
  have hagree : AgreesOff tables
      (writeEntry tables.memory table (tableIndex target 1) entry) table
      (tableIndex target 1) :=
    agreesOff_write (fun _ _ _ _ => rfl) _
  have hreached := htree.tableOf_of_agrees htarget (Nat.le_refl 1) (by omega)
    htable hagree htarget (by omega) (Tree.target_settled target 1)
  rw [htable] at hreached
  refine ⟨htree.selfMapped_of_agrees htarget (Nat.le_refl 1) (by omega) htable
    hagree, ?_, ?_, htree.distinct, htree.proper⟩
  · intro address other houtside hge hle _ read hread hpresent
    have hsettled : ¬ Pending target 1 address other := by
      intro h
      have := h.1
      omega
    have hold := htree.entryAt_of_agrees htarget (Nat.le_refl 1) (by omega)
      htable hagree houtside (by omega) hle hsettled
    exact htree.table address other houtside hge hle hsettled read
      (hold ▸ hread) hpresent
  · intro address houtside _ hpresent
    by_cases hpath : path address 1 = path target 1
    · simp only [hpath, Function.update_self]
      apply hvalue
      rw [← presentAt_iff, presentAt, entryAt_congr (by omega) hpath,
        ← presentAt, presentAt_of_tableOf hreached, writeEntry_self]
        at hpresent
      exact hpresent
    · have hsettled : ¬ Pending target 1 address 1 := fun h => hpath h.2
      have hold := htree.entryAt_of_agrees htarget (Nat.le_refl 1) (by omega)
        htable hagree houtside (Nat.le_refl 1) (by omega) hsettled
      simp only [Function.update_of_ne hpath]
      apply htree.page address houtside hsettled
      unfold EntryPresent at *
      rwa [← hold]

end

end Synos.Paging

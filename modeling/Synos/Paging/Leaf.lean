import Synos.Paging.Boot

namespace Synos.Paging

open Synos.Data

/-! Which entries `pga_map` and `pga_unmap` change, in any tree without shared
tables. -/

/-- No table is reached through two entries. -/
def Unshared (memory : Memory) (root : Frame) : Prop :=
  ∀ first second level other table, Outside first → Outside second →
    1 ≤ level → level ≤ 4 → 1 ≤ other → other ≤ 4 →
    tableOf memory root first level = some table →
    tableOf memory root second other = some table →
    level = other ∧ path first (level + 1) = path second (other + 1)

/-- Only the leaf entries of touched pages differ, in the tree as in memory. -/
structure Rewritten (root : Frame) (before after : Memory)
    (touched : BitVec 64 → Prop) : Prop where
  selfMapped : SelfMapped after root
  unshared : Unshared after root
  kept : ∀ address level, Outside address → 1 ≤ level → level ≤ 4 →
    ¬ (level = 1 ∧ touched address) →
    entryAt after root address level = entryAt before root address level
  frame : ∀ frame index,
    (∀ address, Outside address → touched address →
      tableOf before root address 1 = some frame →
      tableIndex address 1 ≠ index) →
    after frame index = before frame index

theorem tableOf_of_entries {memory other : Memory} {root : Frame}
    {address : BitVec 64} {depth level : Nat} (hdepth : level + depth = 4)
    (hentry : ∀ above, level < above → above ≤ 4 →
      entryAt other root address above = entryAt memory root address above) :
    tableOf other root address level = tableOf memory root address level := by
  cases depth with
  | zero =>
      have htop : level = 4 := by omega
      subst htop
      rfl
  | succ depth =>
      rw [tableOf_succ (by omega), tableOf_succ (by omega),
        hentry (level + 1) (by omega) (by omega)]

section

variable {root : Frame} {before middle after : Memory}
  {touched other : BitVec 64 → Prop}

theorem Rewritten.tableOf (hwrite : Rewritten root before after touched)
    {address : BitVec 64} {level : Nat} (houtside : Outside address)
    (hpos : 1 ≤ level) (hle : level ≤ 4) :
    tableOf after root address level = tableOf before root address level := by
  apply tableOf_of_entries (Nat.add_sub_cancel' hle)
  intro above hgt habove
  exact hwrite.kept address above houtside (by omega) habove (by omega)

theorem Rewritten.trans (hfirst : Rewritten root before middle touched)
    (hsecond : Rewritten root middle after other) :
    Rewritten root before after
      (fun address => touched address ∨ other address) where
  selfMapped := hsecond.selfMapped
  unshared := hsecond.unshared
  kept := by
    intro address level houtside hpos hle htouched
    rw [hsecond.kept address level houtside hpos hle
        (fun h => htouched ⟨h.1, .inr h.2⟩),
      hfirst.kept address level houtside hpos hle
        (fun h => htouched ⟨h.1, .inl h.2⟩)]
  frame := by
    intro frame index hslot
    rw [hsecond.frame frame index, hfirst.frame frame index]
    · exact fun address houtside h => hslot address houtside (.inl h)
    · intro address houtside h htable
      rw [hfirst.tableOf houtside (Nat.le_refl 1) (by omega)] at htable
      exact hslot address houtside (.inr h) htable

theorem Rewritten.mono (hwrite : Rewritten root before after touched)
    (hle : ∀ address, touched address → other address) :
    Rewritten root before after other where
  selfMapped := hwrite.selfMapped
  unshared := hwrite.unshared
  kept := fun address level houtside hpos hlevel h =>
    hwrite.kept address level houtside hpos hlevel
      (fun htouched => h ⟨htouched.1, hle address htouched.2⟩)
  frame := fun frame index h =>
    hwrite.frame frame index
      (fun address houtside htouched => h address houtside
        (hle address htouched))

theorem Rewritten.refl {memory : Memory} (hself : SelfMapped memory root)
    (hunshared : Unshared memory root) (touched : BitVec 64 → Prop) :
    Rewritten root memory memory touched where
  selfMapped := hself
  unshared := hunshared
  kept := fun _ _ _ _ _ _ => rfl
  frame := fun _ _ _ => rfl

end

/-! One page. -/

section

variable {memory : Memory} {root table : Frame} {target : BitVec 64}

/-- A write to the leaf entry of `target` touches no other entry. -/
theorem rewritten_writeEntry (hself : SelfMapped memory root)
    (hunshared : Unshared memory root) (htarget : Outside target)
    (htable : tableOf memory root target 1 = some table)
    (entry : BitVec 64) :
    Rewritten root memory
      (writeEntry memory table (tableIndex target 1) entry)
      (fun address => path address 1 = path target 1) := by
  have hslot : ∀ address level reached, Outside address → 1 ≤ level →
      level ≤ 4 → ¬ (level = 1 ∧ path address 1 = path target 1) →
      tableOf memory root address level = some reached →
      reached ≠ table ∨ tableIndex address level ≠ tableIndex target 1 := by
    intro address level reached houtside hpos hle htouched hreached
    by_contra hsame
    simp only [not_or, Decidable.not_not] at hsame
    obtain ⟨hsame, hindex⟩ := hsame
    subst hsame
    obtain ⟨hlevel, hpath⟩ := hunshared address target level 1 reached houtside
      htarget hpos hle (Nat.le_refl 1) (by omega) hreached htable
    subst hlevel
    exact htouched ⟨rfl, (path_succ (by omega)).mpr ⟨hpath, hindex⟩⟩
  have htableOf : ∀ address level, Outside address → 1 ≤ level → level ≤ 4 →
      tableOf (writeEntry memory table (tableIndex target 1) entry) root
        address level = tableOf memory root address level := by
    intro address level houtside hpos hle
    apply tableOf_of_agree (Nat.add_sub_cancel' hle)
    intro above reached hgt habove hreached
    exact writeEntry_of_ne _ _ (hslot address above reached houtside (by omega)
      habove (by omega) hreached)
  have hroot : root ≠ table := by
    intro hsame
    have hlevel := (hunshared target target 4 1 table htarget htarget
      (by omega) (Nat.le_refl 4) (Nat.le_refl 1) (by omega)
      (hsame ▸ tableOf_top) htable).1
    omega
  refine ⟨?_, ?_, ?_, ?_⟩
  · have hsame := @writeEntry_of_ne memory table root (tableIndex target 1) 511
      entry (.inl hroot)
    exact ⟨hsame ▸ hself.present, hsame ▸ hself.frame⟩
  · intro first second level other reached hfirst hsecond hpos hle hotherPos
      hother hreached hotherReached
    rw [htableOf first level hfirst hpos hle] at hreached
    rw [htableOf second other hsecond hotherPos hother] at hotherReached
    exact hunshared first second level other reached hfirst hsecond hpos hle
      hotherPos hother hreached hotherReached
  · intro address level houtside hpos hle htouched
    rw [entryAt, entryAt, htableOf address level houtside hpos hle]
    cases hreached : tableOf memory root address level with
    | none => rfl
    | some reached =>
        rw [Option.map_some, Option.map_some, writeEntry_of_ne _ _
          (hslot address level reached houtside hpos hle htouched hreached)]
  · intro frame index hframe
    apply writeEntry_of_ne
    by_contra hsame
    simp only [not_or, Decidable.not_not] at hsame
    exact hframe target htarget rfl (hsame.1 ▸ htable) hsame.2.symm

theorem entryAt_writeEntry_self (hself : SelfMapped memory root)
    (hunshared : Unshared memory root) (htarget : Outside target)
    (htable : tableOf memory root target 1 = some table)
    (entry : BitVec 64) :
    entryAt (writeEntry memory table (tableIndex target 1) entry) root target
      1 = some entry := by
  have hkept := (rewritten_writeEntry hself hunshared htarget htable
    entry).tableOf htarget (Nat.le_refl 1) (by omega)
  rw [entryAt, hkept, htable, Option.map_some, writeEntry_self]

/-- The store through the recursive slot writes the leaf entry of `target`. -/
theorem store_leaf {tables : Tables}
    (hself : SelfMapped tables.memory tables.root)
    (hunshared : Unshared tables.memory tables.root) (htarget : Outside target)
    (htable : ∃ table, tableOf tables.memory tables.root target 1 = some table)
    (entry : BitVec 64) :
    ∃ stored, store tables (getTableAddress target 1) entry = .ok stored ∧
      stored.root = tables.root ∧
      Rewritten tables.root tables.memory stored.memory
        (fun address => path address 1 = path target 1) ∧
      entryAt stored.memory tables.root target 1 = some entry := by
  obtain ⟨table, htable⟩ := htable
  exact ⟨_, store_table hself (Nat.le_refl 1) (by omega) htable, rfl,
    rewritten_writeEntry hself hunshared htarget htable entry,
    entryAt_writeEntry_self hself hunshared htarget htable entry⟩

end

/-- The page that a call is about. -/
def PageCall.target : PageCall → BitVec 64
  | .map vaddress _ => vaddress
  | .unmap vaddress => vaddress

/-- What the call leaves in the leaf entry of its page. -/
def PageCall.leaf (old : BitVec 64) : PageCall → BitVec 64
  | .map _ entry => entry
  | .unmap _ => if present old then 0 else old

/-- The page has its tables. -/
def Backed (memory : Memory) (root : Frame) (address : BitVec 64) : Prop :=
  Outside address ∧ ∀ level, 2 ≤ level → level ≤ 4 →
    EntryPresent memory root address level

theorem Backed.exists_table {memory : Memory} {root : Frame}
    {address : BitVec 64} (hbacked : Backed memory root address) :
    ∃ table, tableOf memory root address 1 = some table :=
  tableOf_of_presentAt (by omega)
    (presentAt_iff.mpr (hbacked.2 2 (Nat.le_refl 2) (by omega)))

theorem Rewritten.backed {root : Frame} {before after : Memory}
    {touched : BitVec 64 → Prop}
    (hwrite : Rewritten root before after touched) {address : BitVec 64}
    (hbacked : Backed before root address) : Backed after root address := by
  refine ⟨hbacked.1, ?_⟩
  intro level hge hle
  have hkept := hwrite.kept address level hbacked.1 (by omega) hle (by omega)
  unfold EntryPresent
  rw [hkept]
  exact hbacked.2 level hge hle

section

variable {tables : Tables}

theorem pageMachine_step_rewrites
    (hself : SelfMapped tables.memory tables.root)
    (hunshared : Unshared tables.memory tables.root) {call : PageCall}
    (hbacked : Backed tables.memory tables.root call.target) :
    ∃ old after, entryAt tables.memory tables.root call.target 1 = some old ∧
      pageMachine.step tables call = .ok after ∧ after.root = tables.root ∧
      Rewritten tables.root tables.memory after.memory
        (fun address => path address 1 = path call.target 1) ∧
      entryAt after.memory tables.root call.target 1 =
        some (call.leaf old) := by
  obtain ⟨table, htable⟩ := hbacked.exists_table
  have hold : entryAt tables.memory tables.root call.target 1 =
      some (tables.memory table (tableIndex call.target 1)) := by
    rw [entryAt, htable, Option.map_some]
  refine ⟨tables.memory table (tableIndex call.target 1), ?_⟩
  cases call with
  | map vaddress entry =>
      have htwo := presentAt_iff.mpr (hbacked.2 2 (Nat.le_refl 2) (by omega))
      simp only [PageCall.target] at *
      obtain ⟨stored, hstore, hroot, hwrite, hleaf⟩ :=
        store_leaf hself hunshared hbacked.1 hbacked.exists_table entry
      refine ⟨{ stored with
          mapped := Function.update stored.mapped (path vaddress 1) true },
        hold, ?_, hroot, hwrite, hleaf⟩
      simp only [pageMachine, mapPage]
      rw [@pageIspresent_eq tables vaddress 2 hself 2 rfl (by omega), htwo]
      simp only [if_true, hstore]
  | unmap vaddress =>
      have hpresent := presentAt_of_tableOf htable
      simp only [PageCall.target] at *
      have hstep := @pageIspresent_eq tables vaddress 1 hself 3 rfl
        (Nat.le_refl 1)
      cases hfound : present
          (tables.memory table (tableIndex vaddress 1)) with
      | false =>
          rw [hpresent, hfound] at hstep
          refine ⟨{ tables with
              mapped := Function.update tables.mapped (path vaddress 1) false },
            hold, ?_, rfl, Rewritten.refl hself hunshared _, ?_⟩
          · simp only [pageMachine, unmapPage, hstep]
          · rw [PageCall.leaf, hfound]
            exact hold
      | true =>
          rw [hpresent, hfound] at hstep
          obtain ⟨stored, hstore, hroot, hwrite, hleaf⟩ :=
            store_leaf hself hunshared hbacked.1 hbacked.exists_table 0
          refine ⟨{ stored with
              mapped := Function.update stored.mapped (path vaddress 1) false },
            hold, ?_, hroot, hwrite, ?_⟩
          · simp only [pageMachine, unmapPage, hstep, hstore]
          · rw [PageCall.leaf, hfound]
            exact hleaf

/-- A run over distinct pages rewrites each leaf entry once. -/
theorem run_pages_rewrites (hself : SelfMapped tables.memory tables.root)
    (hunshared : Unshared tables.memory tables.root) {calls : List PageCall}
    (hbacked : ∀ call ∈ calls,
      Backed tables.memory tables.root call.target)
    (hdistinct : (calls.map fun call => path call.target 1).Nodup) :
    ∃ after, pageMachine.run tables calls = .ok after ∧
      after.root = tables.root ∧
      Rewritten tables.root tables.memory after.memory
        (fun address => ∃ call ∈ calls,
          path address 1 = path call.target 1) ∧
      ∀ call ∈ calls, ∃ old,
        entryAt tables.memory tables.root call.target 1 = some old ∧
        entryAt after.memory tables.root call.target 1 =
          some (call.leaf old) := by
  induction calls generalizing tables with
  | nil =>
      refine ⟨tables, rfl, rfl, Rewritten.refl hself hunshared _, ?_⟩
      intro call hcall
      exact absurd hcall List.not_mem_nil
  | cons call calls ih =>
      obtain ⟨hnew, hdistinct⟩ := List.nodup_cons.mp hdistinct
      obtain ⟨old, next, hold, hstep, hroot, hwrite, hleaf⟩ :=
        pageMachine_step_rewrites hself hunshared
          (hbacked call List.mem_cons_self)
      obtain ⟨after, hrun, hafterRoot, hrest, hleaves⟩ := @ih next
        (hroot ▸ hwrite.selfMapped) (hroot ▸ hwrite.unshared)
        (fun other hother => hroot ▸
          hwrite.backed (hbacked other (List.mem_cons_of_mem _ hother)))
        hdistinct
      rw [hroot] at hafterRoot hrest
      -- the later calls are about other pages than the first
      have hother : ∀ other ∈ calls,
          path other.target 1 ≠ path call.target 1 := by
        intro other hmem hsame
        exact hnew (List.mem_map.mpr ⟨other, hmem, hsame⟩)
      refine ⟨after, ?_, hafterRoot, (hwrite.trans hrest).mono ?_, ?_⟩
      · exact Machine.run_cons_ok.mpr ⟨next, hstep, hrun⟩
      · intro address htouched
        cases htouched with
        | inl hpath => exact ⟨call, List.mem_cons_self, hpath⟩
        | inr hlater =>
            obtain ⟨later, hmem, hpath⟩ := hlater
            exact ⟨later, List.mem_cons_of_mem _ hmem, hpath⟩
      · intro later hlater
        cases List.mem_cons.mp hlater with
        | inl hfirst =>
            subst hfirst
            refine ⟨old, hold, ?_⟩
            rw [hrest.kept later.target 1
              (hbacked later List.mem_cons_self).1 (Nat.le_refl 1)
              (by omega), hleaf]
            intro htouched
            obtain ⟨other, hmem, hpath⟩ := htouched.2
            exact hother other hmem hpath.symm
        | inr hmem =>
            obtain ⟨found, hfound, hafter⟩ := hleaves later hmem
            rw [hroot, hwrite.kept later.target 1
              (hbacked later hlater).1 (Nat.le_refl 1) (by omega)
              (fun h => hother later hmem h.2)] at hfound
            exact ⟨found, hfound, hroot ▸ hafter⟩

theorem run_unmaps_absent (hself : SelfMapped tables.memory tables.root)
    {pages : List (BitVec 64)}
    (habsent : ∀ page ∈ pages,
      presentAt tables.memory tables.root page 1 = false) :
    ∃ after, pageMachine.run tables (pages.map .unmap) = .ok after ∧
      after.root = tables.root ∧ after.memory = tables.memory := by
  induction pages generalizing tables with
  | nil => exact ⟨tables, rfl, rfl, rfl⟩
  | cons page pages ih =>
      have hstep := @pageIspresent_eq tables page 1 hself 3 rfl (Nat.le_refl 1)
      rw [habsent page List.mem_cons_self] at hstep
      obtain ⟨after, hrun, hroot, hmemory⟩ := @ih
        { tables with
          mapped := Function.update tables.mapped (path page 1) false }
        hself (fun other hother => habsent other
          (List.mem_cons_of_mem _ hother))
      refine ⟨after, ?_, hroot, hmemory⟩
      refine Machine.run_cons_ok.mpr ⟨_, ?_, hrun⟩
      simp only [pageMachine, unmapPage, hstep]

end

/-! The pages of a call, and the entries written for them. -/

/-- The entry that `pga_map` writes for page `i`, whatever flags `entry` brings
from the round before. -/
def leafEntry (paddress entry : BitVec 64) (i : Nat) : BitVec 64 :=
  ((paddress + pageOffset i) &&& ~~~flagMask) + (entry &&& flagMask)

theorem getLsbD_leafEntry (paddress entry : BitVec 64) (i bit : Nat) :
    (leafEntry paddress entry i).getLsbD bit =
      if flagMask.getLsbD bit then entry.getLsbD bit
      else (paddress + pageOffset i).getLsbD bit := by
  have hdisjoint : ((paddress + pageOffset i) &&& ~~~flagMask) &&&
      (entry &&& flagMask) = 0#64 := by
    apply BitVec.eq_of_getLsbD_eq
    intro bit hbit
    simp only [BitVec.getLsbD_and, BitVec.getLsbD_not, BitVec.getLsbD_zero]
    cases flagMask.getLsbD bit <;> simp
  rw [leafEntry, BitVec.add_eq_or_of_and_eq_zero _ _ hdisjoint,
    BitVec.getLsbD_or, BitVec.getLsbD_and, BitVec.getLsbD_and,
    BitVec.getLsbD_not]
  cases hmask : flagMask.getLsbD bit with
  | true => simp
  | false =>
      by_cases hbit : bit < 64
      · simp [hbit]
      · simp [BitVec.getLsbD_of_ge _ _ (Nat.le_of_not_lt hbit)]

theorem getLsbD_flagMask {bit : Nat} (hbit : bit < 64) :
    flagMask.getLsbD bit = decide (bit < 12 ∨ 52 ≤ bit) := by
  have hlow := getLsbD_ones 12 bit (by decide)
  have hhigh := @getLsbD_ones_shiftLeft 12 52 bit (by decide) hbit
  rw [show 2 ^ 12 - 1 = 0xFFF from rfl] at hlow hhigh
  have hrange : 52 ≤ bit ∧ bit < 52 + 12 ↔ 52 ≤ bit := by omega
  rw [flagMask, BitVec.getLsbD_or, hlow, hhigh, ← Bool.decide_or]
  simp only [hrange, Or.comm]

/-- The flags of an entry survive the round: no frame bit leaks into them. -/
theorem leafEntry_flags (paddress entry : BitVec 64) (i : Nat) :
    leafEntry paddress entry i &&& flagMask = entry &&& flagMask := by
  apply BitVec.eq_of_getLsbD_eq
  intro bit hbit
  rw [BitVec.getLsbD_and, BitVec.getLsbD_and, getLsbD_leafEntry]
  cases flagMask.getLsbD bit <;> simp

theorem leafEntry_leafEntry (paddress entry : BitVec 64) (i j : Nat) :
    leafEntry paddress (leafEntry paddress entry i) j =
      leafEntry paddress entry j := by
  rw [leafEntry, leafEntry_flags, leafEntry]

theorem mapCallsFrom_eq (vaddress paddress entry : BitVec 64)
    (first count : Nat) :
    mapCallsFrom vaddress paddress entry first count =
      (List.range' first count).map fun i =>
        .map (vaddress + pageOffset i) (leafEntry paddress entry i) := by
  induction count generalizing first entry with
  | zero => rfl
  | succ count ih =>
      simp only [mapCallsFrom, List.range'_succ, List.map_cons]
      rw [← leafEntry, ih]
      simp only [leafEntry_leafEntry]

theorem unmapCallsFrom_eq (vaddress : BitVec 64) (first count : Nat) :
    unmapCallsFrom vaddress first count =
      ((List.range' first count).map fun i => vaddress + pageOffset i).map
        .unmap := by
  induction count generalizing first with
  | zero => rfl
  | succ count ih =>
      simp only [unmapCallsFrom, List.range'_succ, List.map_cons, ih]

theorem pageAddress_leafEntry {paddress : BitVec 64} (entry : BitVec 64)
    {i : Nat} (haligned : 4096 ∣ paddress.toNat)
    (hfits : paddress.toNat + 4096 * (i + 1) ≤ 2 ^ 52) :
    pageAddress (frameOf (leafEntry paddress entry i)) =
      paddress + pageOffset i := by
  have hsum : (paddress + pageOffset i).toNat = paddress.toNat + 4096 * i := by
    simp only [pageOffset, BitVec.toNat_add, BitVec.toNat_mul,
      BitVec.toNat_ofNat]
    omega
  have hhigh : ∀ bit, 52 ≤ bit →
      (paddress + pageOffset i).getLsbD bit = false := by
    intro bit hge
    apply Nat.testBit_lt_two_pow
    have hpow := Nat.pow_le_pow_right (show 0 < 2 by decide) hge
    omega
  have hlow : ∀ bit < 12, (paddress + pageOffset i).getLsbD bit = false := by
    intro bit hlt
    have hmod := @Nat.testBit_mod_two_pow (paddress + pageOffset i).toNat 12 bit
    have hzero : (paddress + pageOffset i).toNat % 2 ^ 12 = 0 := by omega
    rw [hzero, Nat.zero_testBit, decide_eq_true hlt, Bool.true_and] at hmod
    exact hmod.symm
  apply BitVec.eq_of_getLsbD_eq
  intro bit hbit
  rw [pageAddress, BitVec.getLsbD_shiftLeft, BitVec.getLsbD_setWidth, frameOf,
    BitVec.getLsbD_extractLsb', getLsbD_leafEntry]
  by_cases hlt : bit < 12
  · simp [hlt, hlow bit hlt]
  · have hback : 12 + (bit - 12) = bit := by omega
    rw [hback, getLsbD_flagMask hbit]
    by_cases hge : 52 ≤ bit
    · have hframe : ¬ bit - 12 < 40 := by omega
      simp [hframe, hhigh bit hge]
    · have hframe : bit - 12 < 40 := by omega
      have hwide : bit - 12 < 64 := by omega
      simp [hlt, hge, hframe, hbit, hwide]

/-- The present, writable and no-execute bits are those asked for. -/
structure RequestedBits (flags : BitVec 32) (entry : BitVec 64) : Prop where
  present : present entry = decide (flags &&& vpageNotPresent = 0)
  writable : entry.getLsbD 1 = decide (flags &&& vpageNotWritable = 0)
  noExecute : entry.getLsbD 63 = decide (flags &&& vpageNoExecute ≠ 0)

theorem getLsbD_ite_zero (condition : Prop) [Decidable condition]
    (value : BitVec 64) (bit : Nat) :
    (if condition then value else 0).getLsbD bit =
      (decide condition && value.getLsbD bit) := by
  split <;> simp [*]

theorem getLsbD_ofNat_ite_zero (condition : Prop) [Decidable condition]
    (value bit : Nat) :
    (BitVec.ofNat 64 (if condition then value else 0)).getLsbD bit =
      (decide condition && (BitVec.ofNat 64 value).getLsbD bit) := by
  split <;> simp [*]

theorem requestedBits_flagEntry (flags : BitVec 32) :
    RequestedBits flags (flagEntry flags) := by
  constructor <;>
    simp only [Paging.present, flagEntry, BitVec.getLsbD_or,
      BitVec.natCast_eq_ofNat, getLsbD_ofNat_ite_zero, getLsbD_ite_zero] <;>
    simp

theorem RequestedBits.leafEntry {flags : BitVec 32} {entry : BitVec 64}
    (hentry : RequestedBits flags entry) (paddress : BitVec 64) (i : Nat) :
    RequestedBits flags (leafEntry paddress entry i) := by
  have hbit : ∀ bit < 64, bit < 12 ∨ 52 ≤ bit →
      (Paging.leafEntry paddress entry i).getLsbD bit = entry.getLsbD bit := by
    intro bit hlt hflag
    rw [getLsbD_leafEntry, getLsbD_flagMask hlt, decide_eq_true hflag,
      if_pos rfl]
  constructor
  · exact (hbit 0 (by decide) (by decide)).trans hentry.present
  · exact (hbit 1 (by decide) (by decide)).trans hentry.writable
  · exact (hbit 63 (by decide) (by decide)).trans hentry.noExecute

/-! Whole calls. -/

/-- The page is one of the `2 ^ order` pages of a call. -/
def InPages (vaddress : BitVec 64) (order : Nat) (address : BitVec 64) :
    Prop :=
  ∃ i < 2 ^ order, path address 1 = path (vaddress + pageOffset i) 1

section

variable {tables : Tables} {vaddress : BitVec 64} {order : Nat}

/-- The pages of a call are distinct and have their tables. -/
structure Mappable (memory : Memory) (root : Frame) (vaddress : BitVec 64)
    (order : Nat) : Prop where
  backed : ∀ i < 2 ^ order, Backed memory root (vaddress + pageOffset i)
  distinct : ∀ i j, i < 2 ^ order → j < 2 ^ order →
    path (vaddress + pageOffset i) 1 = path (vaddress + pageOffset j) 1 → i = j

theorem Rewritten.mappable {root : Frame} {before after : Memory}
    {touched : BitVec 64 → Prop}
    (hwrite : Rewritten root before after touched)
    (hpages : Mappable before root vaddress order) :
    Mappable after root vaddress order where
  backed := fun i hi => hwrite.backed (hpages.backed i hi)
  distinct := hpages.distinct

/-- A call on distinct pages that have their tables, one page call for each. -/
theorem run_call_rewrites (hself : SelfMapped tables.memory tables.root)
    (hunshared : Unshared tables.memory tables.root)
    (hpages : Mappable tables.memory tables.root vaddress order)
    {pageCall : Nat → PageCall}
    (htarget : ∀ i, (pageCall i).target = vaddress + pageOffset i) :
    ∃ after,
      pageMachine.run tables ((List.range' 0 (2 ^ order)).map pageCall) =
        .ok after ∧
      after.root = tables.root ∧
      Rewritten tables.root tables.memory after.memory
        (InPages vaddress order) ∧
      ∀ i < 2 ^ order, ∃ old,
        entryAt tables.memory tables.root (vaddress + pageOffset i) 1 =
          some old ∧
        entryAt after.memory tables.root (vaddress + pageOffset i) 1 =
          some ((pageCall i).leaf old) := by
  have hmem : ∀ {i}, i ∈ List.range' 0 (2 ^ order) ↔ i < 2 ^ order := by
    intro i
    simp
  obtain ⟨after, hrun, hroot, hwrite, hleaves⟩ := @run_pages_rewrites tables
    hself hunshared ((List.range' 0 (2 ^ order)).map pageCall) (by
      intro call hcall
      obtain ⟨i, hi, hcall⟩ := List.mem_map.mp hcall
      rw [← hcall, htarget]
      exact hpages.backed i (hmem.mp hi)) (by
      rw [List.map_map]
      refine List.Nodup.map_on ?_ List.nodup_range'
      intro i hi j hj hpath
      simp only [Function.comp_apply, htarget] at hpath
      exact hpages.distinct i j (hmem.mp hi) (hmem.mp hj) hpath)
  refine ⟨after, hrun, hroot, hwrite.mono ?_, ?_⟩
  · intro address htouched
    obtain ⟨call, hcall, hpath⟩ := htouched
    obtain ⟨i, hi, hcall⟩ := List.mem_map.mp hcall
    rw [← hcall, htarget] at hpath
    exact ⟨i, hmem.mp hi, hpath⟩
  · intro i hi
    have hleaf := hleaves (pageCall i)
      (List.mem_map.mpr ⟨i, hmem.mpr hi, rfl⟩)
    rwa [htarget] at hleaf

theorem pgaMap_rewrites (hself : SelfMapped tables.memory tables.root)
    (hunshared : Unshared tables.memory tables.root)
    (hpages : Mappable tables.memory tables.root vaddress order)
    (paddress : BitVec 64) (flags : BitVec 32) :
    ∃ mapped, pgaMap tables vaddress paddress order flags = .ok mapped ∧
      mapped.root = tables.root ∧
      Rewritten tables.root tables.memory mapped.memory
        (InPages vaddress order) ∧
      ∀ i < 2 ^ order,
        entryAt mapped.memory tables.root (vaddress + pageOffset i) 1 =
          some (leafEntry paddress (flagEntry flags) i) := by
  obtain ⟨mapped, hrun, hroot, hwrite, hleaves⟩ :=
    @run_call_rewrites tables vaddress order hself hunshared hpages
      (fun i => .map (vaddress + pageOffset i)
        (leafEntry paddress (flagEntry flags) i)) (fun _ => rfl)
  rw [← mapCallsFrom_eq, ← pgaMapFrom_eq_run] at hrun
  refine ⟨mapped, hrun, hroot, hwrite, ?_⟩
  intro i hi
  obtain ⟨old, -, hleaf⟩ := hleaves i hi
  exact hleaf

theorem pgaUnmap_rewrites (hself : SelfMapped tables.memory tables.root)
    (hunshared : Unshared tables.memory tables.root)
    (hpages : Mappable tables.memory tables.root vaddress order) :
    ∃ unmapped, pgaUnmap tables vaddress order = .ok unmapped ∧
      unmapped.root = tables.root ∧
      Rewritten tables.root tables.memory unmapped.memory
        (InPages vaddress order) ∧
      ∀ i < 2 ^ order, ∃ old,
        entryAt tables.memory tables.root (vaddress + pageOffset i) 1 =
          some old ∧
        entryAt unmapped.memory tables.root (vaddress + pageOffset i) 1 =
          some (if present old then 0 else old) := by
  obtain ⟨unmapped, hrun, hroot, hwrite, hleaves⟩ :=
    @run_call_rewrites tables vaddress order hself hunshared hpages
      (fun i => .unmap (vaddress + pageOffset i)) (fun _ => rfl)
  rw [← Function.comp_def PageCall.unmap, ← List.map_map, ← unmapCallsFrom_eq,
    ← pgaUnmapFrom_eq_run] at hrun
  exact ⟨unmapped, hrun, hroot, hwrite, hleaves⟩

theorem pgaUnmap_absent (hself : SelfMapped tables.memory tables.root)
    (habsent : ∀ i < 2 ^ order,
      presentAt tables.memory tables.root (vaddress + pageOffset i) 1 =
        false) :
    ∃ after, pgaUnmap tables vaddress order = .ok after ∧
      after.root = tables.root ∧ after.memory = tables.memory := by
  rw [pgaUnmap, pgaUnmapFrom_eq_run, unmapCallsFrom_eq]
  apply run_unmaps_absent hself
  intro page hpage
  obtain ⟨i, hi, hpage⟩ := List.mem_map.mp hpage
  rw [← hpage]
  apply habsent
  simpa using hi

end

/-- A call of `pga_map`, the `pga_unmap` of the same pages and a second
`pga_unmap`: each changes the leaf entries of these pages and nothing else. -/
structure MapsAndUnmaps (tables mapped unmapped again : Tables)
    (vaddress paddress : BitVec 64) (order : Nat) (flags : BitVec 32) :
    Prop where
  map : pgaMap tables vaddress paddress order flags = .ok mapped
  unmap : pgaUnmap mapped vaddress order = .ok unmapped
  unmapAgain : pgaUnmap unmapped vaddress order = .ok again
  mapLeaf : ∀ i < 2 ^ order, ∃ entry,
    entryAt mapped.memory tables.root (vaddress + pageOffset i) 1 =
        some entry ∧
      pageAddress (frameOf entry) = paddress + pageOffset i ∧
      RequestedBits flags entry
  /-- An entry that `pga_map` did not make present is left by `pga_unmap`. -/
  unmapLeaf : ∀ i < 2 ^ order,
    entryAt unmapped.memory tables.root (vaddress + pageOffset i) 1 =
      if flags &&& vpageNotPresent = 0 then some 0
      else entryAt mapped.memory tables.root (vaddress + pageOffset i) 1
  mapFrame : Rewritten tables.root tables.memory mapped.memory
    (InPages vaddress order)
  unmapFrame : Rewritten tables.root tables.memory unmapped.memory
    (InPages vaddress order)
  unchanged : again.memory = unmapped.memory

theorem pgaMap_pgaUnmap_leaves {tables : Tables}
    (hself : SelfMapped tables.memory tables.root)
    (hunshared : Unshared tables.memory tables.root)
    {vaddress paddress : BitVec 64} {order : Nat} (flags : BitVec 32)
    (hpages : Mappable tables.memory tables.root vaddress order)
    (haligned : 4096 ∣ paddress.toNat)
    (hfits : paddress.toNat + 4096 * 2 ^ order ≤ 2 ^ 52) :
    ∃ mapped unmapped again,
      MapsAndUnmaps tables mapped unmapped again vaddress paddress order
        flags := by
  obtain ⟨mapped, hmap, hmapRoot, hmapFrame, hmapLeaf⟩ :=
    pgaMap_rewrites hself hunshared hpages paddress flags
  obtain ⟨unmapped, hunmap, hunmapRoot, hunmapFrame, hunmapLeaf⟩ :=
    @pgaUnmap_rewrites mapped vaddress order (hmapRoot ▸ hmapFrame.selfMapped)
      (hmapRoot ▸ hmapFrame.unshared) (hmapRoot ▸ hmapFrame.mappable hpages)
  rw [hmapRoot] at hunmapRoot hunmapFrame hunmapLeaf
  have hbits : ∀ i, RequestedBits flags
      (leafEntry paddress (flagEntry flags) i) :=
    fun i => (requestedBits_flagEntry flags).leafEntry paddress i
  have hleaf : ∀ i < 2 ^ order,
      entryAt unmapped.memory tables.root (vaddress + pageOffset i) 1 =
        if flags &&& vpageNotPresent = 0 then some 0
        else entryAt mapped.memory tables.root (vaddress + pageOffset i) 1 := by
    intro i hi
    obtain ⟨old, hold, hnew⟩ := hunmapLeaf i hi
    rw [hmapLeaf i hi, Option.some.injEq] at hold
    rw [hnew, hmapLeaf i hi, ← hold, (hbits i).present]
    simp only [decide_eq_true_eq]
    split <;> rfl
  obtain ⟨again, hagain, -, hunchanged⟩ :=
    @pgaUnmap_absent unmapped vaddress order
      (hunmapRoot ▸ hunmapFrame.selfMapped) (by
      intro i hi
      rw [hunmapRoot, presentAt, hleaf i hi]
      split
      · rfl
      · rename_i hpresent
        rw [hmapLeaf i hi, Option.any_some, (hbits i).present]
        exact decide_eq_false hpresent)
  refine ⟨mapped, unmapped, again, hmap, hunmap, hagain, ?_, hleaf, hmapFrame,
    (hmapFrame.trans hunmapFrame).mono (fun _ h => h.elim id id),
    hunchanged⟩
  intro i hi
  have hroom : paddress.toNat + 4096 * (i + 1) ≤ 2 ^ 52 :=
    Nat.le_trans
      (Nat.add_le_add_left (Nat.mul_le_mul_left 4096 (Nat.succ_le_of_lt hi)) _)
      hfits
  exact ⟨_, hmapLeaf i hi, pageAddress_leafEntry _ haligned hroom, hbits i⟩

/-! The tables at boot. -/

/-- A tree whose entries above the leaves are settled shares no table. -/
theorem Tree.unshared {tables : Tables} {target : BitVec 64} {level : Nat}
    (htree : Tree tables target level) (hlevel : level ≤ 1) :
    Unshared tables.memory tables.root := by
  have hsettled : ∀ address other, 1 ≤ other →
      ¬ Pending target level address (other + 1) := by
    intro address other hpos h
    have := h.1
    omega
  intro first second firstLevel other table hfirst hsecond hpos hle hotherPos
    hother htable hotherTable
  exact htree.unique hfirst hpos hle (hsettled _ _ hpos) htable hsecond
    hotherPos hother (hsettled _ _ hotherPos) hotherTable

/-- The first two pages behind page zero have their tables from the start. -/
theorem bootTables_mappable :
    Mappable (bootTables (fun _ _ => 0) 0x101 []).memory 0x101 0x1000 1 where
  backed := by
    have hentries : ∀ i < 2, ∀ level < 5, 2 ≤ level →
        presentAt (bootTables (fun _ _ => 0) 0x101 []).memory 0x101
          (0x1000 + pageOffset i) level = true := by
      decide +kernel
    have houtside : ∀ i < 2, Outside (0x1000 + pageOffset i) := by
      decide +kernel
    intro i hi
    refine ⟨houtside i hi, ?_⟩
    intro level hge hle
    exact presentAt_iff.mp (hentries i hi level (by omega) hge)
  distinct := by
    have hpaths : ∀ i < 2, ∀ j < 2,
        path (0x1000 + pageOffset i) 1 = path (0x1000 + pageOffset j) 1 →
        i = j := by
      decide +kernel
    exact fun i j hi hj => hpaths i hi j hj

theorem pgaMap_pgaUnmap_leaves_boot :
    ∃ mapped unmapped again,
      MapsAndUnmaps (bootTables (fun _ _ => 0) 0x101 []) mapped unmapped again
        0x1000 0x5000 1 vpageNoExecute :=
  pgaMap_pgaUnmap_leaves
    (@bootTables_tree (fun _ _ => 0) 0x101 [] (by decide)
      (by decide)).selfMapped
    ((@bootTables_tree (fun _ _ => 0) 0x101 [] (by decide)
      (by decide)).unshared (by decide))
    vpageNoExecute bootTables_mappable (by decide) (by decide)

/-- A page that was mapped without being made present keeps its entry. -/
theorem pgaUnmap_keeps_entry :
    SelfMapped (bootTables (fun _ _ => 0) 0x101 []).memory 0x101 ∧
      Unshared (bootTables (fun _ _ => 0) 0x101 []).memory 0x101 ∧
      Mappable (bootTables (fun _ _ => 0) 0x101 []).memory 0x101 0x1000 1 ∧
      Returns (pgaMap (bootTables (fun _ _ => 0) 0x101 []) 0x1000 0x5000 1
        vpageNotPresent) fun mapped =>
        Returns (pgaUnmap mapped 0x1000 1) fun unmapped =>
          entryAt unmapped.memory unmapped.root 0x1000 1 = some 0x5002 := by
  have htree := @bootTables_tree (fun _ _ => 0) 0x101 [] (by decide)
    (by decide)
  refine ⟨htree.selfMapped, htree.unshared (by decide), bootTables_mappable, ?_⟩
  decide +kernel

end Synos.Paging

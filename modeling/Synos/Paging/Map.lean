import Synos.Paging.Recursive
import Mathlib.Data.List.Nodup

namespace Synos.Paging

open Synos.Data

/-! Mapping and unmapping pages.  Every access to a table goes through the
self-map, by its virtual address. -/

/-- An answer of `alloc_page`: the address, zero when there is no memory, and
what the frame holds when it is handed out. -/
structure Reply where
  address : BitVec 64
  contents : BitVec 9 → BitVec 64

/-- A virtual page or a table entry, named by the indices that lead to it. -/
abbrev Path := List (BitVec 9)

/-- The last two fields are history: the frame `alloc_page` returned for each
entry, and the pages mapped and not unmapped since. -/
structure Tables where
  memory : Memory
  root : Frame
  supply : List Reply
  installed : List (Path × Frame)
  mapped : Path → Bool

def path (address : BitVec 64) (level : Nat) : Path :=
  (List.range (5 - level)).map fun depth => tableIndex address (4 - depth)

/-- `alloc_page`: it answers zero for good once the supply is used up. -/
def allocPage (tables : Tables) : BitVec 64 × Tables :=
  match tables.supply with
  | [] => (0, tables)
  | reply :: supply =>
      (reply.address,
        { tables with
          supply := supply
          memory :=
            if reply.address = 0 then tables.memory
            else Function.update tables.memory (frameOf reply.address)
              reply.contents })

/-- Read the word at a virtual address. -/
def load (tables : Tables) (address : BitVec 64) : Except Fault (BitVec 64) :=
  match walk tables.memory tables.root address with
  | none => .error .pageFault
  | some (frame, offset) => .ok (tables.memory frame (offset.extractLsb' 3 9))

/-- Write the word at a virtual address. -/
def store (tables : Tables) (address value : BitVec 64) :
    Except Fault Tables :=
  match walk tables.memory tables.root address with
  | none => .error .pageFault
  | some (frame, offset) =>
      .ok { tables with
        memory := writeEntry tables.memory frame (offset.extractLsb' 3 9)
          value }

def pageIspresent (tables : Tables) (vaddress : BitVec 64) (level : Nat) :
    Except Fault Bool :=
  if level = 0 ∨ 4 < level then
    .ok false
  else
    let above :=
      if level < 4 then pageIspresent tables vaddress (level + 1) else .ok true
    match above with
    | .error fault => .error fault
    | .ok false => .ok false
    | .ok true =>
        match load tables (getTableAddress vaddress level) with
        | .error fault => .error fault
        | .ok entry => .ok (present entry)
termination_by 4 - level

/-- Put the page returned by `alloc_page` into the entry of `offset` at `level`,
whatever `alloc_page` returned. -/
def installTable (tables : Tables) (level : Nat) (offset : BitVec 64) :
    Except Fault Tables :=
  let (address, tables) := allocPage tables
  match store tables (getTableAddress offset level) (address ||| 0b11#64) with
  | .error fault => .error fault
  | .ok tables =>
      .ok { tables with
        installed := (path offset level, frameOf address) :: tables.installed }

def pageTableAlloc (tables : Tables) (level : Nat) (offset : BitVec 64) :
    Except Fault (Bool × Tables) :=
  if level = 0 ∨ 4 < level then
    .ok (false, tables)
  else
    let above : Except Fault Tables :=
      if level < 4 then
        match pageIspresent tables offset (level + 1) with
        | .error fault => .error fault
        | .ok true => .ok tables
        | .ok false =>
            match pageTableAlloc tables (level + 1) offset with
            | .error fault => .error fault
            | .ok (_, tables) => .ok tables
      else
        .ok tables
    match above with
    | .error fault => .error fault
    | .ok tables =>
        match installTable tables level offset with
        | .error fault => .error fault
        | .ok tables => .ok (true, tables)
termination_by 4 - level

def vpageNotPresent : BitVec 32 := 1
def vpageNotWritable : BitVec 32 := 2
def vpageUserAccess : BitVec 32 := 4
def vpageNoCache : BitVec 32 := 8
def vpageNoExecute : BitVec 32 := 16

/-- The bits of an entry that are not the page address. -/
def flagMask : BitVec 64 := (0xFFF#64 <<< 52) ||| 0xFFF#64

def flagEntry (flags : BitVec 32) : BitVec 64 :=
  (if flags &&& vpageNotPresent = 0 then 0b1 else 0) |||
    (if flags &&& vpageNotWritable = 0 then 0b10 else 0) |||
    (if flags &&& vpageUserAccess ≠ 0 then 0b100 else 0) |||
    (if flags &&& vpageNoCache ≠ 0 then 0b1000 else 0) |||
    (if flags &&& vpageNoExecute ≠ 0 then 1#64 <<< 63 else 0)

/-- One round of the loop of `pga_map`. -/
def mapPage (tables : Tables) (vaddress entry : BitVec 64) :
    Except Fault Tables :=
  match pageIspresent tables vaddress 2 with
  | .error fault => .error fault
  | .ok found =>
      let tables : Except Fault Tables :=
        if found then .ok tables
        else
          match pageTableAlloc tables 2 vaddress with
          | .error fault => .error fault
          | .ok (_, tables) => .ok tables
      match tables with
      | .error fault => .error fault
      | .ok tables =>
          match store tables (getTableAddress vaddress 1) entry with
          | .error fault => .error fault
          | .ok tables =>
              .ok { tables with
                mapped := Function.update tables.mapped (path vaddress 1) true }

def pageOffset (i : Nat) : BitVec 64 := 4096#64 * BitVec.ofNat 64 i

def pgaMapFrom (vaddress paddress : BitVec 64) :
    (entry : BitVec 64) → (i count : Nat) → Tables → Except Fault Tables
  | _, _, 0, tables => .ok tables
  | entry, i, count + 1, tables =>
      let entry := ((paddress + pageOffset i) &&& ~~~flagMask) +
        (entry &&& flagMask)
      match mapPage tables (vaddress + pageOffset i) entry with
      | .error fault => .error fault
      | .ok tables => pgaMapFrom vaddress paddress entry (i + 1) count tables

def pgaMap (tables : Tables) (vaddress paddress : BitVec 64) (order : Nat)
    (flags : BitVec 32) : Except Fault Tables :=
  pgaMapFrom vaddress paddress (flagEntry flags) 0 (2 ^ order) tables

/-- One round of the loop of `pga_unmap`. -/
def unmapPage (tables : Tables) (vaddress : BitVec 64) :
    Except Fault Tables :=
  let forget (tables : Tables) : Tables :=
    { tables with
      mapped := Function.update tables.mapped (path vaddress 1) false }
  match pageIspresent tables vaddress 1 with
  | .error fault => .error fault
  | .ok false => .ok (forget tables)
  | .ok true =>
      match store tables (getTableAddress vaddress 1) 0 with
      | .error fault => .error fault
      | .ok tables => .ok (forget tables)

def pgaUnmapFrom (vaddress : BitVec 64) :
    (i count : Nat) → Tables → Except Fault Tables
  | _, 0, tables => .ok tables
  | i, count + 1, tables =>
      match unmapPage tables (vaddress + pageOffset i) with
      | .error fault => .error fault
      | .ok tables => pgaUnmapFrom vaddress (i + 1) count tables

def pgaUnmap (tables : Tables) (vaddress : BitVec 64) (order : Nat) :
    Except Fault Tables :=
  pgaUnmapFrom vaddress 0 (2 ^ order) tables

/-! What the accesses through the self-map read and write. -/

def presentAt (memory : Memory) (root : Frame) (address : BitVec 64)
    (level : Nat) : Bool :=
  (entryAt memory root address level).any present

theorem presentAt_iff {memory : Memory} {root : Frame} {address : BitVec 64}
    {level : Nat} :
    presentAt memory root address level = true ↔
      EntryPresent memory root address level := by
  simp only [presentAt, EntryPresent, Option.any_eq_true]

/-- The entries above a present one are present. -/
theorem EntryPresent.above {memory : Memory} {root : Frame}
    {address : BitVec 64} {level above : Nat}
    (h : EntryPresent memory root address level) (hlt : level < above)
    (hle : above ≤ 4) : EntryPresent memory root address above := by
  obtain ⟨entry, hentry, -⟩ := h
  have hsome : (tableOf memory root address level).isSome := by
    cases htable : tableOf memory root address level with
    | none => simp [entryAt, htable] at hentry
    | some table => rfl
  exact (tableOf_isSome_iff (by omega)).mp hsome above hlt hle

theorem EntryPresent.upward {memory : Memory} {root : Frame}
    {address : BitVec 64} {level above : Nat}
    (h : EntryPresent memory root address level) (hge : level ≤ above)
    (hle : above ≤ 4) : EntryPresent memory root address above := by
  cases Nat.eq_or_lt_of_le hge with
  | inl heq => exact heq ▸ h
  | inr hlt => exact h.above hlt hle

theorem slot_of_offset (index : BitVec 9) :
    (index.setWidth 12 <<< 3).extractLsb' 3 9 = index := by
  apply BitVec.eq_of_getLsbD_eq
  intro bit hbit
  have hwidth : 3 + bit < 12 := by omega
  have hlow : ¬ 3 + bit < 3 := by omega
  simp [hbit, hwidth]

section

variable {tables : Tables} {address value : BitVec 64} {level : Nat}

theorem load_of_walk {frame : Frame} {offset : BitVec 12}
    (hwalk : walk tables.memory tables.root address = some (frame, offset)) :
    load tables address =
      .ok (tables.memory frame (offset.extractLsb' 3 9)) := by
  rw [load, hwalk]

theorem store_of_walk {frame : Frame} {offset : BitVec 12}
    (hwalk : walk tables.memory tables.root address = some (frame, offset)) :
    store tables address value =
      .ok { tables with
        memory := writeEntry tables.memory frame (offset.extractLsb' 3 9)
          value } := by
  rw [store, hwalk]

theorem walk_table {memory : Memory} {root table : Frame}
    (hself : SelfMapped memory root) (hpos : 1 ≤ level) (hlevel : level ≤ 4)
    (htable : tableOf memory root address level = some table) :
    walk memory root (getTableAddress address level) =
      some (table, (tableIndex address level).setWidth 12 <<< 3) := by
  rw [walk_getTableAddress hself hpos hlevel, htable, Option.map_some]

theorem load_table (hself : SelfMapped tables.memory tables.root)
    (hpos : 1 ≤ level) (hlevel : level ≤ 4) {table : Frame}
    (htable : tableOf tables.memory tables.root address level = some table) :
    load tables (getTableAddress address level) =
      .ok (tables.memory table (tableIndex address level)) := by
  rw [load_of_walk (walk_table hself hpos hlevel htable), slot_of_offset]

theorem store_table (hself : SelfMapped tables.memory tables.root)
    (hpos : 1 ≤ level) (hlevel : level ≤ 4) {table : Frame}
    (htable : tableOf tables.memory tables.root address level = some table) :
    store tables (getTableAddress address level) value =
      .ok { tables with
        memory := writeEntry tables.memory table (tableIndex address level)
          value } := by
  rw [store_of_walk (walk_table hself hpos hlevel htable), slot_of_offset]

theorem presentAt_of_tableOf {memory : Memory} {root table : Frame}
    (htable : tableOf memory root address level = some table) :
    presentAt memory root address level =
      present (memory table (tableIndex address level)) := by
  simp only [presentAt, entryAt, htable, Option.map_some, Option.any_some]

/-- `page_ispresent` walks the tables the way the processor does. -/
theorem pageIspresent_eq (hself : SelfMapped tables.memory tables.root)
    {depth : Nat} (hdepth : level + depth = 4) (hpos : 1 ≤ level) :
    pageIspresent tables address level =
      .ok (presentAt tables.memory tables.root address level) := by
  induction depth generalizing level with
  | zero =>
      have htop : level = 4 := by omega
      subst htop
      have htable : tableOf tables.memory tables.root address 4 =
        some tables.root := tableOf_top
      rw [pageIspresent, if_neg (by omega), if_neg (by omega),
        presentAt_of_tableOf htable]
      simp only [load_table hself (by omega) (Nat.le_refl 4) htable]
  | succ depth ih =>
      rw [pageIspresent, if_neg (by omega), if_pos (by omega),
        ih (by omega) (by omega)]
      cases hpresent : presentAt tables.memory tables.root address
          (level + 1) with
      | true =>
          have hsome : (tableOf tables.memory tables.root address
              level).isSome := by
            rw [tableOf_isSome_iff (by omega)]
            exact fun above hgt hle => (presentAt_iff.mp hpresent).upward hgt hle
          obtain ⟨table, htable⟩ := Option.isSome_iff_exists.mp hsome
          rw [presentAt_of_tableOf htable]
          simp only [load_table hself hpos (by omega) htable]
      | false =>
          have hnot : presentAt tables.memory tables.root address level =
              false := by
            cases hbelow : presentAt tables.memory tables.root address level with
            | false => rfl
            | true =>
                have habove := (presentAt_iff.mp hbelow).above
                  (Nat.lt_succ_self level) (by omega)
                rw [← presentAt_iff, hpresent] at habove
                cases habove
          rw [hnot]

end

/-! Paths. -/

theorem path_length (address : BitVec 64) (level : Nat) :
    (path address level).length = 5 - level := by
  simp [path]

theorem path_eq_iff {first second : BitVec 64} {level : Nat} :
    path first level = path second level ↔
      ∀ above, level ≤ above → above ≤ 4 →
        tableIndex first above = tableIndex second above := by
  simp only [path, List.map_inj_left, List.mem_range]
  constructor
  · intro h above hge hle
    have hdepth := h (4 - above) (by omega)
    rwa [show 4 - (4 - above) = above by omega] at hdepth
  · intro h depth hdepth
    exact h (4 - depth) (by omega) (by omega)

theorem level_eq_of_path_eq {first second : BitVec 64} {level other : Nat}
    (h : path first level = path second other) (hlevel : level ≤ 4)
    (hother : other ≤ 4) : level = other := by
  have hlength := congrArg List.length h
  rw [path_length, path_length] at hlength
  omega

theorem path_mono {first second : BitVec 64} {level above : Nat}
    (h : path first level = path second level) (hle : level ≤ above) :
    path first above = path second above := by
  rw [path_eq_iff] at *
  intro other hge hle'
  exact h other (by omega) hle'

theorem path_succ {first second : BitVec 64} {level : Nat} (hlevel : level ≤ 4)
    : path first level = path second level ↔
      path first (level + 1) = path second (level + 1) ∧
        tableIndex first level = tableIndex second level := by
  constructor
  · intro h
    exact ⟨path_mono h (Nat.le_succ level),
      path_eq_iff.mp h level (Nat.le_refl _) hlevel⟩
  · intro h
    rw [path_eq_iff]
    intro above hge hle
    cases Nat.eq_or_lt_of_le hge with
    | inl heq => exact heq ▸ h.2
    | inr hlt => exact path_eq_iff.mp h.1 above hlt hle

theorem tableOf_congr {memory : Memory} {root : Frame}
    {first second : BitVec 64} {level : Nat} (hlevel : level ≤ 4)
    (h : path first (level + 1) = path second (level + 1)) :
    tableOf memory root first level = tableOf memory root second level := by
  apply @descend_shift second memory first 0 (4 - level) 4 root (by omega)
  intro other hgt hle
  exact path_eq_iff.mp h other (by omega) hle

theorem entryAt_congr {memory : Memory} {root : Frame}
    {first second : BitVec 64} {level : Nat} (hlevel : level ≤ 4)
    (h : path first level = path second level) :
    entryAt memory root first level = entryAt memory root second level := by
  obtain ⟨habove, hindex⟩ := (path_succ hlevel).mp h
  rw [entryAt, entryAt, tableOf_congr hlevel habove, hindex]

end Synos.Paging

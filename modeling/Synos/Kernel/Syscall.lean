import Synos.Data.Assoc
import Synos.Data.Block
import Synos.Data.Machine
import Synos.Data.Word

namespace Synos.Kernel

open Synos.Data

/-! The table of system calls: a block of pointers to entries, copied to a larger
block for each new id. -/

/-- `Syscall_Entry`, with the address of its function. -/
structure SyscallEntry where
  id : BitVec 32
  function : BitVec 64
  deriving DecidableEq

/-- `syscall_VT` and `syscall_VT_length`, with the entries by their addresses. A
`size_t` holds every length that occurs. -/
structure SyscallTable where
  vt : List Nat
  length : Nat
  entries : Nat → SyscallEntry

inductive TableFault
  | access (fault : AccessFault)
  | endlessLoop
  deriving DecidableEq

def checked {Result : Type} (call : Except AccessFault Result) :
    Except TableFault Result :=
  call.mapError .access

def SyscallTable.modify (table : SyscallTable) (pointer : Nat)
    (update : SyscallEntry → SyscallEntry) : SyscallTable :=
  { table with
    entries := fun other =>
      if other = pointer then update (table.entries pointer)
      else table.entries other }

/-- The new entry behind the last pointer of the table. -/
def SyscallTable.append (table : SyscallTable) (vt : List Nat) (pointer : Nat)
    (id : BitVec 32) : SyscallTable :=
  { SyscallTable.modify { table with vt } pointer ({ · with id }) with
    length := table.length + 1 }

/-- The loop of `syscall_find_index`. Its counter is a `uint32_t`: after as many
rounds as that has values it starts over, and never ends. -/
def findLoop (table : SyscallTable) (id : BitVec 32) :
    (rounds i : Nat) → Except TableFault Int
  | 0, _ => .error .endlessLoop
  | rounds + 1, i =>
      if i < table.length then do
        let pointer ← checked (readCell table.vt i)
        if (table.entries pointer).id = id then pure i
        else findLoop table id rounds ((i + 1) % 2 ^ 32)
      else pure (-1)

def syscallFindIndex (table : SyscallTable) (id : BitVec 32) :
    Except TableFault Int :=
  findLoop table id (2 ^ 32) 0

section

/- The addresses of the blocks that `kmalloc` returns for the entries, one after
another, and what the cells of a block of pointers hold beforehand. -/
variable (block : Nat → Nat) (fresh : Nat → Nat → Nat)

def syscallAppend (table : SyscallTable) (id : BitVec 32) :
    Except TableFault (SyscallTable × Int) := do
  let newSTR ← checked (copyCells
    (freshBlock (fresh table.length) (table.length + 1)) table.vt 0 table.length)
  let vt ← checked (writeCell newSTR table.length (block table.length))
  let pointer ← checked (readCell vt table.length)
  pure (table.append vt pointer id, table.length)

def syscallSet (table : SyscallTable) (id : BitVec 32)
    (function : BitVec 64) : Except TableFault SyscallTable := do
  let index ← syscallFindIndex table id
  let (table, index) ←
    if index = -1 then syscallAppend block fresh table id
    else pure (table, index)
  let pointer ← checked (readCell table.vt index.toNat)
  pure (table.modify pointer ({ · with function }))

def syscallSyc : BitVec 32 := 2

/-- `syscall_init`: no pointer fits the one byte that it allocates. -/
def syscallInit (table : SyscallTable) (scFnc : BitVec 64) :
    Except TableFault SyscallTable :=
  syscallSet block fresh { table with vt := [] } syscallSyc scFnc

/-- Calls of `syscall_set`, each an id and a function. -/
def syscallMachine :
    Machine TableFault SyscallTable (BitVec 32 × BitVec 64) where
  step table call := syscallSet block fresh table call.1 call.2

end

def position (ids : List (BitVec 32)) (id : BitVec 32) : Int :=
  if id ∈ ids then ids.idxOf id else -1

theorem position_of_mem {ids : List (BitVec 32)} {id : BitVec 32}
    (hold : id ∈ ids) : position ids id = (ids.idxOf id : Nat) :=
  if_pos hold

theorem position_of_notMem {ids : List (BitVec 32)} {id : BitVec 32}
    (hnew : id ∉ ids) : position ids id = -1 :=
  if_neg hnew

theorem position_of_first {ids : List (BitVec 32)} {id : BitVec 32} {k : Nat}
    (hid : ids[k]? = some id) (hbefore : id ∉ ids.take k) :
    position ids id = k := by
  obtain ⟨hk, hget⟩ := List.getElem?_eq_some_iff.mp hid
  have hdrop : ids.drop k = id :: ids.drop (k + 1) := by
    rw [List.drop_eq_getElem_cons hk, hget]
  have hindex : ids.idxOf id = k := by
    rw [← List.take_append_drop k ids, hdrop,
      List.idxOf_append_of_notMem hbefore, List.idxOf_cons_self,
      List.length_take]
    omega
  rw [position_of_mem (List.mem_of_getElem? hid), hindex]

/-- The table holds the pairs, each in the block that was allocated for it. -/
structure Holds (block : Nat → Nat) (pairs : List (BitVec 32 × BitVec 64))
    (table : SyscallTable) : Prop where
  length_eq : table.length = pairs.length
  room : pairs.length ≤ table.vt.length
  pointers : ∀ k < pairs.length, table.vt[k]? = some (block k)
  entries : ∀ k id function, pairs[k]? = some (id, function) →
    table.entries (block k) = ⟨id, function⟩

section

variable {block : Nat → Nat} {fresh : Nat → Nat → Nat}
  {pairs : List (BitVec 32 × BitVec 64)} {table : SyscallTable}
  {id : BitVec 32} {function : BitVec 64}

theorem findLoop_ok (hholds : Holds block pairs table)
    (hlt : pairs.length < 2 ^ 32) {rounds i : Nat} (hi : i ≤ pairs.length)
    (hbefore : id ∉ (Assoc.keys pairs).take i)
    (hrounds : pairs.length < i + rounds) :
    findLoop table id rounds i = .ok (position (Assoc.keys pairs) id) := by
  induction rounds generalizing i with
  | zero => omega
  | succ rounds ih =>
      rw [findLoop, hholds.length_eq]
      by_cases hend : i < pairs.length
      · obtain ⟨⟨other, function⟩, hpair⟩ :
            ∃ pair, pairs[i]? = some pair :=
          ⟨_, List.getElem?_eq_getElem hend⟩
        have hkey : (Assoc.keys pairs)[i]? = some other := by
          rw [Assoc.getElem?_keys, hpair]
          rfl
        rw [if_pos hend, readCell_of_some (hholds.pointers i hend)]
        simp only [checked, Except.mapError, bind, Except.bind,
          hholds.entries i other function hpair]
        by_cases hid : other = id
        · rw [if_pos hid, position_of_first (hid ▸ hkey) hbefore]
          rfl
        · rw [if_neg hid, Nat.mod_eq_of_lt (by omega)]
          apply ih hend
          · rw [List.take_add_one, hkey, List.mem_append, not_or]
            exact ⟨hbefore, fun hmem => hid (List.mem_singleton.mp hmem).symm⟩
          · omega
      · have hall : i = (Assoc.keys pairs).length := by
          rw [Assoc.length_keys]
          omega
        rw [hall, List.take_length] at hbefore
        rw [if_neg hend, position_of_notMem hbefore]
        rfl

theorem syscallFindIndex_ok (hholds : Holds block pairs table)
    (hlt : pairs.length < 2 ^ 32) :
    syscallFindIndex table id = .ok (position (Assoc.keys pairs) id) := by
  apply findLoop_ok hholds hlt
  · exact Nat.zero_le _
  · exact List.not_mem_nil
  · omega

theorem modify_entries_same {pointer : Nat}
    {update : SyscallEntry → SyscallEntry} :
    (table.modify pointer update).entries pointer =
      update (table.entries pointer) :=
  if_pos rfl

theorem modify_entries_other {pointer other : Nat}
    {update : SyscallEntry → SyscallEntry} (hother : other ≠ pointer) :
    (table.modify pointer update).entries other = table.entries other :=
  if_neg hother

theorem append_entries_same {vt : List Nat} {pointer : Nat} :
    (table.append vt pointer id).entries pointer =
      ⟨id, (table.entries pointer).function⟩ :=
  if_pos rfl

theorem append_entries_other {vt : List Nat} {pointer other : Nat}
    (hother : other ≠ pointer) :
    (table.append vt pointer id).entries other = table.entries other :=
  if_neg hother

theorem Holds.setFunction (hholds : Holds block pairs table)
    (hblock : Function.Injective block) {k : Nat} {old : BitVec 64}
    (hpair : pairs[k]? = some (id, old)) :
    Holds block (pairs.set k (id, function))
      (table.modify (block k) ({ · with function })) where
  length_eq := by rw [List.length_set]; exact hholds.length_eq
  room := by rw [List.length_set]; exact hholds.room
  pointers := by rw [List.length_set]; exact hholds.pointers
  entries index other value hindex := by
    by_cases hsame : index = k
    · subst hsame
      have hlt : index < pairs.length := (List.getElem?_eq_some_iff.mp hpair).1
      rw [List.getElem?_set_self hlt] at hindex
      cases hindex
      rw [modify_entries_same, hholds.entries index id old hpair]
    · rw [List.getElem?_set_ne (Ne.symm hsame)] at hindex
      rw [modify_entries_other (mt (@hblock index k) hsame)]
      exact hholds.entries index other value hindex

theorem Holds.append (hholds : Holds block pairs table)
    (hblock : Function.Injective block) {vt : List Nat}
    (hcount : pairs.length < vt.length)
    (hold : ∀ k < pairs.length, vt[k]? = table.vt[k]?)
    (hnew : vt[pairs.length]? = some (block pairs.length)) :
    Holds block
      (pairs ++ [(id, (table.entries (block pairs.length)).function)])
      (table.append vt (block pairs.length) id) where
  length_eq := by
    rw [List.length_append, ← hholds.length_eq]
    rfl
  room := by
    rw [List.length_append]
    exact hcount
  pointers k hk := by
    rw [List.length_append, List.length_singleton] at hk
    by_cases hlast : k = pairs.length
    · rw [hlast]
      exact hnew
    · have hbelow : k < pairs.length := by omega
      exact (hold k hbelow).trans (hholds.pointers k hbelow)
  entries k other value hpair := by
    by_cases hlast : k = pairs.length
    · rw [hlast, List.getElem?_concat_length] at hpair
      cases hpair
      rw [hlast]
      exact append_entries_same
    · have hbelow : k < pairs.length := by
        have hlt := (List.getElem?_eq_some_iff.mp hpair).1
        rw [List.length_append, List.length_singleton] at hlt
        omega
      rw [List.getElem?_append_left hbelow] at hpair
      rw [append_entries_other (mt (@hblock k pairs.length) hlast)]
      exact hholds.entries k other value hpair

theorem syscallAppend_ok (hholds : Holds block pairs table)
    (hblock : Function.Injective block) :
    ∃ next stale, syscallAppend block fresh table id =
        .ok (next, (pairs.length : Int)) ∧
      Holds block (pairs ++ [(id, stale)]) next := by
  have hlength := hholds.length_eq
  have hroom := hholds.room
  obtain ⟨newSTR, hcopy, hcount, hcells⟩ :=
    @exists_copyCells _ table.vt
      (freshBlock (fresh pairs.length) (pairs.length + 1)) 0 pairs.length
      hroom (by rw [length_freshBlock]; omega)
  rw [length_freshBlock] at hcount
  have hwrite := @writeCell_of_lt _ newSTR pairs.length (block pairs.length)
    (by omega)
  have hread : (newSTR.set pairs.length (block pairs.length))[pairs.length]? =
      some (block pairs.length) :=
    List.getElem?_set_self (by omega)
  refine ⟨table.append (newSTR.set pairs.length (block pairs.length))
    (block pairs.length) id, _, ?_, hholds.append hblock ?_ ?_ hread⟩
  · rw [syscallAppend, hlength, hcopy]
    simp only [checked, Except.mapError, bind, Except.bind, hwrite,
      readCell_of_some hread]
    rfl
  · rw [List.length_set]
    omega
  · intro k hk
    rw [List.getElem?_set_ne (by omega), hcells, if_pos (by omega)]
    rfl

theorem syscallSet_ok (hholds : Holds block pairs table)
    (hblock : Function.Injective block) (hlt : pairs.length < 2 ^ 32) :
    ∃ next, syscallSet block fresh table id function = .ok next ∧
      Holds block (Assoc.put id function pairs) next := by
  have hfind := @syscallFindIndex_ok block pairs table id hholds hlt
  by_cases hold : id ∈ Assoc.keys pairs
  · obtain ⟨old, hpair⟩ := Assoc.getElem?_idxOf hold
    have hk := (List.getElem?_eq_some_iff.mp hpair).1
    rw [Assoc.put_of_mem hold]
    refine ⟨_, ?_, hholds.setFunction hblock hpair⟩
    rw [syscallSet, hfind, position_of_mem hold]
    simp only [bind, Except.bind]
    rw [if_neg (by omega)]
    simp only [pure, Except.pure, Int.toNat_natCast,
      readCell_of_some (hholds.pointers _ hk), checked, Except.mapError]
  · obtain ⟨next, stale, happend, hnext⟩ :=
      @syscallAppend_ok block fresh pairs table id hholds hblock
    have hlast : (pairs ++ [(id, stale)])[pairs.length]? = some (id, stale) :=
      List.getElem?_concat_length
    have hread : next.vt[pairs.length]? = some (block pairs.length) :=
      hnext.pointers pairs.length (by simp)
    have hset := @Holds.setFunction block _ next id function hnext hblock
      pairs.length stale hlast
    rw [List.set_append_right _ _ (Nat.le_refl _), Nat.sub_self,
      List.set_cons_zero, ← Assoc.put_of_notMem hold] at hset
    refine ⟨_, ?_, hset⟩
    rw [syscallSet, hfind, position_of_notMem hold]
    simp only [bind, Except.bind, if_true, happend, Int.toNat_natCast,
      readCell_of_some hread, checked, Except.mapError]
    rfl

theorem syscallMachine_run_holds (hholds : Holds block pairs table)
    (hblock : Function.Injective block) (calls : List (BitVec 32 × BitVec 64))
    (hlt : (Assoc.putAll pairs calls).length < 2 ^ 32) :
    ∃ last, (syscallMachine block fresh).run table calls = .ok last ∧
      Holds block (Assoc.putAll pairs calls) last := by
  induction calls generalizing pairs table with
  | nil => exact ⟨table, rfl, hholds⟩
  | cons call calls ih =>
      have hfirst : pairs.length < 2 ^ 32 :=
        Nat.lt_of_le_of_lt (Assoc.length_le_putAll (call :: calls)) hlt
      obtain ⟨next, hset, hnext⟩ := @syscallSet_ok block fresh pairs table
        call.1 call.2 hholds hblock hfirst
      obtain ⟨last, hrun, hlast⟩ := ih hnext hlt
      exact ⟨last, Machine.run_cons_ok.mpr ⟨next, hset, hrun⟩, hlast⟩

def SyscallTable.listed (table : SyscallTable) : List SyscallEntry :=
  (table.vt.take table.length).map table.entries

theorem Holds.listed_eq (hholds : Holds block pairs table) :
    table.listed = pairs.map fun pair => ⟨pair.1, pair.2⟩ := by
  apply List.ext_getElem?
  intro k
  rw [SyscallTable.listed, hholds.length_eq, List.getElem?_map,
    List.getElem?_map, List.getElem?_take]
  by_cases hk : k < pairs.length
  · have hpair := List.getElem?_eq_getElem hk
    rw [if_pos hk, hholds.pointers k hk, hpair]
    exact congrArg some (hholds.entries k _ _ hpair)
  · rw [if_neg hk, List.getElem?_eq_none (Nat.le_of_not_lt hk)]
    rfl

/-- The table maps each id to the function of its last call, in the order of the
first calls. -/
structure Registers (calls : List (BitVec 32 × BitVec 64))
    (table : SyscallTable) : Prop where
  length_eq : table.length = (Assoc.keys calls).eraseDups.length
  ids : table.listed.map SyscallEntry.id = (Assoc.keys calls).eraseDups
  functions : ∀ entry ∈ table.listed,
    calls.reverse.lookup entry.id = some entry.function
  find : ∀ id, syscallFindIndex table id =
    .ok (position (Assoc.keys calls).eraseDups id)

theorem Holds.registers {calls : List (BitVec 32 × BitVec 64)}
    (hholds : Holds block (Assoc.putAll [] calls) table)
    (hlt : (Assoc.keys calls).eraseDups.length < 2 ^ 32) :
    Registers calls table := by
  have hkeys := Assoc.keys_putAll_nil calls
  rw [← hkeys, Assoc.length_keys] at hlt
  constructor
  · rw [hholds.length_eq, ← Assoc.length_keys, hkeys]
  · rw [hholds.listed_eq, List.map_map, ← hkeys]
    rfl
  · intro entry hentry
    rw [hholds.listed_eq] at hentry
    obtain ⟨pair, hpair, rfl⟩ := List.mem_map.mp hentry
    rw [← Assoc.lookup_putAll_nil]
    apply Assoc.lookup_of_mem _ hpair
    apply Assoc.nodup_keys_putAll
    exact List.Pairwise.nil
  · intro id
    rw [← hkeys]
    exact syscallFindIndex_ok hholds hlt

theorem holds_nil (hempty : table.length = 0) : Holds block [] table where
  length_eq := hempty
  room := Nat.zero_le _
  pointers k hk := by cases hk
  entries k id function hpair := by cases hpair

/-- Every run of calls on an empty table returns. -/
theorem syscallMachine_run_registers (hblock : Function.Injective block)
    (hempty : table.length = 0) (calls : List (BitVec 32 × BitVec 64))
    (hlt : (Assoc.keys calls).eraseDups.length < 2 ^ 32) :
    ∃ last, (syscallMachine block fresh).run table calls = .ok last ∧
      Registers calls last := by
  have hlength : (Assoc.putAll [] calls).length < 2 ^ 32 := by
    rw [← Assoc.length_keys, Assoc.keys_putAll_nil]
    exact hlt
  obtain ⟨last, hrun, hholds⟩ := @syscallMachine_run_holds block fresh [] table
    (holds_nil hempty) hblock calls hlength
  exact ⟨last, hrun, hholds.registers hlt⟩

/-- The table of the kernel starts with its own call. -/
theorem syscallInit_run (hblock : Function.Injective block)
    (hempty : table.length = 0) (scFnc : BitVec 64)
    (calls : List (BitVec 32 × BitVec 64))
    (hlt : (Assoc.keys ((syscallSyc, scFnc) :: calls)).eraseDups.length <
      2 ^ 32) :
    ∃ first last, syscallInit block fresh table scFnc = .ok first ∧
      (syscallMachine block fresh).run first calls = .ok last ∧
      Registers ((syscallSyc, scFnc) :: calls) last := by
  have hlength : (Assoc.putAll [] ((syscallSyc, scFnc) :: calls)).length <
      2 ^ 32 := by
    rw [← Assoc.length_keys, Assoc.keys_putAll_nil]
    exact hlt
  have hstart : Holds block [] { table with vt := [] } := holds_nil hempty
  obtain ⟨last, hrun, hholds⟩ :=
    @syscallMachine_run_holds block fresh [] _ hstart hblock _ hlength
  obtain ⟨first, hfirst, hrest⟩ := Machine.run_cons_ok.mp hrun
  exact ⟨first, last, hfirst, hrest, hholds.registers hlt⟩

end

theorem syscallMachine_run_registers_three :
    ∃ last, (syscallMachine id fun _ _ => 0).run ⟨[], 0, fun _ => ⟨0, 0⟩⟩
        [(5, 1), (7, 2), (5, 3)] = .ok last ∧
      Registers [(5, 1), (7, 2), (5, 3)] last :=
  syscallMachine_run_registers Function.injective_id rfl _ (by decide)

end Synos.Kernel

import Mathlib.Data.List.Basic
import Mathlib.Data.List.Induction
import Mathlib.Data.List.Nodup
import Mathlib.Logic.Function.Basic

namespace Synos.Data.Assoc

universe u v

/-! Tables of keys and values in which the last write of a key wins. -/

section

variable {Key : Type u} {Value : Type v} {table : List (Key × Value)}

def keys (table : List (Key × Value)) : List Key := table.map Prod.fst

@[simp] theorem keys_nil : keys ([] : List (Key × Value)) = [] := rfl

@[simp] theorem keys_cons (entry : Key × Value) :
    keys (entry :: table) = entry.1 :: keys table := rfl

@[simp] theorem length_keys : (keys table).length = table.length :=
  List.length_map _

theorem getElem?_keys (index : Nat) :
    (keys table)[index]? = table[index]?.map Prod.fst :=
  List.getElem?_map

end

variable {Key : Type u} {Value : Type v} [DecidableEq Key]
  {table : List (Key × Value)} {key other : Key} {value : Value}

/-- The value takes the place of that of its key, or the two are appended. -/
def put (key : Key) (value : Value) : List (Key × Value) → List (Key × Value)
  | [] => [(key, value)]
  | entry :: rest =>
      if entry.1 = key then (key, value) :: rest
      else entry :: put key value rest

def putAll (table writes : List (Key × Value)) : List (Key × Value) :=
  writes.foldl (fun table write => put write.1 write.2 table) table

theorem getElem?_idxOf (hmem : key ∈ keys table) :
    ∃ value, table[(keys table).idxOf key]? = some (key, value) := by
  have hkey := @getElem?_keys _ _ table ((keys table).idxOf key)
  rw [List.getElem?_idxOf hmem] at hkey
  obtain ⟨⟨other, value⟩, hentry, hother⟩ :=
    Option.map_eq_some_iff.mp hkey.symm
  cases hother
  exact ⟨value, hentry⟩

theorem put_of_notMem (hnew : key ∉ keys table) :
    put key value table = table ++ [(key, value)] := by
  induction table with
  | nil => rfl
  | cons entry rest ih =>
      rw [keys_cons, List.mem_cons, not_or] at hnew
      rw [put, if_neg (Ne.symm hnew.1), ih hnew.2, List.cons_append]

theorem put_of_mem (hold : key ∈ keys table) :
    put key value table = table.set ((keys table).idxOf key) (key, value) := by
  induction table with
  | nil => cases hold
  | cons entry rest ih =>
      rw [put, keys_cons]
      by_cases hentry : entry.1 = key
      · rw [if_pos hentry, hentry, List.idxOf_cons_self, List.set_cons_zero]
      · rw [keys_cons, List.mem_cons] at hold
        rw [if_neg hentry, List.idxOf_cons_ne _ hentry, List.set_cons_succ,
          ih (hold.resolve_left (Ne.symm hentry))]

theorem keys_put :
    keys (put key value table) =
      if key ∈ keys table then keys table else keys table ++ [key] := by
  induction table with
  | nil => rfl
  | cons entry rest ih =>
      rw [put]
      by_cases hentry : entry.1 = key
      · simp [hentry]
      · rw [if_neg hentry, keys_cons, ih]
        simp only [keys_cons, List.mem_cons, Ne.symm hentry, false_or]
        split <;> rfl

theorem lookup_cons (entry : Key × Value) :
    (entry :: table).lookup other =
      if other = entry.1 then some entry.2 else table.lookup other := by
  rw [List.lookup_cons]
  by_cases hentry : other = entry.1
  · simp [hentry]
  · simp [hentry, beq_eq_false_iff_ne.mpr hentry]

theorem lookup_put :
    (put key value table).lookup other =
      if other = key then some value else table.lookup other := by
  induction table with
  | nil => exact lookup_cons _
  | cons entry rest ih =>
      rw [put]
      by_cases hentry : entry.1 = key
      · rw [if_pos hentry, lookup_cons, lookup_cons, hentry]
        split <;> rfl
      · rw [if_neg hentry, lookup_cons, lookup_cons, ih]
        by_cases hother : other = key
        · have hne : other ≠ entry.1 :=
            fun heq => hentry (heq.symm.trans hother)
          simp only [if_pos hother, if_neg hne]
        · simp only [if_neg hother]

theorem lookup_of_mem (hnodup : (keys table).Nodup)
    (hmem : (key, value) ∈ table) : table.lookup key = some value := by
  induction table with
  | nil => cases hmem
  | cons entry rest ih =>
      rw [keys_cons, List.nodup_cons] at hnodup
      rw [lookup_cons]
      cases hmem with
      | head => exact if_pos rfl
      | tail _ hrest =>
          have hne : key ≠ entry.1 := by
            intro heq
            apply hnodup.1
            rw [← heq]
            exact List.mem_map_of_mem hrest
          rw [if_neg hne, ih hnodup.2 hrest]

theorem length_le_put : table.length ≤ (put key value table).length := by
  have hkeys := congrArg List.length (@keys_put _ _ _ table key value)
  rw [length_keys] at hkeys
  split at hkeys
  · exact Nat.le_of_eq (hkeys.trans length_keys).symm
  · rw [hkeys, List.length_append, length_keys]
    exact Nat.le_add_right _ _

theorem nodup_keys_put (hnodup : (keys table).Nodup) :
    (keys (put key value table)).Nodup := by
  rw [keys_put]
  split
  · exact hnodup
  · next hnew => exact List.concat_eq_append ▸ List.Nodup.concat hnew hnodup

theorem nodup_keys_putAll (hnodup : (keys table).Nodup)
    (writes : List (Key × Value)) : (keys (putAll table writes)).Nodup := by
  induction writes generalizing table with
  | nil => exact hnodup
  | cons write rest ih => exact ih (nodup_keys_put hnodup)

theorem length_le_putAll (writes : List (Key × Value)) :
    table.length ≤ (putAll table writes).length := by
  induction writes generalizing table with
  | nil => exact Nat.le_refl _
  | cons write rest ih => exact Nat.le_trans length_le_put ih

theorem putAll_concat (writes : List (Key × Value)) (write : Key × Value) :
    putAll table (writes ++ [write]) =
      put write.1 write.2 (putAll table writes) :=
  List.foldl_concat _ _ _ _

theorem keys_putAll_nil (writes : List (Key × Value)) :
    keys (putAll [] writes) = (keys writes).eraseDups := by
  induction writes using List.reverseRecOn with
  | nil => rfl
  | append_singleton writes write ih =>
      have hkeys : keys (writes ++ [write]) = keys writes ++ [write.1] :=
        List.map_append
      rw [putAll_concat, keys_put, ih, hkeys, List.eraseDups_append]
      by_cases hold : write.1 ∈ keys writes
      · rw [if_pos (List.mem_eraseDups.mpr hold)]
        simp [List.removeAll, hold]
      · rw [if_neg (mt List.mem_eraseDups.mp hold)]
        simp [List.removeAll, hold, List.eraseDups_cons]

theorem lookup_putAll_nil (writes : List (Key × Value)) :
    (putAll [] writes).lookup other = writes.reverse.lookup other := by
  induction writes using List.reverseRecOn with
  | nil => rfl
  | append_singleton writes write ih =>
      rw [putAll_concat, lookup_put, ih, List.reverse_concat, lookup_cons]

/-! A table that has a value for every key. -/

def updateAll (values : Key → Value) (writes : List (Key × Value)) :
    Key → Value :=
  writes.foldl (fun values write => Function.update values write.1 write.2)
    values

theorem updateAll_of_notMem {values : Key → Value}
    {writes : List (Key × Value)} (hnew : key ∉ keys writes) :
    updateAll values writes key = values key := by
  induction writes generalizing values with
  | nil => rfl
  | cons write rest ih =>
      rw [keys_cons, List.mem_cons, not_or] at hnew
      exact (ih hnew.2).trans (Function.update_of_ne hnew.1 _ _)

theorem updateAll_of_mem {values : Key → Value} {writes : List (Key × Value)}
    (hnodup : (keys writes).Nodup) (hmem : (key, value) ∈ writes) :
    updateAll values writes key = value := by
  induction writes generalizing values with
  | nil => cases hmem
  | cons write rest ih =>
      rw [keys_cons, List.nodup_cons] at hnodup
      rcases List.mem_cons.mp hmem with rfl | hrest
      · exact (updateAll_of_notMem hnodup.1).trans (Function.update_self _ _ _)
      · exact ih hnodup.2 hrest

end Synos.Data.Assoc

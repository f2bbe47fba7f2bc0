import Synos.Stored.Keeps

namespace Synos.Stored

open Synos.Data
open Synos.Page

/-! Splitting and merging on the bytes of memory. -/

section

variable {place : Place} {origin : Memory} {stored : StoredMap} {map : BpaMap}
  {order offset : Nat}

theorem two_mul_lt {pages half : Nat} (horder : 0 < order)
    (hlt : half < pages / 2 ^ order) :
    half * 2 + 1 < pages / 2 ^ (order - 1) := by
  obtain ⟨low, rfl⟩ : ∃ low, order = low + 1 := ⟨order - 1, by omega⟩
  rw [pow_succ, ← Nat.div_div_eq_div_mul] at hlt
  rw [Nat.add_sub_cancel]
  omega

theorem Place.Keeps.halve (hkeeps : place.Keeps origin stored map)
    (hzero : 0 < order) (horder : order < maxOrder)
    (hlt : offset < place.pages / 2 ^ order) :
    place.Keeps origin
      (((stored.blockSet order offset).blockClear (order - 1)
        (offset * 2)).blockClear (order - 1) (offset * 2 + 1))
      (((map.blockSet order offset).blockClear (order - 1)
        (offset * 2)).blockClear (order - 1) (offset * 2 + 1)) := by
  have hhalf := two_mul_lt hzero hlt
  have hset := hkeeps.blockSet (inArea_of_lt horder hlt)
  have hleft : place.Keeps origin
      ((stored.blockSet order offset).blockClear (order - 1) (offset * 2))
      ((map.blockSet order offset).blockClear (order - 1) (offset * 2)) :=
    hset.blockClear (by omega) (by omega)
  exact hleft.blockClear (by omega) hhalf

theorem Place.Keeps.addFree (hkeeps : place.Keeps origin stored map)
    (horder : order < maxOrder) (hblocks : 0 < place.pages / 2 ^ order)
    (amount : Nat) :
    place.Keeps origin
      (stored.setPagesFree order (wordAdd (stored.pagesFree order) amount))
      (map.setPagesFree order (wordAdd (map.pagesFree order) amount)) := by
  rw [hkeeps.count_eq order horder]
  exact hkeeps.setPagesFree horder (word_lt _) fun h => by omega

theorem Place.Keeps.subFree (hkeeps : place.Keeps origin stored map)
    (horder : order < maxOrder) (hblocks : 0 < place.pages / 2 ^ order)
    (amount : Nat) :
    place.Keeps origin
      (stored.setPagesFree order (wordSub (stored.pagesFree order) amount))
      (map.setPagesFree order (wordSub (map.pagesFree order) amount)) := by
  rw [hkeeps.count_eq order horder]
  exact hkeeps.setPagesFree horder (word_lt _) fun h => by omega

theorem Place.Keeps.splitNextFree (hkeeps : place.Keeps origin stored map)
    (hzero : 0 < order) (horder : order < maxOrder)
    (hcount : 0 < map.pagesFree order) :
    place.Keeps origin (Stored.splitNextFree stored order)
      (Page.splitNextFree map order) := by
  have hlt := hkeeps.padded.hint_lt_of_count horder hcount
  have hhalf := two_mul_lt hzero hlt
  have hlow : order - 1 < maxOrder := by omega
  have hhalves := hkeeps.halve hzero horder hlt
  rw [Stored.splitNextFree, Page.splitNextFree, hkeeps.hint_eq order horder]
  refine (Place.Keeps.addFree ?_ hlow (by omega) 2).dropNextFreePage horder
    (by omega)
  refine .ite ?_ (fun _ => hhalves.setNextFreePage hlow (.inr (by omega)))
    fun _ => hhalves
  rw [hhalves.hint_eq _ hlow, hhalves.count_eq _ hlow]

/-! Merging. -/

theorem Place.Keeps.joinBlocks (hkeeps : place.Keeps origin stored map)
    (horder : order + 1 < maxOrder)
    (hlt : offset + 1 < place.pages / 2 ^ order)
    (habove : offset / 2 < place.pages / 2 ^ (order + 1)) :
    place.Keeps origin (Stored.joinBlocks stored order offset)
      (Page.joinBlocks map order offset) := by
  have hlow : order < maxOrder := by omega
  have hleft := hkeeps.blockSet
    (inArea_of_lt hlow (show offset < place.pages / 2 ^ order by omega))
  have hclear := (hleft.blockSet (inArea_of_lt hlow hlt)).blockClear horder
    habove
  exact (hclear.subFree hlow (by omega) 2).addFree horder (by omega) 1

theorem Place.Keeps.mergePair (hkeeps : place.Keeps origin stored map)
    (horder : order + 1 < maxOrder)
    (hlt : offset + 1 < place.pages / 2 ^ order)
    (habove : offset / 2 < place.pages / 2 ^ (order + 1)) :
    place.Keeps origin (Stored.mergePair stored order offset)
      (Page.mergePair map order offset) := by
  have hlow : order < maxOrder := by omega
  have hjoined := hkeeps.joinBlocks horder hlt habove
  rw [Stored.mergePair, Page.mergePair]
  generalize Stored.joinBlocks stored order offset = joined at *
  generalize Page.joinBlocks map order offset = other at *
  have hmoved : place.Keeps origin
      (if joined.nextFreePage order = offset ∨
          joined.nextFreePage order = offset + 1 then
        Stored.searchNextFreePage joined order (offset + 2)
      else joined)
      (if other.nextFreePage order = offset ∨
          other.nextFreePage order = offset + 1 then
        Page.searchNextFreePage other order (offset + 2)
      else other) := by
    refine .ite (by rw [hjoined.hint_eq order hlow]) ?_ fun _ => hjoined
    exact fun _ => hjoined.searchNextFreePage hlow (offset + 2)
  refine .ite ?_ (fun _ => hmoved.setNextFreePage horder (.inr habove))
    fun _ => hmoved
  rw [hmoved.hint_eq _ horder, hmoved.count_eq _ horder]

/-- A merge stays inside the region: it goes on only with a buddy whose bit is
clear. -/
theorem Place.Keeps.blockMerge {depth : Nat}
    (hkeeps : place.Keeps origin stored map) (hdepth : order + depth = maxOrder)
    (hlt : offset - offset % 2 + 1 < place.pages / 2 ^ order) :
    place.Keeps origin (Stored.blockMerge stored order offset)
      (Page.blockMerge map order offset) := by
  induction depth generalizing stored map order offset with
  | zero =>
      rw [Stored.blockMerge, Page.blockMerge, if_pos (by omega),
        if_pos (by omega)]
      exact hkeeps
  | succ depth ih =>
      rw [Stored.blockMerge, Page.blockMerge]
      by_cases htop : maxOrder - 1 ≤ order
      · rw [if_pos htop, if_pos htop]
        exact hkeeps
      · rw [if_neg htop, if_neg htop]
        have habove : offset / 2 < place.pages / 2 ^ (order + 1) := by
          rw [pow_succ, ← Nat.div_div_eq_div_mul]
          omega
        have hhalf : (offset - offset % 2) / 2 = offset / 2 := by omega
        have horder : order + 1 < maxOrder := by omega
        have hmerged := hkeeps.mergePair horder hlt (by rwa [hhalf])
        simp only [hhalf]
        have hbuddy : ∀ buddy, buddy = buddyOf (offset / 2) →
            place.Keeps origin
              (if (Stored.mergePair stored order
                  (offset - offset % 2)).blockCheck (order + 1) buddy then
                Stored.mergePair stored order (offset - offset % 2)
              else Stored.blockMerge (Stored.mergePair stored order
                (offset - offset % 2)) (order + 1) (offset / 2))
              (if (Page.mergePair map order
                  (offset - offset % 2)).blockCheck (order + 1) buddy then
                Page.mergePair map order (offset - offset % 2)
              else Page.blockMerge (Page.mergePair map order
                (offset - offset % 2)) (order + 1) (offset / 2)) := by
          rintro buddy rfl
          have hcheck := hmerged.check_eq (order + 1) (buddyOf (offset / 2))
            ⟨horder, offset / 2, habove, .inr rfl⟩
          refine .ite (by rw [hcheck, blockCheck_eq]) (fun _ => hmerged) ?_
          intro hclear
          rw [blockCheck_eq, Bool.not_eq_true] at hclear
          have hplace := hmerged.padded.clear_lt _ horder _ hclear
          refine ih hmerged (by omega) ?_
          unfold buddyOf at hplace
          split at hplace <;> omega
        unfold buddyOf at hbuddy
        refine .ite Iff.rfl ?_ ?_
        · intro heven
          exact hbuddy _ (if_neg (by omega)).symm
        · intro hodd
          exact hbuddy _ (if_pos (by omega)).symm

theorem Place.Keeps.releaseBlock (hkeeps : place.Keeps origin stored map)
    (horder : order < maxOrder) (hlt : offset < place.pages / 2 ^ order) :
    place.Keeps origin (Stored.releaseBlock stored order offset)
      (Page.releaseBlock map order offset) := by
  have hcounted := (hkeeps.blockClear horder hlt).addFree horder (by omega) 1
  rw [Stored.releaseBlock, Page.releaseBlock]
  refine .ite ?_ (fun _ => hcounted.setNextFreePage horder (.inr hlt))
    fun _ => hcounted
  rw [hcounted.hint_eq order horder]

theorem Place.Keeps.returnBlock (hkeeps : place.Keeps origin stored map)
    (horder : order < maxOrder) (hlt : offset < place.pages / 2 ^ order) :
    place.Keeps origin (Stored.returnBlock stored order offset)
      (Page.returnBlock map order offset) := by
  have hreleased := hkeeps.releaseBlock horder hlt
  have hcheck := hreleased.check_eq order (buddyOf offset)
    ⟨horder, offset, hlt, .inr rfl⟩
  rw [Stored.returnBlock, Page.returnBlock]
  refine .ite (by rw [hcheck, blockCheck_eq]) (fun _ => hreleased) ?_
  intro hclear
  rw [blockCheck_eq, Bool.not_eq_true] at hclear
  have hplace := hreleased.padded.clear_lt order horder _ hclear
  refine hreleased.blockMerge (Nat.add_sub_cancel' horder.le) ?_
  unfold buddyOf at hplace
  split at hplace <;> omega

end

end Synos.Stored

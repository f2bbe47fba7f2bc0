import Synos.Stored.Split

namespace Synos.Stored

open Synos.Data
open Synos.Page

/-! `pages_alloc` and `pages_free` on the bytes of memory. -/

/-- The same region with its map kept in another way. -/
def withMap {Map Other : Type} (region : Region Map) (map : Other) :
    Region Other where
  start := region.start
  size := region.size
  attrib := region.attrib
  pagesTotal := region.pagesTotal
  pagesFree := region.pagesFree
  memFull := region.memFull
  lock := region.lock
  map := map

/-- The region with its tables in memory is the one with a map of its own. -/
def Place.Mirrors (place : Place) (origin : Memory) (stored : Region StoredMap)
    (region : Region) : Prop :=
  stored = withMap region stored.map ∧
    place.Keeps origin stored.map region.map

/-- The same for the reply of a call and the region after it. -/
def Place.Replies (place : Place) (origin : Memory) :
    Nat × Region StoredMap → Nat × Region → Prop :=
  fun reply other => reply.1 = other.1 ∧ place.Mirrors origin reply.2 other.2

section

variable {place : Place} {origin : Memory} {stored : Region StoredMap}
  {region : Region} {order offset : Nat}

theorem Place.Mirrors.outOfMem (hmirrors : place.Mirrors origin stored region) :
    place.Mirrors origin (outOfMem stored) (outOfMem region) := by
  obtain ⟨heq, hkeeps⟩ := hmirrors
  rw [heq]
  exact ⟨rfl, hkeeps⟩

theorem Place.Mirrors.unlock (hmirrors : place.Mirrors origin stored region) :
    place.Mirrors origin (spinlockUnlock stored) (spinlockUnlock region) := by
  obtain ⟨heq, hkeeps⟩ := hmirrors
  rw [heq]
  exact ⟨rfl, hkeeps⟩

theorem Place.Mirrors.setMap (hmirrors : place.Mirrors origin stored region)
    {map : StoredMap} {other : BpaMap} (hkeeps : place.Keeps origin map other) :
    place.Mirrors origin { stored with map := map }
      { region with map := other } := by
  rw [hmirrors.1]
  exact ⟨rfl, hkeeps⟩

theorem Place.Mirrors.ite {p q : Prop} [Decidable p] [Decidable q] (hiff : p ↔ q)
    {first second : Region StoredMap} {one two : Region}
    (hthen : q → place.Mirrors origin first one)
    (helse : ¬ q → place.Mirrors origin second two) :
    place.Mirrors origin (if p then first else second)
      (if q then one else two) := by
  by_cases hq : q
  · rw [if_pos (hiff.mpr hq), if_pos hq]
    exact hthen hq
  · rw [if_neg (mt hiff.mp hq), if_neg hq]
    exact helse hq

theorem Place.Mirrors.lock (hmirrors : place.Mirrors origin stored region) :
    Simulates (place.Mirrors origin) (spinlockLock stored)
      (spinlockLock region) := by
  obtain ⟨heq, hkeeps⟩ := hmirrors
  rw [heq]
  unfold spinlockLock withMap
  simp only
  by_cases hlock : region.lock = true
  · rw [if_pos hlock, if_pos hlock]
    rfl
  · rw [if_neg hlock, if_neg hlock]
    exact ⟨rfl, hkeeps⟩

theorem Place.Mirrors.blockSplit {depth : Nat}
    (hmirrors : place.Mirrors origin stored region)
    (hdepth : order + depth = maxOrder) :
    place.Mirrors origin (Stored.blockSplit stored order)
      (Page.blockSplit region order) := by
  induction depth generalizing order with
  | zero =>
      rw [Stored.blockSplit, Page.blockSplit, if_pos (.inr (by omega)),
        if_pos (.inr (by omega))]
      exact hmirrors
  | succ depth ih =>
      have horder : order < maxOrder := by omega
      rw [Stored.blockSplit, Page.blockSplit]
      refine .ite Iff.rfl (fun _ => hmirrors) fun hzero => ?_
      have hpos : 0 < order := by omega
      refine .ite (by rw [hmirrors.2.count_eq order horder]) ?_ fun _ => ?_
      · exact fun hcount => hmirrors.setMap
          (hmirrors.2.splitNextFree hpos horder hcount)
      · refine .ite Iff.rfl (fun _ => hmirrors.outOfMem) fun _ => ?_
        have hsplit := ih (show order + 1 + depth = maxOrder by omega)
        refine .ite (by rw [hsplit.2.count_eq order horder])
          (fun _ => hsplit.outOfMem) fun hcount => ?_
        exact hsplit.setMap (hsplit.2.splitNextFree hpos horder (by omega))

theorem Place.Mirrors.afterAlloc (hmirrors : place.Mirrors origin stored region)
    {map : StoredMap} {other : BpaMap} (hkeeps : place.Keeps origin map other) :
    place.Mirrors origin (stored.afterAlloc order map)
      (region.afterAlloc order other) := by
  rw [hmirrors.1]
  exact ⟨rfl, hkeeps⟩

theorem Place.Mirrors.afterFree (hmirrors : place.Mirrors origin stored region)
    {map : StoredMap} {other : BpaMap} (hkeeps : place.Keeps origin map other) :
    place.Mirrors origin (stored.afterFree order map)
      (region.afterFree order other) := by
  rw [hmirrors.1]
  exact ⟨rfl, hkeeps⟩

theorem Place.Mirrors.start_eq (hmirrors : place.Mirrors origin stored region) :
    stored.start = region.start := by
  rw [hmirrors.1]
  rfl

theorem allocNextFree_eq (stored : Region StoredMap) (order : Nat) :
    allocNextFree stored order =
      (stored.address ⟨order, stored.map.nextFreePage order⟩,
        stored.afterAlloc order (dropNextFreePage (stored.map.blockSet order
          (stored.map.nextFreePage order)) order)) := by
  simp only [allocNextFree, Region.address, Region.afterAlloc, outOfMem,
    spinlockUnlock]
  split
  · next hle => simp [hle]
  · next hgt => simp [hgt]

theorem Place.Mirrors.allocNextFree
    (hmirrors : place.Mirrors origin stored region) (horder : order < maxOrder)
    (hcount : 0 < region.map.pagesFree order) :
    place.Replies origin (Stored.allocNextFree stored order)
      (Page.allocNextFree region order) := by
  have hlt := hmirrors.2.padded.hint_lt_of_count horder hcount
  have hset := hmirrors.2.blockSet (inArea_of_lt horder hlt)
  have hdropped := hset.dropNextFreePage horder (by omega)
  rw [Stored.allocNextFree_eq, Page.allocNextFree_eq, allocNextFree_map,
    hmirrors.2.hint_eq order horder]
  refine ⟨?_, hmirrors.afterAlloc hdropped⟩
  simp only [Region.address, hmirrors.start_eq]

theorem Place.Mirrors.pagesAlloc
    (hmirrors : place.Mirrors origin stored region) (order : Nat) :
    Simulates (place.Replies origin) (Stored.pagesAlloc stored order)
      (Page.pagesAlloc region order) := by
  unfold Stored.pagesAlloc Page.pagesAlloc
  by_cases horder : maxOrder ≤ order
  · rw [if_pos horder, if_pos horder]
    exact ⟨rfl, hmirrors⟩
  · rw [if_neg horder, if_neg horder]
    rcases hmirrors.lock.cases with
      ⟨fault, hfirst, hsecond⟩ | ⟨held, other, hfirst, hsecond, hheld⟩
    · rw [hfirst, hsecond]
      rfl
    · rw [hfirst, hsecond]
      have hlt : order < maxOrder := by omega
      simp only [hheld.2.count_eq order hlt]
      split
      · next hcount => exact hheld.allocNextFree hlt hcount
      · split
        · exact ⟨rfl, hheld.outOfMem.unlock⟩
        · have hsplit := hheld.blockSplit
            (show order + 1 + (maxOrder - (order + 1)) = maxOrder by omega)
          rw [hsplit.2.count_eq order hlt]
          split
          · exact ⟨rfl, hsplit.outOfMem.unlock⟩
          · exact hsplit.allocNextFree hlt (by omega)

/-! Freeing. -/

theorem pagesFree_of_set {phaddr : Nat} (hlock : stored.lock = false)
    (hin : stored.Contains phaddr)
    (hset : stored.map.blockCheck order (stored.offsetOf phaddr) = true) :
    pagesFree stored phaddr order =
      .ok (stored.afterFree order
        (returnBlock stored.map order (stored.offsetOf phaddr))) := by
  obtain ⟨hge, hlt⟩ := hin
  have hrange : ¬ (phaddr < stored.start ∨
      wordAdd stored.start stored.size ≤ phaddr) := by omega
  unfold Region.offsetOf at hset ⊢
  simp only [pagesFree, spinlockLock, hlock, Bool.false_eq_true, if_false,
    hrange, hset, if_true]
  by_cases hzero : stored.pagesFree = 0
  · simp [hzero, outOfMem, spinlockUnlock, Region.afterFree]
  · simp [hzero, spinlockUnlock, Region.afterFree]

theorem pagesFree_of_not_set {phaddr : Nat} (hlock : stored.lock = false)
    (h : ¬ (stored.Contains phaddr ∧
      stored.map.blockCheck order (stored.offsetOf phaddr) = true)) :
    pagesFree stored phaddr order = .ok { stored with lock := true } := by
  simp only [pagesFree, spinlockLock, hlock, Bool.false_eq_true, if_false]
  split
  · rfl
  · next hrange =>
      have hin : stored.Contains phaddr := by
        unfold Region.Contains
        omega
      rw [if_neg]
      exact fun hset => h ⟨hin, hset⟩

theorem Place.Mirrors.pagesFree
    (hmirrors : place.Mirrors origin stored region) {phaddr : Nat}
    (horder : order < maxOrder)
    (hlt : region.Contains phaddr →
      region.offsetOf phaddr < place.pages / 2 ^ order) :
    Simulates (place.Mirrors origin) (Stored.pagesFree stored phaddr order)
      (Page.pagesFree region phaddr order) := by
  have hstoredLock : stored.lock = region.lock := by
    rw [hmirrors.1]
    rfl
  have hoffset : stored.offsetOf phaddr = region.offsetOf phaddr := by
    rw [Region.offsetOf, hmirrors.start_eq, Region.offsetOf]
  have hcontains : stored.Contains phaddr ↔ region.Contains phaddr := by
    rw [hmirrors.1]
    rfl
  cases hlock : region.lock with
  | true =>
      simp only [Stored.pagesFree, Page.pagesFree, spinlockLock,
        hstoredLock, hlock, if_true]
      rfl
  | false =>
      rw [hlock] at hstoredLock
      by_cases hset : region.Contains phaddr ∧
          region.map.freeArea order (region.offsetOf phaddr) = true
      · have hplace := hlt hset.1
        have hcheck := hmirrors.2.check_eq order _ (inArea_of_lt horder hplace)
        rw [Page.pagesFree_of_set hlock hset.1 hset.2,
          Stored.pagesFree_of_set hstoredLock (hcontains.mpr hset.1)
            (by rw [hoffset, hcheck, hset.2]), hoffset]
        exact hmirrors.afterFree (hmirrors.2.returnBlock horder hplace)
      · rw [Page.pagesFree_of_not_set hlock hset,
          Stored.pagesFree_of_not_set hstoredLock]
        · rw [hmirrors.1]
          exact ⟨rfl, hmirrors.2⟩
        · rintro ⟨hin, hbit⟩
          have hplace := hlt (hcontains.mp hin)
          rw [hoffset, hmirrors.2.check_eq order _
            (inArea_of_lt horder hplace)] at hbit
          exact hset ⟨hcontains.mp hin, hbit⟩

end

end Synos.Stored

import Synos.Stored.System
import Synos.Page.Reserved

namespace Synos.Stored

open Synos.Data
open Synos.Page

/-! What the bytes of memory say about a region, as ten bitmaps that are apart. -/

def StoredMap.read (stored : StoredMap) : BpaMap where
  pages := stored.pages
  freeArea order offset :=
    if order < maxOrder ∧ offset < stored.pages / 2 ^ order then
      stored.blockCheck order offset
    else true
  pagesFree order := if order < maxOrder then stored.pagesFree order else 0
  nextFreePage order :=
    if order < maxOrder then stored.nextFreePage order else 0

/-- The region with what its bytes say for its map. -/
def readRegion (region : Region StoredMap) : Region :=
  withMap region region.map.read

/-- The maps agree on every order there is. -/
structure SameMap (map other : BpaMap) : Prop where
  pages_eq : map.pages = other.pages
  slots_eq : ∀ order < maxOrder, map.slots order = other.slots order

section

variable {map other : BpaMap} {order : Nat} {block : Block}

theorem SameMap.area_eq (hsame : SameMap map other) (horder : order < maxOrder) :
    map.freeArea order = other.freeArea order :=
  congrArg FreeSlots.bits (hsame.slots_eq order horder)

theorem SameMap.count_eq (hsame : SameMap map other) (horder : order < maxOrder) :
    map.pagesFree order = other.pagesFree order :=
  congrArg FreeSlots.count (hsame.slots_eq order horder)

theorem SameMap.hint_eq (hsame : SameMap map other) (horder : order < maxOrder) :
    map.nextFreePage order = other.nextFreePage order :=
  congrArg FreeSlots.hint (hsame.slots_eq order horder)

theorem SameMap.symm (hsame : SameMap map other) : SameMap other map :=
  ⟨hsame.pages_eq.symm, fun order horder => (hsame.slots_eq order horder).symm⟩

theorem SameMap.free_eq (hsame : SameMap map other) : map.free = other.free := by
  ext block
  simp only [BpaMap.mem_free]
  refine and_congr_right fun horder => ?_
  rw [hsame.area_eq horder]

theorem SameMap.weight_eq (hsame : SameMap map other) :
    map.weight = other.weight :=
  Finset.sum_congr rfl fun order horder => by
    rw [hsame.count_eq (Finset.mem_range.mp horder)]

theorem SameMap.reaches (hsame : SameMap map other) (hreaches : map.Reaches block) :
    other.Reaches block := by
  obtain ⟨outer, hfree, hinside, hindex, hsteers⟩ := hreaches
  have hlowest : ∀ order ≤ outer.order,
      map.lowestAt outer order = other.lowestAt outer order := by
    intro order horder
    rw [BpaMap.lowestAt, BpaMap.lowestAt,
      hsame.slots_eq order (Nat.lt_of_le_of_lt horder hfree.1)]
  refine ⟨outer, hsame.free_eq ▸ hfree, hinside, hindex, ?_⟩
  intro order hle hlt
  have hsteers := hsteers order hle hlt
  rwa [hlowest order (by omega), hlowest (order + 1) (by omega),
    hsame.hint_eq (Nat.lt_trans hlt hfree.1)] at hsteers

theorem SameMap.reaches_iff (hsame : SameMap map other) :
    map.Reaches block ↔ other.Reaches block :=
  ⟨hsame.reaches, hsame.symm.reaches⟩

end

section

variable {place : Place} {origin : Memory} {stored : StoredMap} {map : BpaMap}
  {region : Region StoredMap} {other : Region}

theorem Place.Keeps.read (hkeeps : place.Keeps origin stored map) :
    SameMap stored.read map := by
  have hpages : stored.pages = map.pages :=
    hkeeps.pages_eq.trans hkeeps.map_pages.symm
  refine ⟨hpages, fun order horder => ?_⟩
  have hbits : stored.read.freeArea order = map.freeArea order := by
    funext offset
    simp only [StoredMap.read, horder, true_and, hkeeps.pages_eq]
    by_cases hlt : offset < place.pages / 2 ^ order
    · rw [if_pos hlt]
      exact hkeeps.check_eq order offset (inArea_of_lt horder hlt)
    · rw [if_neg hlt]
      cases hbit : map.freeArea order offset with
      | true => rfl
      | false =>
          exact absurd (hkeeps.padded.clear_lt order horder offset hbit) hlt
  have hlength : freeAreaLength stored.read.pages order =
      freeAreaLength map.pages order :=
    congrArg (fun pages => freeAreaLength pages order) hpages
  have hcount : stored.read.pagesFree order = map.pagesFree order :=
    (if_pos horder).trans (hkeeps.count_eq order horder)
  have hhint : stored.read.nextFreePage order = map.nextFreePage order :=
    (if_pos horder).trans (hkeeps.hint_eq order horder)
  rw [BpaMap.slots, BpaMap.slots, hbits, hlength, hcount, hhint]

theorem Place.Keeps.congr (hkeeps : place.Keeps origin stored map)
    {twin : BpaMap} (hsame : SameMap map twin) :
    place.Keeps origin stored twin where
  fits := hkeeps.fits
  map_pages := hsame.pages_eq.symm.trans hkeeps.map_pages
  address_eq := hkeeps.address_eq
  pages_eq := hkeeps.pages_eq
  area_eq := hkeeps.area_eq
  count_eq order horder :=
    (hkeeps.count_eq order horder).trans (hsame.count_eq horder)
  hint_eq order horder :=
    (hkeeps.hint_eq order horder).trans (hsame.hint_eq horder)
  bit_eq order offset hbit :=
    (hkeeps.bit_eq order offset hbit).trans
      (congrFun (hsame.area_eq hbit.1) offset)
  outside := hkeeps.outside
  padded :=
    { pages_lt := hkeeps.padded.pages_lt
      clear_lt := fun order horder offset hclear =>
        hkeeps.padded.clear_lt order horder offset
          ((congrFun (hsame.area_eq horder) offset).trans hclear)
      hint_lt := fun order horder =>
        hsame.hint_eq horder ▸ hkeeps.padded.hint_lt order horder
      count_zero := fun order horder hzero =>
        (hsame.count_eq horder).symm.trans
          (hkeeps.padded.count_zero order horder hzero) }

theorem Place.Keeps.reads (hkeeps : place.Keeps origin stored map) :
    place.Keeps stored.memory stored stored.read :=
  (hkeeps.moved fun _ _ => rfl).congr hkeeps.read.symm

/-- Nothing stands at orders there are not. -/
structure Trimmed (map : BpaMap) : Prop where
  bits : ∀ order, maxOrder ≤ order → ∀ offset, map.freeArea order offset = true
  count : ∀ order, maxOrder ≤ order → map.pagesFree order = 0
  hint : ∀ order, maxOrder ≤ order → map.nextFreePage order = 0

theorem Place.Keeps.read_eq (hkeeps : place.Keeps origin stored map)
    (htrimmed : Trimmed map) : stored.read = map := by
  have hsame := hkeeps.read
  have hbits : stored.read.freeArea = map.freeArea := by
    funext order
    by_cases horder : order < maxOrder
    · exact hsame.area_eq horder
    · funext offset
      rw [htrimmed.bits order (Nat.le_of_not_lt horder)]
      exact if_neg fun hboth => horder hboth.1
  have hcounts : stored.read.pagesFree = map.pagesFree := by
    funext order
    by_cases horder : order < maxOrder
    · exact hsame.count_eq horder
    · rw [htrimmed.count order (Nat.le_of_not_lt horder)]
      exact if_neg horder
  have hhints : stored.read.nextFreePage = map.nextFreePage := by
    funext order
    by_cases horder : order < maxOrder
    · exact hsame.hint_eq horder
    · rw [htrimmed.hint order (Nat.le_of_not_lt horder)]
      exact if_neg horder
  cases hread : stored.read
  cases map
  rw [hread] at hsame hbits hcounts hhints
  exact (BpaMap.mk.injEq ..).mpr ⟨hsame.pages_eq, hbits, hcounts, hhints⟩

theorem partitionMap_trimmed (pages : Nat) :
    Trimmed (partitionMap pages maxOrder) := by
  constructor <;> intro order horder <;>
    simp [partitionMap, Nat.not_lt_of_le horder]

theorem Place.Mirrors.read (hmirrors : place.Mirrors origin region other) :
    readRegion region = withMap other region.map.read ∧
      SameMap (readRegion region).map other.map :=
  ⟨congrArg (fun copy => withMap copy region.map.read) hmirrors.1,
    hmirrors.2.read⟩

end

/-! The whole chain. -/

/-- What memory says about the chain. -/
def StoredSystem.read (system : StoredSystem) : PageSystem where
  regions := system.regions.map fun region => readRegion (system.attach region)
  nextRegion := system.nextRegion
  outOfMem := system.outOfMem

/-- The bytes of every accepted region stand for bitmaps of its own, and no two of
these regions have a byte in common. -/
structure StoredSystem.Housed (system : StoredSystem) (places : Nat → Place) :
    Prop where
  keeps : ∀ index region, system.regions[index]? = some region →
    region.Accepted →
    (places index).Keeps system.memory (system.attach region).map
      (system.attach region).map.read
  apart : ∀ index other, system.Accepts index → system.Accepts other →
    index ≠ other →
    ∀ address, (places index).Owns address → ¬ (places other).Owns address

section

variable {places : Nat → Place} {housed : Nat → Prop} {stored : StoredSystem}
  {system : PageSystem} {index order : Nat}

theorem StoredSystem.read_bare (stored : StoredSystem) :
    stored.read.regions.map bare = stored.regions.map bare := by
  simp only [StoredSystem.read, List.map_map]
  rfl

theorem StoredSystem.read_getElem? (stored : StoredSystem) (index : Nat) :
    stored.read.regions[index]? =
      (stored.regions[index]?).map fun region =>
        readRegion (stored.attach region) :=
  List.getElem?_map ..

theorem StoredSystem.read_accepts (stored : StoredSystem) :
    stored.read.Accepts = stored.Accepts := by
  funext index
  refine propext ⟨?_, ?_⟩
  · rintro ⟨region, hregion, haccepted⟩
    rw [stored.read_getElem?] at hregion
    obtain ⟨twin, htwin, rfl⟩ := Option.map_eq_some_iff.mp hregion
    exact ⟨twin, htwin, haccepted⟩
  · rintro ⟨region, hregion, haccepted⟩
    refine ⟨readRegion (stored.attach region), ?_, haccepted⟩
    rw [stored.read_getElem?, hregion]
    rfl

theorem StoredSystem.Housed.houses (hhoused : stored.Housed places)
    (hcursor : ∀ next, stored.nextRegion = some next → stored.Accepts next) :
    Houses places stored.Accepts stored stored.read where
  bare_eq := stored.read_bare.symm
  next_eq := rfl
  mark_eq := rfl
  keeps := by
    intro index haccepts region other hregion hother
    obtain ⟨again, hagain, haccepted⟩ := haccepts
    rw [hregion] at hagain
    cases hagain
    rw [stored.read_getElem?, hregion] at hother
    cases hother
    exact hhoused.keeps index region hregion haccepted
  apart := hhoused.apart
  accepted := by
    intro index region hregion haccepted
    rw [← stored.read_accepts]
    exact ⟨region, hregion, haccepted⟩
  cursor := hcursor

theorem Houses.exists_read (hhouses : Houses places housed stored system)
    (hhoused : housed index) {other : Region}
    (hother : system.regions[index]? = some other) :
    ∃ region, stored.read.regions[index]? = some region ∧
      bare region = bare other ∧ SameMap region.map other.map := by
  obtain ⟨region, hregion, hbare⟩ := hhouses.exists_stored hother
  refine ⟨readRegion (stored.attach region), ?_, hbare, ?_⟩
  · rw [stored.read_getElem?, hregion]
    rfl
  · exact (hhouses.keeps index hhoused region other hregion hother).read

theorem Houses.read_cases (hhouses : Houses places housed stored system)
    (index : Nat) :
    (stored.read.regions[index]? = none ∧ system.regions[index]? = none) ∨
      ∃ region other, stored.read.regions[index]? = some region ∧
        system.regions[index]? = some other ∧ bare region = bare other := by
  rcases hhouses.cases index with
    ⟨hnone, hother⟩ | ⟨region, other, hregion, hother, hbare⟩
  · refine .inl ⟨?_, hother⟩
    rw [stored.read_getElem?, hnone]
    rfl
  · refine .inr ⟨readRegion (stored.attach region), other, ?_, hother, hbare⟩
    rw [stored.read_getElem?, hregion]
    rfl

theorem Houses.read_bare_eq (hhouses : Houses places housed stored system) :
    stored.read.regions.map bare = system.regions.map bare :=
  stored.read_bare.trans hhouses.bare_eq

end

end Synos.Stored

import Synos.Page.CallRun

namespace Synos.Page

open Synos.Data

/-! Physical memory as a whole: the chain of regions, the cursor that moves
through it and the flag for exhausted memory.  A region is named by its place in
the chain, and the place past the end stands for the null pointer. -/

structure PageSystem (Map : Type := BpaMap) where
  regions : List (Region Map)
  nextRegion : Option Nat
  outOfMem : Bool

/-- `MEM_REGION_AVAILABLE | MEM_REGION_READ | MEM_REGION_WRITE` -/
def usableFlags : Nat := 0b1000011

/-- `MEM_REGION_BAD | MEM_REGION_PRESERVE | MEM_REGION_PROTECTED` -/
def withheldFlags : Nat := 0b0110100

section

variable {Map : Type}

/-- The attribute test of `findNextRegion`. -/
def Region.Accepted (region : Region Map) : Prop :=
  region.attrib &&& usableFlags = usableFlags ∧
    region.attrib &&& withheldFlags = 0 ∧ pageSize ≤ region.size

instance (region : Region Map) : Decidable region.Accepted :=
  inferInstanceAs (Decidable (_ ∧ _ ∧ _))

/-- The first region from place `start` on that passes the test. -/
def firstRegion? (test : Region Map → Bool) (regions : List (Region Map)) (start : Nat) :
    Option Nat :=
  if h : start < regions.length then
    if test (regions.get ⟨start, h⟩) then some start
    else firstRegion? test regions (start + 1)
  else
    none
termination_by regions.length - start

theorem firstRegion?_eq_some {test : Region Map → Bool} {regions : List (Region Map)}
    {start found : Nat} (h : firstRegion? test regions start = some found) :
    start ≤ found ∧
      (∃ region, regions[found]? = some region ∧ test region = true) ∧
      ∀ index region, start ≤ index → index < found →
        regions[index]? = some region → test region = false := by
  fun_induction firstRegion? test regions start with
  | case1 start hlt htest =>
      cases h
      refine ⟨Nat.le_refl _, ⟨_, List.getElem?_eq_getElem hlt, htest⟩, ?_⟩
      intro index region hle hindex
      omega
  | case2 start hlt htest ih =>
      obtain ⟨hle, hfound, hbelow⟩ := ih h
      refine ⟨by omega, hfound, ?_⟩
      intro index region hindex hbefore hregion
      rcases Nat.eq_or_lt_of_le hindex with heq | hgt
      · subst heq
        rw [List.getElem?_eq_getElem hlt, Option.some.injEq] at hregion
        rw [← hregion]
        simpa using htest
      · exact hbelow index region hgt hbefore hregion
  | case3 start hge => cases h

theorem firstRegion?_eq_none {test : Region Map → Bool} {regions : List (Region Map)}
    {start : Nat} (h : firstRegion? test regions start = none) :
    ∀ index region, start ≤ index → regions[index]? = some region →
      test region = false := by
  fun_induction firstRegion? test regions start with
  | case1 start hlt htest => cases h
  | case2 start hlt htest ih =>
      intro index region hindex hregion
      rcases Nat.eq_or_lt_of_le hindex with heq | hgt
      · subst heq
        rw [List.getElem?_eq_getElem hlt, Option.some.injEq] at hregion
        rw [← hregion]
        simpa using htest
      · exact ih h index region hgt hregion
  | case3 start hge =>
      intro index region hindex hregion
      rw [List.getElem?_eq_none (by omega)] at hregion
      cases hregion

def findNextRegion (regions : List (Region Map)) (start : Nat) : Option Nat :=
  firstRegion? (fun region => decide region.Accepted) regions start

theorem findNextRegion_lt {regions : List (Region Map)} {start found : Nat}
    (h : findNextRegion regions start = some found) :
    start ≤ found ∧ found < regions.length := by
  obtain ⟨hle, ⟨region, hregion, -⟩, -⟩ := firstRegion?_eq_some h
  exact ⟨hle, (List.getElem?_eq_some_iff.mp hregion).1⟩

def findFreeRegion (regions : List (Region Map)) (start : Nat) : Option Nat :=
  match hnext : findNextRegion regions start with
  | none => none
  | some index =>
      if (regions.get ⟨index, (findNextRegion_lt hnext).2⟩).memFull then
        -- the search goes on behind `start`, not behind the region found
        findFreeRegion regions (start + 1)
      else
        some index
termination_by regions.length - start
decreasing_by
  have := findNextRegion_lt hnext
  omega

/-- The region a search starts at is passed over when it is not accepted or is
the full region found. -/
theorem full_at_start {regions : List (Region Map)} {start index : Nat}
    (hnext : findNextRegion regions start = some index)
    (hfull : (regions.get ⟨index, (findNextRegion_lt hnext).2⟩).memFull = true)
    {region : Region Map} (hregion : regions[start]? = some region)
    (haccepted : region.Accepted) : region.memFull = true := by
  obtain ⟨hstart, -, hskip⟩ := firstRegion?_eq_some hnext
  rcases Nat.eq_or_lt_of_le hstart with heq | hlt
  · subst heq
    rw [List.getElem?_eq_getElem (findNextRegion_lt hnext).2,
      Option.some.injEq] at hregion
    rw [← hregion]
    exact hfull
  · have hnot := hskip start region (Nat.le_refl _) hlt hregion
    exact (decide_eq_false_iff_not.mp hnot haccepted).elim

theorem findFreeRegion_eq_some {regions : List (Region Map)} {start found : Nat}
    (h : findFreeRegion regions start = some found) :
    start ≤ found ∧
      (∃ region, regions[found]? = some region ∧ region.Accepted ∧
        region.memFull = false) ∧
      ∀ index region, start ≤ index → index < found →
        regions[index]? = some region → region.Accepted →
        region.memFull = true := by
  fun_induction findFreeRegion regions start with
  | case1 start hnext => cases h
  | case2 start index hnext hfull ih =>
      obtain ⟨hle, hfound, hbelow⟩ := ih h
      refine ⟨by omega, hfound, ?_⟩
      intro other region hother hbefore hregion haccepted
      rcases Nat.eq_or_lt_of_le hother with heq | hgt
      · subst heq
        exact full_at_start hnext hfull hregion haccepted
      · exact hbelow other region hgt hbefore hregion haccepted
  | case3 start index hnext hfull =>
      cases h
      obtain ⟨hstart, hfound, hskip⟩ := firstRegion?_eq_some hnext
      have hlt := (findNextRegion_lt hnext).2
      refine ⟨hstart, ⟨_, List.getElem?_eq_getElem hlt, ?_, ?_⟩, ?_⟩
      · obtain ⟨region, hregion, htest⟩ := hfound
        rw [List.getElem?_eq_getElem hlt, Option.some.injEq] at hregion
        rw [hregion]
        exact of_decide_eq_true htest
      · simpa using hfull
      · intro other region hother hbefore hregion haccepted
        have hnot := hskip other region hother hbefore hregion
        exact (decide_eq_false_iff_not.mp hnot haccepted).elim

theorem findFreeRegion_eq_none {regions : List (Region Map)} {start : Nat}
    (h : findFreeRegion regions start = none) :
    ∀ index region, start ≤ index → regions[index]? = some region →
      region.Accepted → region.memFull = true := by
  fun_induction findFreeRegion regions start with
  | case1 start hnext =>
      intro index region hindex hregion haccepted
      have hnot := firstRegion?_eq_none hnext index region hindex hregion
      exact (decide_eq_false_iff_not.mp hnot haccepted).elim
  | case2 start index hnext hfull ih =>
      intro other region hother hregion haccepted
      rcases Nat.eq_or_lt_of_le hother with heq | hgt
      · subst heq
        exact full_at_start hnext hfull hregion haccepted
      · exact ih h other region hgt hregion haccepted
  | case3 start index hnext hfull => cases h

theorem findFreeRegion_lt {regions : List (Region Map)} {start found : Nat}
    (h : findFreeRegion regions start = some found) :
    start ≤ found ∧ found < regions.length := by
  obtain ⟨hle, ⟨region, hregion, -⟩, -⟩ := findFreeRegion_eq_some h
  exact ⟨hle, (List.getElem?_eq_some_iff.mp hregion).1⟩

def findRegion (regions : List (Region Map)) (paddress : Nat) : Option Nat :=
  firstRegion? (fun region => decide (region.start ≤ paddress ∧
    paddress < wordAdd region.start region.size)) regions 0

def PageSystem.setRegion (system : PageSystem Map) (index : Nat)
    (region : Region Map) : PageSystem Map :=
  { system with regions := system.regions.set index region }

/-- The place of the chain has an accepted region. -/
def PageSystem.Accepts (system : PageSystem Map) (index : Nat) : Prop :=
  ∃ region, system.regions[index]? = some region ∧ region.Accepted

instance (system : PageSystem Map) : DecidablePred system.Accepts := fun index =>
  inferInstanceAs (Decidable (∃ region ∈ system.regions[index]?,
    region.Accepted))

end

def allocPage (system : PageSystem) : Except Fault (Nat × PageSystem) :=
  if system.outOfMem then
    .ok (0, system)
  else
    match system.nextRegion with
    | none => .error .nullDereference
    | some next =>
        match system.regions[next]? with
        | none => .error .nullDereference
        | some region =>
            if region.memFull then
              match findFreeRegion system.regions (next + 1) with
              | none =>
                  .ok (0, { system with nextRegion := none, outOfMem := true })
              | some found =>
                  -- `goto start`, where this region is not full
                  match system.regions[found]? with
                  | none => .error .nullDereference
                  | some region =>
                      match pageAlloc region with
                      | .error fault => .error fault
                      | .ok (address, region) =>
                          .ok (address, { system with
                            nextRegion := some found
                            regions := system.regions.set found region })
            else
              match pageAlloc region with
              | .error fault => .error fault
              | .ok (address, region) =>
                  .ok (address, system.setRegion next region)

/-- The loop of `alloc_pages` at region `areg`.  When the search runs off the
chain it sets the flag, which is cleared again at once. -/
def allocPagesFrom (system : PageSystem) (order areg : Nat) :
    Except Fault (Nat × PageSystem) :=
  match system.regions[areg]? with
  | none => .error .nullDereference
  | some region =>
      match pagesAlloc region order with
      | .error fault => .error fault
      | .ok (address, region) =>
          if address = 0 then
            match _hnext : findFreeRegion (system.regions.set areg region)
                (areg + 1) with
            | none => .ok (0, system.setRegion areg region)
            | some next =>
                allocPagesFrom (system.setRegion areg region) order next
          else
            .ok (address, system.setRegion areg region)
termination_by system.regions.length - areg
decreasing_by
  have hlt := findFreeRegion_lt _hnext
  rw [List.length_set] at hlt
  simp only [PageSystem.setRegion, List.length_set]
  omega

def allocPages (system : PageSystem) (order : Nat) :
    Except Fault (Nat × PageSystem) :=
  if system.outOfMem then
    .ok (0, system)
  else
    match system.nextRegion with
    | none => .error .nullDereference
    | some areg => allocPagesFrom system order areg

def freePages (system : PageSystem) (order pages : Nat) :
    Except Fault PageSystem :=
  match findRegion system.regions pages with
  | none => .ok system
  | some index =>
      match system.regions[index]? with
      | none => .error .nullDereference
      | some region =>
          match pagesFree region pages order with
          | .error fault => .error fault
          | .ok after =>
              let system := system.setRegion index after
              match system.nextRegion with
              | none => .error .nullDereference
              | some next =>
                  match system.regions[next]? with
                  | none => .error .nullDereference
                  | some cursor =>
                      .ok { system with
                        nextRegion :=
                          if after.start < cursor.start then some index
                          else some next
                        outOfMem := false }

def freePage (system : PageSystem) (page : Nat) : Except Fault PageSystem :=
  freePages system 0 page

end Synos.Page

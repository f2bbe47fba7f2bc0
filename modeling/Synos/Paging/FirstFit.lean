import Synos.Paging.Vpage
import Mathlib.Data.Nat.Find

namespace Synos.Paging

open Synos.Data

/-! Which pages `vpage_map` and `vpages_map` choose, and where they leave
`next_free_vpage`, as long as the search does not run past the last page. -/

/-- The cursor names the lowest page at or above `bound` that is not present. -/
structure LowestFree (pages : Nat → Option Nat) (bound cursor : Nat) :
    Prop where
  aligned : virtPageSize ∣ cursor
  lt : cursor < wordSize
  le : bound ≤ cursor
  free : pages (pageOf cursor) = none
  below : ∀ address, bound ≤ address → address < cursor →
    virtPageSize ∣ address → pages (pageOf address) ≠ none

/-- No page is present from `limit` on, and `count` pages behind it still lie in
the address space. -/
structure Roomy (space : VirtualSpace) (limit count : Nat) : Prop where
  free : ∀ page, limit ≤ page → space.pages page = none
  cursor : pageOf space.nextFreeVpage ≤ limit
  room : limit + count < vpageCount

/-- The `count` pages from `start` on are not present. -/
def FreeFrom (pages : Nat → Option Nat) (start count : Nat) : Prop :=
  ∀ i < count, pages (pageOf (start + virtPageSize * i)) = none

/-- The call takes the lowest free run at or above the cursor, makes exactly its
pages present, and leaves the cursor on the lowest free page. -/
structure TakesLowest (space next : VirtualSpace)
    (bound paddress count start : Nat) : Prop where
  aligned : virtPageSize ∣ start
  ge : space.nextFreeVpage ≤ start
  free : FreeFrom space.pages start count
  lowest : ∀ other, space.nextFreeVpage ≤ other → other < start →
    virtPageSize ∣ other → ¬ FreeFrom space.pages other count
  mapped : ∀ i < count, next.pages (pageOf (start + virtPageSize * i)) =
    some (pageOf (paddress + virtPageSize * i))
  kept : ∀ page, ¬ CoversPage start count page →
    next.pages page = space.pages page
  cursor : LowestFree next.pages bound next.nextFreeVpage

/-! Pages by number. -/

theorem pageOf_mul {page : Nat} (hlt : page < vpageCount) :
    pageOf (virtPageSize * page) = page := by
  simp only [pageOf, word, wordSize, virtPageSize, vpageCount] at *
  omega

theorem exists_least {holds : Nat → Prop} {bound : Nat} (h : holds bound) :
    ∃ least ≤ bound, holds least ∧ ∀ other < least, ¬ holds other := by
  classical
  have hexists : ∃ value, holds value := ⟨bound, h⟩
  exact ⟨Nat.find hexists, Nat.find_min' hexists h, Nat.find_spec hexists,
    fun other hother => Nat.find_min hexists hother⟩

section

variable {pages : Nat → Option Nat}

theorem fnfpFrom_eq {page steps fuel : Nat} (hlt : page + steps < vpageCount)
    (hfuel : steps < fuel) (hfree : pages (page + steps) = none)
    (hbefore : ∀ k < steps, pages (page + k) ≠ none) :
    fnfpFrom pages (virtPageSize * page) fuel =
      .ok (virtPageSize * (page + steps)) := by
  induction steps generalizing page fuel with
  | zero =>
      obtain ⟨fuel, rfl⟩ := Nat.exists_eq_succ_of_ne_zero
        (Nat.ne_of_gt hfuel)
      rw [Nat.add_zero] at hfree ⊢
      rw [fnfpFrom, pageOf_mul (by omega), if_pos hfree]
  | succ steps ih =>
      obtain ⟨fuel, rfl⟩ := Nat.exists_eq_succ_of_ne_zero
        (Nat.ne_of_gt (Nat.lt_of_le_of_lt (Nat.zero_le _) hfuel))
      have hfirst : pages page ≠ none := hbefore 0 (Nat.succ_pos steps)
      have hnext : wordAdd (virtPageSize * page) virtPageSize =
          virtPageSize * (page + 1) := by
        simp only [wordAdd, word, wordSize, virtPageSize, vpageCount] at *
        omega
      have hshift : ∀ k, page + (k + 1) = page + 1 + k := by
        intro k
        omega
      rw [fnfpFrom, pageOf_mul (by omega), if_neg hfirst, hnext, hshift steps]
      rw [hshift steps] at hlt hfree
      apply ih hlt (by omega) hfree
      intro k hk
      rw [← hshift]
      exact hbefore (k + 1) (by omega)

theorem fnfp_eq {page steps : Nat} (hlt : page + steps < vpageCount)
    (hfree : pages (page + steps) = none)
    (hbefore : ∀ k < steps, pages (page + k) ≠ none) :
    fnfp pages (virtPageSize * page) = .ok (virtPageSize * (page + steps)) :=
  fnfpFrom_eq hlt (by omega) hfree hbefore

theorem freeFrom_iff {page count : Nat} (hroom : page + count ≤ vpageCount) :
    FreeFrom pages (virtPageSize * page) count ↔
      ∀ i < count, pages (page + i) = none := by
  have hpage : ∀ i < count,
      pageOf (virtPageSize * page + virtPageSize * i) = page + i := by
    intro i hi
    rw [← Nat.mul_add, pageOf_mul (by omega)]
  constructor
  · intro h i hi
    have hi' := h i hi
    rwa [hpage i hi] at hi'
  · intro h i hi
    rw [hpage i hi]
    exact h i hi

theorem findRun_eq {order page steps fuel : Nat}
    (hroom : page + steps + 2 ^ order < vpageCount) (hfuel : steps < fuel)
    (hfree : FreeFrom pages (virtPageSize * (page + steps)) (2 ^ order))
    (hbefore : ∀ k < steps,
      ¬ FreeFrom pages (virtPageSize * (page + k)) (2 ^ order)) :
    findRun pages order (virtPageSize * page) fuel =
      .ok (some (virtPageSize * (page + steps))) := by
  have hpos := Nat.two_pow_pos order
  induction steps generalizing page fuel with
  | zero =>
      obtain ⟨fuel, rfl⟩ := Nat.exists_eq_succ_of_ne_zero
        (Nat.ne_of_gt hfuel)
      have hstart : virtPageSize * page < wordSize - 1 := by
        simp only [wordSize, virtPageSize, vpageCount] at *
        omega
      have hrun : runFree pages (virtPageSize * page) (2 ^ order) = true := by
        rw [runFree_iff]
        exact hfree
      rw [findRun, if_pos hstart, if_pos hrun, if_neg (by omega), Nat.add_zero]
  | succ steps ih =>
      obtain ⟨fuel, rfl⟩ := Nat.exists_eq_succ_of_ne_zero
        (Nat.ne_of_gt (Nat.lt_of_le_of_lt (Nat.zero_le _) hfuel))
      have hstart : virtPageSize * page < wordSize - 1 := by
        simp only [wordSize, virtPageSize, vpageCount] at *
        omega
      have hrun : ¬ runFree pages (virtPageSize * page) (2 ^ order) = true := by
        rw [runFree_iff]
        exact hbefore 0 (Nat.succ_pos steps)
      have hnext : wordAdd (virtPageSize * page) virtPageSize =
          virtPageSize * (page + 1) := by
        simp only [wordAdd, word, wordSize, virtPageSize, vpageCount] at *
        omega
      have hshift : ∀ k, page + (k + 1) = page + 1 + k := by
        intro k
        omega
      rw [findRun, if_pos hstart, if_neg hrun, hnext, hshift steps]
      rw [hshift steps] at hfree hroom
      apply ih hroom (by omega) hfree
      intro k hk
      rw [← hshift]
      exact hbefore (k + 1) (by omega)

/-! What the calls map. -/

theorem coversPage_iff {page count other : Nat}
    (hroom : page + count ≤ vpageCount) :
    CoversPage (virtPageSize * page) count other ↔
      page ≤ other ∧ other < page + count := by
  constructor
  · intro h
    obtain ⟨i, hi, hpage⟩ := h
    rw [← Nat.mul_add, pageOf_mul (by omega)] at hpage
    omega
  · intro h
    refine ⟨other - page, by omega, ?_⟩
    rw [← Nat.mul_add, pageOf_mul (by omega)]
    omega

theorem mapPages_covered {page count i : Nat} (paddress : Nat)
    (hroom : page + count ≤ vpageCount) (hi : i < count) :
    mapPages pages (virtPageSize * page) paddress count (page + i) =
      some (pageOf (paddress + virtPageSize * i)) := by
  induction count with
  | zero => omega
  | succ count ih =>
      rw [mapPages, ← Nat.mul_add, pageOf_mul (by omega)]
      cases Nat.eq_or_lt_of_le (Nat.le_of_lt_succ hi) with
      | inl heq => rw [heq, Function.update_self]
      | inr hlt =>
          rw [Function.update_of_ne (by omega)]
          exact ih (by omega) hlt

end

section

variable {space : VirtualSpace} {bound cursor limit count : Nat}

theorem LowestFree.exists_page {pages : Nat → Option Nat}
    (hcursor : LowestFree pages bound cursor) :
    ∃ page < vpageCount, cursor = virtPageSize * page := by
  obtain ⟨page, hpage⟩ := hcursor.aligned
  have hlt := hcursor.lt
  refine ⟨page, ?_, hpage⟩
  simp only [hpage, wordSize, virtPageSize, vpageCount] at *
  omega

theorem LowestFree.below_mapped {page first : Nat}
    (hcursor : LowestFree space.pages bound space.nextFreeVpage)
    (hpage : space.nextFreeVpage = virtPageSize * page) (hle : page ≤ first)
    (hroom : first + count ≤ vpageCount) (paddress : Nat) {address : Nat}
    (hbound : bound ≤ address) (hlt : address < virtPageSize * page)
    (haligned : virtPageSize ∣ address) :
    mapPages space.pages (virtPageSize * first) paddress count
      (pageOf address) ≠ none := by
  obtain ⟨other, rfl⟩ := haligned
  have hother : other < page := Nat.lt_of_mul_lt_mul_left hlt
  rw [mapPages_of_not_covers]
  · exact hcursor.below _ hbound (hpage ▸ hlt) (Nat.dvd_mul_right _ _)
  · rw [coversPage_iff hroom, pageOf_mul (by omega)]
    omega

/-- After the block at the cursor is mapped, `fnfp` finds the lowest free page
from anywhere in the block. -/
theorem fnfp_mapped {page start : Nat}
    (hcursor : LowestFree space.pages bound space.nextFreeVpage)
    (hpage : space.nextFreeVpage = virtPageSize * page)
    (hroomy : Roomy space limit count) (hge : page ≤ start)
    (hle : start ≤ page + count) (paddress : Nat) :
    ∃ next,
      fnfp (mapPages space.pages (virtPageSize * page) paddress count)
          (virtPageSize * start) = .ok next ∧
        LowestFree
          (mapPages space.pages (virtPageSize * page) paddress count) bound
          next := by
  obtain ⟨hfree, hcursorLe, hroom⟩ := hroomy
  rw [hpage] at hcursorLe
  have hlt : page < vpageCount := by
    obtain ⟨other, hother, hsame⟩ := hcursor.exists_page
    rw [hpage] at hsame
    rwa [Nat.eq_of_mul_eq_mul_left (by decide) hsame]
  rw [pageOf_mul hlt] at hcursorLe
  have hcovers : ∀ other, CoversPage (virtPageSize * page) count other ↔
      page ≤ other ∧ other < page + count :=
    fun _ => coversPage_iff (by omega)
  have hlast : mapPages space.pages (virtPageSize * page) paddress count
      (start + (limit + count - start)) = none := by
    rw [mapPages_of_not_covers]
    · exact hfree _ (by omega)
    · rw [hcovers]
      omega
  obtain ⟨steps, hsteps, hnone, hbefore⟩ :=
    @exists_least (fun steps => mapPages space.pages (virtPageSize * page)
      paddress count (start + steps) = none) _ hlast
  refine ⟨_, fnfp_eq (by omega) hnone hbefore, Nat.dvd_mul_right _ _, ?_, ?_,
    ?_, ?_⟩
  · simp only [wordSize, virtPageSize, vpageCount] at *
    omega
  · have hbound := hcursor.le
    rw [hpage] at hbound
    exact Nat.le_trans hbound (Nat.mul_le_mul_left _ (by omega))
  · rw [pageOf_mul (by omega)]
    exact hnone
  · intro address hbound haddress haligned
    by_cases hbelow : address < virtPageSize * page
    · exact hcursor.below_mapped hpage (Nat.le_refl page) (by omega) paddress
        hbound hbelow haligned
    · obtain ⟨other, rfl⟩ := haligned
      have hother : other < start + steps := Nat.lt_of_mul_lt_mul_left haddress
      have hpageLe : page ≤ other :=
        Nat.le_of_mul_le_mul_left (Nat.le_of_not_lt hbelow) (by decide)
      rw [pageOf_mul (by omega)]
      by_cases hblock : other < page + count
      · have hmapped := @mapPages_covered space.pages page count (other - page)
          paddress (by omega) (by omega)
        rw [Nat.add_sub_cancel' hpageLe] at hmapped
        rw [hmapped]
        exact Option.some_ne_none _
      · have h := hbefore (other - start) (by omega)
        rwa [Nat.add_sub_cancel' (by omega)] at h

/-- The lowest free run, and what mapping it does to the pages. -/
theorem takesLowest_of_cursor {page steps : Nat}
    (hpage : space.nextFreeVpage = virtPageSize * page)
    (hroom : page + steps + count ≤ vpageCount)
    (hrun : FreeFrom space.pages (virtPageSize * (page + steps)) count)
    (hbefore : ∀ k < steps,
      ¬ FreeFrom space.pages (virtPageSize * (page + k)) count)
    (paddress : Nat) {next : Nat}
    (hcursor : LowestFree
      (mapPages space.pages (virtPageSize * (page + steps)) paddress count)
      bound next) :
    TakesLowest space
      ⟨mapPages space.pages (virtPageSize * (page + steps)) paddress count,
        next⟩ bound paddress count (virtPageSize * (page + steps)) where
  aligned := Nat.dvd_mul_right _ _
  ge := hpage ▸ Nat.mul_le_mul_left _ (Nat.le_add_right _ _)
  free := hrun
  lowest := by
    intro other hge hlt haligned
    obtain ⟨first, rfl⟩ := haligned
    rw [hpage] at hge
    have hfirst : page ≤ first := Nat.le_of_mul_le_mul_left hge (by decide)
    have hbelow : first < page + steps := Nat.lt_of_mul_lt_mul_left hlt
    have h := hbefore (first - page) (by omega)
    rwa [Nat.add_sub_cancel' hfirst] at h
  mapped := by
    intro i hi
    rw [← Nat.mul_add, pageOf_mul (by omega)]
    exact mapPages_covered paddress (by omega) hi
  kept := fun _ h => mapPages_of_not_covers h
  cursor := hcursor

end

/-- `vpages_map` takes the lowest free run and leaves the cursor right. -/
def MapsLowest (space : VirtualSpace) (bound paddress order : Nat) : Prop :=
  ∃ start next, vpagesMap space paddress order = .ok (some start, next) ∧
    TakesLowest space next bound paddress (2 ^ order) start

section

variable {space : VirtualSpace} {bound limit order : Nat}

theorem exists_first_run {page : Nat} (hlt : page < vpageCount)
    (hpage : space.nextFreeVpage = virtPageSize * page)
    (hroomy : Roomy space limit (2 ^ order)) :
    ∃ steps, page + steps ≤ limit ∧
      FreeFrom space.pages (virtPageSize * (page + steps)) (2 ^ order) ∧
      ∀ k < steps,
        ¬ FreeFrom space.pages (virtPageSize * (page + k)) (2 ^ order) := by
  obtain ⟨hfree, hcursor, hroom⟩ := hroomy
  rw [hpage, pageOf_mul hlt] at hcursor
  have hlast : FreeFrom space.pages (virtPageSize * (page + (limit - page)))
      (2 ^ order) := by
    rw [freeFrom_iff (by omega)]
    exact fun i _ => hfree _ (by omega)
  obtain ⟨steps, hle, hrun, hbefore⟩ :=
    @exists_least (fun steps => FreeFrom space.pages
      (virtPageSize * (page + steps)) (2 ^ order)) _ hlast
  exact ⟨steps, by omega, hrun, hbefore⟩

theorem vpagesMap_eq {page steps : Nat}
    (hpage : space.nextFreeVpage = virtPageSize * page)
    (hroom : page + steps + 2 ^ order < vpageCount)
    (hrun : FreeFrom space.pages (virtPageSize * (page + steps)) (2 ^ order))
    (hbefore : ∀ k < steps,
      ¬ FreeFrom space.pages (virtPageSize * (page + k)) (2 ^ order))
    (paddress : Nat) :
    vpagesMap space paddress order =
      let start := virtPageSize * (page + steps)
      let pages := mapPages space.pages start paddress (2 ^ order)
      if steps = 0 then
        match blockOrderSize order with
        | .error fault => .error fault
        | .ok size =>
            match fnfp pages (wordAdd start size) with
            | .error fault => .error fault
            | .ok next => .ok (some start, ⟨pages, next⟩)
      else
        .ok (some start, ⟨pages, space.nextFreeVpage⟩) := by
  have hpos := Nat.two_pow_pos order
  have hstart : virtPageSize * (page + steps) = virtPageSize * page ↔
      steps = 0 := by
    simp only [virtPageSize]
    omega
  rw [vpagesMap, hpage, findRun_eq hroom (by omega) hrun hbefore]
  simp only [hstart]
  split
  · rename_i hzero
    subst hzero
    rfl
  · rfl

/-- The size of the block is needed only for a block at the cursor. -/
theorem mapsLowest_iff
    (hcursor : LowestFree space.pages bound space.nextFreeVpage)
    (hroomy : Roomy space limit (2 ^ order)) (paddress : Nat) :
    MapsLowest space bound paddress order ↔
      order < 31 ∨
        ¬ FreeFrom space.pages space.nextFreeVpage (2 ^ order) := by
  obtain ⟨page, hlt, hpage⟩ := hcursor.exists_page
  have hpos := Nat.two_pow_pos order
  have hroom := hroomy.room
  have hle := hroomy.cursor
  rw [hpage, pageOf_mul hlt] at hle
  obtain ⟨steps, hsteps, hrun, hbefore⟩ := exists_first_run hlt hpage hroomy
  have hcall := vpagesMap_eq hpage (by omega) hrun hbefore paddress
  simp only at hcall
  by_cases hzero : steps = 0
  · subst hzero
    have hfree : FreeFrom space.pages space.nextFreeVpage (2 ^ order) := by
      rw [hpage]
      exact hrun
    rw [if_pos rfl] at hcall
    by_cases horder : order < 31
    · have hsize : wordAdd (virtPageSize * page) (virtPageSize * 2 ^ order) =
          virtPageSize * (page + 2 ^ order) := by
        rw [wordAdd, ← Nat.mul_add]
        apply word_of_lt
        simp only [wordSize, virtPageSize, vpageCount] at *
        omega
      obtain ⟨next, hnext, hlowest⟩ := fnfp_mapped hcursor hpage hroomy
        (Nat.le_add_right page _) (Nat.le_refl _) paddress
      rw [blockOrderSize, if_pos horder] at hcall
      simp only [Nat.add_zero, hsize, hnext] at hcall
      refine iff_of_true ⟨_, _, hcall, ?_⟩ (.inl horder)
      exact takesLowest_of_cursor hpage (by omega) hrun hbefore paddress hlowest
    · rw [blockOrderSize, if_neg horder] at hcall
      refine iff_of_false ?_ ?_
      · rintro ⟨start, next, hstart, -⟩
        rw [hcall] at hstart
        cases hstart
      · rintro (h | h)
        · exact horder h
        · exact h hfree
  · have hbusy : ¬ FreeFrom space.pages space.nextFreeVpage (2 ^ order) := by
      rw [hpage]
      exact hbefore 0 (by omega)
    rw [if_neg hzero] at hcall
    refine iff_of_true ⟨_, _, hcall, ?_⟩ (.inr hbusy)
    apply takesLowest_of_cursor hpage (by omega) hrun hbefore paddress
    have hcovers := @coversPage_iff (page + steps) (2 ^ order) page (by omega)
    refine ⟨hcursor.aligned, hcursor.lt, hcursor.le, ?_, ?_⟩
    · rw [mapPages_of_not_covers]
      · exact hcursor.free
      · rw [hpage, pageOf_mul hlt, hcovers]
        omega
    · intro address hbound hbelow haligned
      rw [hpage] at hbelow
      exact hcursor.below_mapped hpage (Nat.le_add_right _ _) (by omega)
        paddress hbound hbelow haligned

theorem vpageMap_lowest
    (hcursor : LowestFree space.pages bound space.nextFreeVpage)
    (hroomy : Roomy space limit 1) (paddress : Nat) :
    ∃ next, vpageMap space paddress = .ok (space.nextFreeVpage, next) ∧
      TakesLowest space next bound paddress 1 space.nextFreeVpage := by
  obtain ⟨page, hlt, hpage⟩ := hcursor.exists_page
  obtain ⟨next, hnext, hlowest⟩ := fnfp_mapped hcursor hpage hroomy
    (Nat.le_refl page) (Nat.le_add_right page 1) paddress
  have hroom := hroomy.room
  have hle := hroomy.cursor
  rw [hpage, pageOf_mul hlt] at hle
  have hrun : FreeFrom space.pages (virtPageSize * (page + 0)) 1 := by
    rw [freeFrom_iff (by omega)]
    intro i hi
    have hfree := hcursor.free
    rw [hpage, pageOf_mul hlt] at hfree
    rwa [Nat.lt_one_iff.mp hi]
  have htakes := takesLowest_of_cursor hpage (by omega) hrun
    (fun k hk => absurd hk (Nat.not_lt_zero k)) paddress hlowest
  refine ⟨_, ?_, hpage ▸ htakes⟩
  rw [vpageMap, hpage, Nat.pow_zero]
  simp only [hnext]

end

/-- Below the last pages of the address space, `vpages_map` is an exact first
fit exactly when `BLOCK_ORDER_SIZE` does not overflow or is not needed, and
`vpage_map` always is. -/
theorem vpagesMap_lowest_iff {space : VirtualSpace}
    {bound limit order : Nat}
    (hcursor : LowestFree space.pages bound space.nextFreeVpage)
    (hroomy : Roomy space limit (2 ^ order)) (paddress : Nat) :
    (MapsLowest space bound paddress order ↔
        order < 31 ∨
          ¬ FreeFrom space.pages space.nextFreeVpage (2 ^ order)) ∧
      ∃ next, vpageMap space paddress = .ok (space.nextFreeVpage, next) ∧
        TakesLowest space next bound paddress 1 space.nextFreeVpage := by
  have hpos := Nat.two_pow_pos order
  have hroom := hroomy.room
  exact ⟨mapsLowest_iff hcursor hroomy paddress,
    vpageMap_lowest hcursor ⟨hroomy.free, hroomy.cursor, by omega⟩ paddress⟩

theorem bootPages_lowestFree : LowestFree bootPages 0x100000 0x200000 where
  aligned := by decide
  lt := by decide
  le := by decide
  free := by decide
  below := by
    intro address _ hlt _
    have hpage : pageOf address < 512 := by
      simp only [pageOf, word, wordSize, virtPageSize]
      omega
    rw [bootPages, if_pos hpage]
    exact Option.some_ne_none _

theorem bootPages_roomy {count : Nat} (hcount : 512 + count < vpageCount) :
    Roomy ⟨bootPages, 0x200000⟩ 512 count where
  free := by
    intro page hpage
    exact if_neg (by omega)
  cursor := by decide
  room := hcount

theorem vpagesMap_lowest_boot :
    (MapsLowest ⟨bootPages, 0x200000⟩ 0x100000 0x5000 3 ↔
        3 < 31 ∨ ¬ FreeFrom bootPages 0x200000 (2 ^ 3)) ∧
      ∃ next, vpageMap ⟨bootPages, 0x200000⟩ 0x5000 = .ok (0x200000, next) ∧
        TakesLowest ⟨bootPages, 0x200000⟩ next 0x100000 0x5000 1 0x200000 :=
  vpagesMap_lowest_iff bootPages_lowestFree (bootPages_roomy (by decide))
    0x5000

/-- With `order` 31 the size of the block is `page_size * (1 << 31)`. -/
theorem vpagesMap_overflows :
    LowestFree bootPages 0x100000 0x200000 ∧
      Roomy ⟨bootPages, 0x200000⟩ 512 (2 ^ 31) ∧
      vpagesMap ⟨bootPages, 0x200000⟩ 0 31 = .error .intOverflow := by
  have hfree : FreeFrom bootPages (virtPageSize * (512 + 0)) (2 ^ 31) := by
    rw [freeFrom_iff (by decide)]
    exact fun i _ => if_neg (by omega)
  refine ⟨bootPages_lowestFree, bootPages_roomy (by decide), ?_⟩
  exact @vpagesMap_eq ⟨bootPages, 0x200000⟩ 31 512 0 rfl (by decide) hfree
    (fun k hk => absurd hk (Nat.not_lt_zero k)) 0

end Synos.Paging

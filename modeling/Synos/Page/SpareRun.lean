import Synos.Page.Spare

namespace Synos.Page

open Synos.Data

/-! Each call keeps the account of what is free and what is lent, and so does
every careful run from the chain that `ppage_init` leaves. -/

theorem setRegion_self {system : PageSystem} {index : Nat} {region : Region}
    (hregion : system.regions[index]? = some region) :
    system.setRegion index region = system := by
  obtain ⟨hlt, hregion⟩ := List.getElem?_eq_some_iff.mp hregion
  rw [PageSystem.setRegion, ← hregion, List.set_getElem_self]

theorem findFreeRegion_eq {regions : List Region} {start found : Nat}
    {region : Region} (hle : start ≤ found)
    (hregion : regions[found]? = some region) (haccepted : region.Accepted)
    (hnotFull : region.memFull = false)
    (hfull : ∀ (index : Nat) (other : Region), start ≤ index →
      index < found → regions[index]? = some other → other.Accepted →
      other.memFull = true) :
    findFreeRegion regions start = some found := by
  cases hfind : findFreeRegion regions start with
  | none =>
      have hmark := findFreeRegion_eq_none hfind found region hle hregion
        haccepted
      rw [hnotFull] at hmark
      cases hmark
  | some index =>
      obtain ⟨hstart, ⟨other, hother, hotherAccepted, hotherNot⟩, hbelow⟩ :=
        findFreeRegion_eq_some hfind
      rcases Nat.lt_trichotomy index found with hlt | heq | hgt
      · have hmark := hfull index other hstart hlt hother hotherAccepted
        rw [hotherNot] at hmark
        cases hmark
      · rw [heq]
      · have hmark := hbelow found region hle hgt hregion haccepted
        rw [hnotFull] at hmark
        cases hmark

theorem findFreeRegion_self {regions : List Region} {start : Nat}
    {region : Region} (hregion : regions[start]? = some region)
    (haccepted : region.Accepted) (hnotFull : region.memFull = false) :
    findFreeRegion regions start = some start :=
  findFreeRegion_eq (Nat.le_refl _) hregion haccepted hnotFull
    (fun _ _ hstart hindex => absurd hstart (Nat.not_le_of_lt hindex))

theorem findFreeRegion_of_full {regions : List Region} {start found : Nat}
    {region : Region} (hregion : regions[start]? = some region)
    (hfull : region.memFull = true)
    (hfound : findFreeRegion regions (start + 1) = some found) :
    findFreeRegion regions start = some found := by
  obtain ⟨hle, ⟨other, hother, haccepted, hnotFull⟩, hbelow⟩ :=
    findFreeRegion_eq_some hfound
  refine findFreeRegion_eq (Nat.le_of_succ_le hle) hother haccepted hnotFull ?_
  intro index before hstart hindex hbefore hbeforeAccepted
  rcases Nat.eq_or_lt_of_le hstart with rfl | hgt
  · rw [Option.some.inj (hbefore.symm.trans hregion)]
    exact hfull
  · exact hbelow index before hgt hindex hbefore hbeforeAccepted

section

variable {system : PageSystem} {regions : List Region} {index : Nat}
  {region after : Region} {next : Option Nat} {mark : Bool}

theorem PageSystem.Pointed.set
    (hpointed : PageSystem.Pointed ⟨regions, next, mark⟩)
    (hregion : regions[index]? = some region)
    (haccepted : after.Accepted ↔ region.Accepted)
    (hfull : region.memFull = true → after.memFull = true) :
    PageSystem.Pointed ⟨regions.set index after, next, mark⟩ := by
  have hlt := (List.getElem?_eq_some_iff.mp hregion).1
  constructor
  · intro place hplace
    obtain ⟨other, hother, hotherAccepted⟩ := hpointed.accepted place hplace
    by_cases hsame : place = index
    · subst hsame
      obtain rfl := Option.some.inj (hregion.symm.trans hother)
      exact ⟨after, List.getElem?_set_self hlt, haccepted.mpr hotherAccepted⟩
    · refine ⟨other, ?_, hotherAccepted⟩
      rw [List.getElem?_set_ne (Ne.symm hsame)]
      exact hother
  · intro place hplace other now hbefore hnow hotherAccepted
    rcases getElem?_set_cases hnow with ⟨rfl, rfl⟩ | ⟨-, hnow⟩
    · exact hfull (hpointed.before place hplace other region hbefore hregion
        (haccepted.mp hotherAccepted))
    · exact hpointed.before place hplace other now hbefore hnow hotherAccepted
  · exact hpointed.null
  · intro hmark place now hnow hotherAccepted
    rcases getElem?_set_cases hnow with ⟨rfl, rfl⟩ | ⟨-, hnow⟩
    · exact hfull (hpointed.exhausted hmark place region hregion
        (haccepted.mp hotherAccepted))
    · exact hpointed.exhausted hmark place now hnow hotherAccepted

theorem PageSystem.Pointed.afterAlloc
    (hpointed : PageSystem.Pointed ⟨regions, next, mark⟩)
    (hregion : regions[index]? = some region) (order : Nat) (map : BpaMap) :
    PageSystem.Pointed
      ⟨regions.set index (region.afterAlloc order map), next, mark⟩ := by
  refine hpointed.set hregion Iff.rfl ?_
  intro hfull
  simp [Region.afterAlloc, hfull]

theorem allocPagesFrom_cases
    (hexact : ∀ (index : Nat) (region : Region),
      system.regions[index]? = some region → region.Accepted → region.Exact)
    {order areg : Nat}
    (hareg : ∃ region, system.regions[areg]? = some region ∧ region.Accepted)
    (hserves : maxOrder ≤ order ∨
      ∀ index ∈ findFreeRegion system.regions areg,
        ∀ region ∈ system.regions[index]?,
          ∃ top < maxOrder, order ≤ top ∧ 0 < region.map.pagesFree top) :
    allocPagesFrom system order areg = .ok (0, system) ∨
      ∃ index region block map, system.regions[index]? = some region ∧
        region.Accepted ∧ order < maxOrder ∧
        Takes region order block map ∧
        allocPagesFrom system order areg =
          .ok (region.address block,
            system.setRegion index (region.afterAlloc order map)) := by
  induction hleft : system.regions.length - areg using Nat.strong_induction_on
    generalizing areg with
  | _ left ih =>
  obtain ⟨region, hregion, haccepted⟩ := hareg
  have hregionExact := hexact areg region hregion haccepted
  by_cases hpass : maxOrder ≤ order ∨ region.memFull = true
  · have hcall : pagesAlloc region order = .ok (0, region) := by
      rcases hpass with horder | hfull
      · rw [pagesAlloc, if_pos horder]
      · exact hregionExact.alloc_full hfull order
    have hself := setRegion_self hregion
    have hset : system.regions.set areg region = system.regions :=
      congrArg PageSystem.regions hself
    rw [allocPagesFrom]
    simp only [hregion, hcall, if_true, hself]
    split
    · exact .inl rfl
    · rename_i next hnext
      rw [hset] at hnext
      obtain ⟨hle, ⟨other, hother, hotherAccepted, hotherNot⟩, -⟩ :=
        findFreeRegion_eq_some hnext
      have hlt := (List.getElem?_eq_some_iff.mp hother).1
      refine ih (system.regions.length - next) (by omega)
        ⟨other, hother, hotherAccepted⟩ ?_ rfl
      rcases hserves with horder | hserves
      · exact .inl horder
      rcases hpass with horder | hfull
      · exact .inl horder
      right
      rw [findFreeRegion_of_full hregion hfull hnext] at hserves
      rw [findFreeRegion_self hother hotherAccepted hotherNot]
      exact hserves
  · obtain ⟨horder, hfull⟩ := not_or.mp hpass
    have hnotFull : region.memFull = false := by simpa using hfull
    have hfirst := findFreeRegion_self hregion haccepted hnotFull
    obtain ⟨block, map, htakes⟩ := hregionExact.takes (Nat.lt_of_not_le horder)
      (hserves.resolve_left horder areg hfirst region hregion)
    have hne := hregionExact.address_ne_zero htakes.was_free
    refine .inr ⟨areg, region, block, map, hregion, haccepted,
      Nat.lt_of_not_le horder, htakes, ?_⟩
    rw [allocPagesFrom]
    simp only [hregion, htakes.call, if_neg hne]

end

section

variable {system : PageSystem} {next : Nat} {region : Region}

theorem PageSystem.Pointed.upTo (hpointed : system.Pointed)
    (hnext : system.nextRegion = some next)
    (hregion : system.regions[next]? = some region)
    (hfull : region.memFull = true) {index : Nat} {other : Region}
    (hle : index ≤ next) (hother : system.regions[index]? = some other)
    (haccepted : other.Accepted) : other.memFull = true := by
  rcases Nat.eq_or_lt_of_le hle with heq | hlt
  · subst heq
    rw [Option.some.inj (hother.symm.trans hregion)]
    exact hfull
  · exact hpointed.before next hnext index other hlt hother haccepted

theorem PageSystem.Pointed.all_full (hpointed : system.Pointed)
    (hnext : system.nextRegion = some next)
    (hregion : system.regions[next]? = some region)
    (hfull : region.memFull = true)
    (hfind : findFreeRegion system.regions (next + 1) = none) (index : Nat)
    (other : Region) (hother : system.regions[index]? = some other)
    (haccepted : other.Accepted) : other.memFull = true := by
  by_cases hle : index ≤ next
  · exact hpointed.upTo hnext hregion hfull hle hother haccepted
  · exact findFreeRegion_eq_none hfind index other (by omega) hother haccepted

theorem PageSystem.Pointed.advanced (hpointed : system.Pointed)
    (hnext : system.nextRegion = some next)
    (hregion : system.regions[next]? = some region)
    (hfull : region.memFull = true) {found : Nat}
    (hfind : findFreeRegion system.regions (next + 1) = some found) :
    PageSystem.Pointed ⟨system.regions, some found, system.outOfMem⟩ := by
  obtain ⟨hle, ⟨other, hother, haccepted, -⟩, hbelow⟩ :=
    findFreeRegion_eq_some hfind
  refine ⟨?_, ?_, by simp, hpointed.exhausted⟩
  · intro place hplace
    cases hplace
    exact ⟨other, hother, haccepted⟩
  · intro place hplace index before hlt hbefore hbeforeAccepted
    cases hplace
    by_cases hindex : index ≤ next
    · exact hpointed.upTo hnext hregion hfull hindex hbefore hbeforeAccepted
    · exact hbelow index before (by omega) hlt hbefore hbeforeAccepted

end

section

variable {initial : PageSystem} {session : SystemSession}

theorem SystemSession.Keeps.repoint (hkeeps : session.Keeps initial)
    {next : Option Nat} {mark : Bool}
    (hpointed : PageSystem.Pointed ⟨session.system.regions, next, mark⟩) :
    SystemSession.Keeps initial
      ⟨⟨session.system.regions, next, mark⟩, session.live⟩ where
  length_eq := hkeeps.length_eq
  follows := hkeeps.follows
  lends := fun grant hlive => by
    obtain ⟨index, first, region, block, hon⟩ := hkeeps.lends grant hlive
    exact ⟨index, first, region, block, hon.first_eq, hon.region_eq,
      hon.accepted, hon.held, hon.grant_eq, hon.was_free⟩
  disjoint := hkeeps.disjoint
  accounts := hkeeps.accounts
  pointed := hpointed

theorem SystemSession.Keeps.allocAt (hready : initial.Ready)
    (hkeeps : session.Keeps initial) {index : Nat} {region : Region}
    (hregion : session.system.regions[index]? = some region)
    (haccepted : region.Accepted) (hnotFull : region.memFull = false)
    {mark : Bool}
    (hpointed : PageSystem.Pointed
      ⟨session.system.regions, some index, mark⟩) :
    ∃ address after, pageAlloc region = .ok (address, after) ∧ address ≠ 0 ∧
      SystemSession.Keeps initial
        ⟨⟨session.system.regions.set index after, some index, mark⟩,
          ⟨address, 0⟩ :: session.live⟩ := by
  have hexact := hkeeps.exact hregion haccepted
  obtain ⟨block, map, htakes⟩ := hexact.takes (by decide)
    (hexact.has_block hnotFull)
  exact ⟨_, _, htakes.call, hexact.address_ne_zero htakes.was_free,
    hkeeps.take hready hregion haccepted (by decide) htakes
      (hpointed.afterAlloc hregion 0 map)⟩

theorem SystemSession.Keeps.allocPage (hready : initial.Ready)
    (hkeeps : session.Keeps initial) :
    ∃ address system, Page.allocPage session.system = .ok (address, system) ∧
      (address = 0 → ¬ session.Spare initial) ∧
      SystemSession.Keeps initial
        (SystemSession.lend system session.live address 0) := by
  have hpointed := hkeeps.pointed
  rw [Page.allocPage]
  cases hmark : session.system.outOfMem with
  | true =>
      exact ⟨0, session.system, rfl,
        fun _ => hkeeps.not_spare (hpointed.exhausted hmark), hkeeps⟩
  | false =>
  cases hnext : session.system.nextRegion with
  | none =>
      rw [hpointed.null hnext] at hmark
      cases hmark
  | some next =>
  obtain ⟨region, hregion, haccepted⟩ := hpointed.accepted next hnext
  simp only [hregion, Bool.false_eq_true, if_false]
  cases hfull : region.memFull with
  | false =>
      have hhere : PageSystem.Pointed
          ⟨session.system.regions, some next, session.system.outOfMem⟩ := by
        rw [← hnext]
        exact hpointed
      obtain ⟨address, after, hcall, hne, hafter⟩ :=
        hkeeps.allocAt hready hregion haccepted hfull hhere
      refine ⟨address, session.system.setRegion next after, ?_,
        fun hzero => absurd hzero hne, ?_⟩
      · simp only [hcall, Bool.false_eq_true, if_false]
      · rw [SystemSession.lend, if_neg hne, PageSystem.setRegion, hnext]
        exact hafter
  | true =>
  simp only [if_true]
  cases hfind : findFreeRegion session.system.regions (next + 1) with
  | none =>
      have hall := hpointed.all_full hnext hregion hfull hfind
      refine ⟨0, _, rfl, fun _ => hkeeps.not_spare hall, hkeeps.repoint ?_⟩
      exact ⟨by simp, by simp, fun _ => rfl, fun _ => hall⟩
  | some found =>
      obtain ⟨-, ⟨other, hother, hotherAccepted, hotherNot⟩, -⟩ :=
        findFreeRegion_eq_some hfind
      obtain ⟨address, after, hcall, hne, hafter⟩ :=
        hkeeps.allocAt hready hother hotherAccepted hotherNot
          (hpointed.advanced hnext hregion hfull hfind)
      refine ⟨address, { session.system with
        nextRegion := some found
        regions := session.system.regions.set found after }, ?_,
        fun hzero => absurd hzero hne, ?_⟩
      · simp only [hother, hcall, hmark]
      · rw [SystemSession.lend, if_neg hne]
        exact hafter

theorem SystemSession.Keeps.allocPages (hready : initial.Ready)
    (hkeeps : session.Keeps initial) {order : Nat}
    (hserves : session.system.Serves order) :
    ∃ address system,
      Page.allocPages session.system order = .ok (address, system) ∧
      (address = 0 → system = session.system) ∧
      SystemSession.Keeps initial
        (SystemSession.lend system session.live address order) := by
  have hpointed := hkeeps.pointed
  rw [Page.allocPages]
  cases hmark : session.system.outOfMem with
  | true => exact ⟨0, session.system, rfl, fun _ => rfl, hkeeps⟩
  | false =>
  cases hnext : session.system.nextRegion with
  | none =>
      rw [hpointed.null hnext] at hmark
      cases hmark
  | some areg =>
  simp only [Bool.false_eq_true, if_false]
  rcases allocPagesFrom_cases (fun index region => hkeeps.exact)
    (hpointed.accepted areg hnext)
    (hserves.imp_right fun hserves => hserves areg hnext) with
    hnone | ⟨index, region, block, map, hregion, haccepted, horder, htakes,
      hcall⟩
  · exact ⟨0, session.system, hnone, fun _ => rfl, hkeeps⟩
  · have hne := (hkeeps.exact hregion haccepted).address_ne_zero
      htakes.was_free
    refine ⟨_, _, hcall, fun hzero => absurd hzero hne, ?_⟩
    rw [SystemSession.lend, if_neg hne]
    exact hkeeps.take hready hregion haccepted horder htakes
      (hpointed.afterAlloc hregion order map)

theorem SystemSession.Keeps.findRegion_eq (hready : initial.Ready)
    (hkeeps : session.Keeps initial) {grant : Grant} {index found : Nat}
    {first region : Region} {block : Block}
    (hon : grant.On initial session.system index first region block)
    (hfind : findRegion session.system.regions grant.address = some found) :
    found = index := by
  obtain ⟨-, ⟨other, hother, htest⟩, -⟩ := firstRegion?_eq_some hfind
  have hinside := of_decide_eq_true htest
  obtain ⟨start, hstart, hfollows⟩ := hkeeps.first_of_region hother
  have hwrap : wordAdd other.start other.size ≤ other.start + other.size :=
    Nat.mod_le _ _
  have hbounds := hkeeps.bounds hon
  have hsize : 0 < blockOrderSize grant.order :=
    Nat.mul_pos (by decide) (Nat.two_pow_pos grant.order)
  rw [hfollows.start_eq] at hinside hwrap
  rw [hfollows.size_eq] at hinside hwrap
  by_contra hne
  have hapart := hready.apart_of_ne hon.first_eq hstart hne
  simp only [Region.Apart, Grant.stop] at *
  omega

theorem PageSystem.Pointed.moved {regions : List Region} {index next : Nat}
    {region after cursor : Region} {mark : Bool}
    (hpointed : PageSystem.Pointed ⟨regions, some next, mark⟩)
    (hregion : regions[index]? = some region) (haccepted : region.Accepted)
    (hafter : after.Accepted ↔ region.Accepted)
    (hnotFull : region.memFull = false)
    (hmoves : cursor.start ≤ region.start ∨
      ∀ other ∈ regions.take index, other.Accepted → other.memFull = true) :
    PageSystem.Pointed ⟨regions.set index after,
      if region.start < cursor.start then some index else some next,
      false⟩ := by
  have hlt := (List.getElem?_eq_some_iff.mp hregion).1
  have hmark : mark = false := by
    cases mark with
    | false => rfl
    | true =>
        have hfull := hpointed.exhausted rfl index region hregion haccepted
        rw [hnotFull] at hfull
        cases hfull
  subst hmark
  split
  · rename_i hlower
    refine ⟨?_, ?_, by simp, by simp⟩
    · intro place hplace
      cases hplace
      exact ⟨after, List.getElem?_set_self hlt, hafter.mpr haccepted⟩
    · intro place hplace before other hbefore hother hotherAccepted
      cases hplace
      rw [List.getElem?_set_ne (by omega)] at hother
      refine hmoves.resolve_left (Nat.not_le_of_lt hlower) other ?_
        hotherAccepted
      rw [← List.getElem?_take_of_lt hbefore] at hother
      exact List.mem_of_getElem? hother
  · refine hpointed.set hregion hafter ?_
    intro hfull
    rw [hnotFull] at hfull
    cases hfull

theorem SystemSession.Keeps.freePages (hready : initial.Ready)
    (hkeeps : session.Keeps initial) {grant : Grant}
    (hlive : grant ∈ session.live)
    (hback : session.system.TakesBack grant) :
    ∃ system, Page.freePages session.system grant.order grant.address =
        .ok system ∧
      SystemSession.Keeps initial ⟨system, session.live.erase grant⟩ := by
  obtain ⟨index, first, region, block, hon⟩ := hkeeps.lends grant hlive
  obtain ⟨found, hfind, now, hnow, next, hnext, cursor, hcursor, hnotFull,
    hplace, hmoves⟩ := hback
  obtain rfl := hkeeps.findRegion_eq hready hon hfind
  obtain rfl := Option.some.inj (hon.region_eq.symm.trans hnow)
  have hfollows := hkeeps.follows found first region hon.first_eq hon.region_eq
  have hexact := hfollows.exact hon.accepted
  have horder : grant.order = block.order := congrArg Grant.order hon.grant_eq
  have haddress : grant.address = region.address block := by
    rw [hexact.address_eq hon.held.inside, hfollows.start_eq, ← hon.grant_eq]
  rw [haddress, horder] at hplace
  obtain ⟨hplace, hhint⟩ :=
    hexact.addressable.place_of_exact hon.held.inside hplace
  have hnonzero : region.start = 0 → 0 ∉ block := by
    intro hstart hmem
    rw [hfollows.start_eq] at hstart
    exact (hready.first_exact hon.first_eq hon.accepted).nonzero hstart
      (hon.was_free 0 hmem)
  obtain ⟨map, hcall, hafter, -, hpages, hcovers⟩ :=
    hexact.free hon.held hplace hhint hnotFull hnonzero
  have haccepted := hfollows.accepted_iff.mpr hon.accepted
  have hpointed : PageSystem.Pointed
      ⟨session.system.regions, some next, session.system.outOfMem⟩ := by
    rw [← show session.system.nextRegion = some next from hnext]
    exact hkeeps.pointed
  have hmoved := hpointed.moved hon.region_eq haccepted
    (show (region.afterFree block.order map).Accepted ↔ _ from Iff.rfl)
    hnotFull hmoves
  -- The call compares with the region at the cursor as the free has left it.
  have hseen : ∃ seen, (session.system.regions.set found
      (region.afterFree block.order map))[next]? = some seen ∧
      seen.start = cursor.start := by
    by_cases hsame : next = found
    · subst hsame
      obtain rfl := Option.some.inj (hon.region_eq.symm.trans hcursor)
      exact ⟨_, List.getElem?_set_self
        (List.getElem?_eq_some_iff.mp hcursor).1, rfl⟩
    · refine ⟨cursor, ?_, rfl⟩
      rw [List.getElem?_set_ne (Ne.symm hsame)]
      exact hcursor
  obtain ⟨seen, hseen, hstart⟩ := hseen
  refine ⟨_, ?_, hkeeps.giveBack hready hlive hon hafter hpages hcovers hmoved⟩
  rw [Option.mem_def] at hfind hnext
  rw [haddress] at hfind
  rw [haddress, horder]
  simp only [Page.freePages, hfind, hon.region_eq, hcall,
    PageSystem.setRegion, hnext, hseen, hstart]
  rfl

theorem PageSystem.Ready.keeps {system : PageSystem} (hready : system.Ready)
    (hpointed : system.Pointed) : SystemSession.Keeps system ⟨system, []⟩ where
  length_eq := rfl
  follows := by
    intro index first region hfirst hregion
    obtain rfl := Option.some.inj (hfirst.symm.trans hregion)
    exact ⟨rfl, rfl, rfl, rfl, hready.first_exact hfirst, fun _ h => h⟩
  lends := fun _ hlive => absurd hlive List.not_mem_nil
  disjoint := .nil
  accounts := by
    intro index first region hfirst hregion _ page hpage
    obtain rfl := Option.some.inj (hfirst.symm.trans hregion)
    exact .inl hpage
  pointed := hpointed

theorem PageSystem.Ready.pointed {system : PageSystem} (hready : system.Ready)
    (hcursor : system.nextRegion = findFreeRegion system.regions 0)
    (hnull : system.nextRegion = none → system.outOfMem = true) :
    system.Pointed := by
  refine ⟨?_, ?_, hnull, ?_⟩
  · intro next hnext
    rw [hcursor] at hnext
    obtain ⟨-, ⟨region, hregion, haccepted, -⟩, -⟩ :=
      findFreeRegion_eq_some hnext
    exact ⟨region, hregion, haccepted⟩
  · intro next hnext index region hlt hregion haccepted
    rw [hcursor] at hnext
    exact (findFreeRegion_eq_some hnext).2.2 index region (Nat.zero_le _) hlt
      hregion haccepted
  · intro hmark index region hregion haccepted
    have hnone := hready.exhausted hmark
    rw [hcursor] at hnone
    exact findFreeRegion_eq_none hnone index region (Nat.zero_le _) hregion
      haccepted

theorem SystemSession.Keeps.step (hready : initial.Ready)
    (hkeeps : session.Keeps initial) {call : SystemCall}
    (hlegal : call.Legal session) (hcareful : call.Careful session) :
    ∃ next, systemMachine.step session call = .ok next ∧
      next.Keeps initial := by
  cases call with
  | allocPage =>
      obtain ⟨address, system, hcall, -, hnext⟩ := hkeeps.allocPage hready
      exact ⟨_, by simp only [systemMachine, hcall], hnext⟩
  | allocPages order =>
      obtain ⟨address, system, hcall, -, hnext⟩ :=
        hkeeps.allocPages hready hcareful
      exact ⟨_, by simp only [systemMachine, hcall], hnext⟩
  | freePage page =>
      obtain ⟨system, hcall, hnext⟩ := hkeeps.freePages hready hlegal hcareful
      exact ⟨_, by simp only [systemMachine, Page.freePage, hcall], hnext⟩
  | freePages grant =>
      obtain ⟨system, hcall, hnext⟩ := hkeeps.freePages hready hlegal hcareful
      exact ⟨_, by simp only [systemMachine, hcall], hnext⟩

end

theorem Region.fresh_exact {region : Region} {pages : Nat} (hpos : 0 < pages)
    (hmap : region.map = partitionMap pages maxOrder)
    (hfree : region.pagesFree = pages) (hmark : region.memFull = false)
    (hlock : region.lock = false) (hfits : pages * pageSize ≤ region.size)
    (hspace : region.start + region.size < wordSize)
    (hstart : region.start ≠ 0) : region.Exact := by
  have hpages : pages < wordSize := by
    simp only [pageSize] at hfits
    omega
  have hset : (partitionMap pages maxOrder).freePages =
      ((Finset.range pages : Finset Nat) : Set Nat) := by
    ext page
    simp [BpaMap.freePages, partitionMap_covers]
  refine ⟨?_, hlock, ?_, hspace, ?_, ?_, fun hzero => absurd hzero hstart⟩
  · rw [hmap]
    exact partitionMap_wellFormed hpages
  · rw [hmap]
    exact hfits
  · rw [hmap, hfree, hset, Set.ncard_coe_finset, Finset.card_range]
  · rw [hmark, hmap]
    simp only [Bool.false_eq_true, false_iff, not_forall_not]
    exact ⟨0, partitionMap_covers.mpr hpos⟩

def freshPair : Region :=
  { usablePair with
    map := partitionMap 2 maxOrder
    pagesTotal := 2
    pagesFree := 2
    memFull := false }

theorem freshPair_ready : PageSystem.Ready ⟨[freshPair], some 0, false⟩ := by
  refine ⟨List.pairwise_singleton _ _, ?_, by simp⟩
  intro region hmem _
  obtain rfl := List.mem_singleton.mp hmem
  exact Region.fresh_exact (by decide : 0 < 2) rfl rfl rfl rfl (by decide)
    (by decide) (by decide)

end Synos.Page

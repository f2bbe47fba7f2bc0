import Synos.Stored.Ranges

namespace Synos.Stored

open Synos.Data
open Synos.Page

/-! What is handed out on the bytes of memory lies in an accepted region. -/

/-- Each region has room for the pages that its `bpa_map_t` counts. -/
def Spacious (places : Nat → Place) (regions : List (Region Nat)) : Prop :=
  ∀ (index : Nat) (region : Region Nat), regions[index]? = some region →
    region.Accepted → (places index).pages * pageSize ≤ region.size

/-- A session on separate bitmaps carries the one on the bytes, the regions are
those of `initial`, and so is every live block. -/
structure Fences (places : Nat → Place) (housed : Nat → Prop)
    (initial : List (Region Nat)) (stored : SystemSession StoredSystem)
    (session : SystemSession) : Prop where
  carries : Carries places housed stored session
  same : session.system.Same initial
  live : ∀ grant ∈ session.live, grant.From initial

section

variable {places : Nat → Place} {housed : Nat → Prop}
  {initial : List (Region Nat)}

theorem Place.Keeps.bounded {place : Place} {origin : Memory}
    {stored : StoredMap} {map : BpaMap}
    (hkeeps : place.Keeps origin stored map) : map.Bounded where
  hint order horder hroom := by
    rw [hkeeps.map_pages] at hroom ⊢
    rcases hkeeps.padded.hint_lt order horder with hzero | hlt
    · rw [hzero]
      exact inPages_zero hroom
    · exact inPages_of_lt hlt
  count order horder hpos := by
    rw [hkeeps.map_pages]
    exact (Nat.div_pos_iff.mp (hkeeps.padded.blocks_pos horder hpos)).2

theorem Houses.freesHoused_iff {stored : StoredSystem} {system : PageSystem}
    (hhouses : Houses places housed stored system) (order pages : Nat) :
    FreesHoused places housed stored.toPageSystem order pages ↔
      FreesHoused places housed system order pages := by
  unfold FreesHoused
  rw [findRegion_bare hhouses.bare_eq]
  refine forall₂_congr fun index _ => and_congr_right fun _ =>
    and_congr_right fun _ => ?_
  rcases hhouses.cases index with
    ⟨hnone, hother⟩ | ⟨region, other, hregion, hother, hbare⟩
  · rw [hnone, hother]
    simp
  · rw [hregion, hother]
    simp only [Option.mem_def, Option.some.injEq, forall_eq', Region.offsetOf,
      start_bare hbare]

theorem Houses.callHoused_iff {stored : StoredSystem} {system : PageSystem}
    (hhouses : Houses places housed stored system) (call : SystemCall) :
    CallHoused places housed stored.toPageSystem call ↔
      CallHoused places housed system call := by
  cases call with
  | allocPage => exact Iff.rfl
  | allocPages order => exact Iff.rfl
  | freePage page => exact hhouses.freesHoused_iff 0 page
  | freePages grant => exact hhouses.freesHoused_iff grant.order grant.address

variable {stored next : SystemSession StoredSystem} {session : SystemSession}

theorem Fences.fenced (hfences : Fences places housed initial stored session)
    (hhoused : ∀ index, housed index → ∃ first, initial[index]? = some first ∧
      first.Accepted)
    (hspace : ∀ first ∈ initial, first.start + first.size < wordSize)
    (hroom : Spacious places initial) : session.system.Fenced initial where
  same := hfences.same
  bounded index region hregion haccepted := by
    have hhouses := hfences.carries.houses
    obtain ⟨first, hfirst, hsame⟩ := hfences.same.region index region hregion
    obtain ⟨twin, htwin, -⟩ := hhouses.exists_stored hregion
    have hkeeps := hhouses.keeps index
      (hhouses.accepted index region hregion haccepted) twin region htwin hregion
    refine ⟨hkeeps.bounded, ?_, ?_⟩
    · rw [hkeeps.map_pages, hsame.size_eq]
      exact hroom index first hfirst (hsame.accepted_iff.mp haccepted)
    · rw [hsame.start_eq, hsame.size_eq]
      exact hspace first (List.mem_of_getElem? hfirst)
  cursor cursor hcursor := by
    obtain ⟨first, hfirst, haccepted⟩ :=
      hhoused cursor (hfences.carries.houses.cursor cursor hcursor)
    exact hfences.same.accepts hfirst haccepted

theorem Fences.step (hfences : Fences places housed initial stored session)
    (hfenced : session.system.Fenced initial) {call : SystemCall}
    (hcall : CallHoused places housed stored.system.toPageSystem call)
    (hstep : systemMachine.step stored call = .ok next) :
    ∃ after, Fences places housed initial next after := by
  have hcarries := hfences.carries
  obtain ⟨after, hafter, hnext⟩ := (hcarries.step
    ((hcarries.houses.callHoused_iff call).mp hcall)).exists_right hstep
  obtain ⟨hsame, hlive⟩ := systemMachine_within hfenced hfences.live hafter
  exact ⟨after, hnext, hsame, hlive⟩

theorem Carries.housed_run {calls : List SystemCall}
    (hcarries : Carries places housed stored session)
    (hguard : Page.systemMachine.Guarded (fun session call =>
      CallHoused places housed session.system call) session calls) :
    systemMachine.Guarded (fun session call =>
        CallHoused places housed session.system.toPageSystem call)
        stored calls ∧
      Simulates (Carries places housed) (systemMachine.run stored calls)
        (Page.systemMachine.run session calls) := by
  have hstep : ∀ session stored call, Carries places housed stored session →
      CallHoused places housed session.system call →
      Simulates (fun session stored => Carries places housed stored session)
        (Page.systemMachine.step session call)
        (systemMachine.step stored call) :=
    fun session stored call hcarries hcall => (hcarries.step hcall).symm
  exact ⟨Machine.guarded_simulates hstep (fun session stored call hcarries =>
      (hcarries.houses.callHoused_iff call).mpr) hcarries hguard,
    (Machine.run_simulates hstep hcarries hguard).symm⟩

end

/-- From `ppage_init` on, every block handed out lies in an accepted region of the
chain it was called with. -/
theorem ppageInit_within {vpagesMap : StoredSystem → (paddress order : Nat) →
      Except Fault StoredSystem} {mbp regsb regst : Nat} {memory : Memory}
    {regions : List (Region Nat)} {system : StoredSystem}
    {places : Nat → Place} {calls : List SystemCall}
    {session : SystemSession StoredSystem} (honly : OnlyAllocates vpagesMap)
    (hspace : ∀ first ∈ regions, first.start + first.size < wordSize)
    (hinit : ppageInit vpagesMap mbp regsb regst memory regions = .ok system)
    (hhoused : system.Housed places) (hroom : Spacious places regions)
    (hguard : systemMachine.Guarded (fun session call =>
      CallHoused places system.Accepts session.system.toPageSystem call)
      ⟨system, []⟩ calls)
    (hrun : systemMachine.run ⟨system, []⟩ calls = .ok session) :
    ∀ grant ∈ session.live, grant.From regions := by
  have hsame := ppageInit_same honly hinit
  have haccepts : ∀ index, system.Accepts index →
      ∃ first, regions[index]? = some first ∧ first.Accepted := by
    rintro index ⟨region, hregion, haccepted⟩
    obtain ⟨first, hfirst, hfirstSame⟩ := hsame.region index region hregion
    exact ⟨first, hfirst, hfirstSame.accepted_iff.mp haccepted⟩
  have hread : system.read.Same regions := by
    refine ⟨(List.length_map _).trans hsame.length_eq, ?_⟩
    intro index region hregion
    rw [system.read_getElem?] at hregion
    obtain ⟨stored, hstored, rfl⟩ := Option.map_eq_some_iff.mp hregion
    obtain ⟨first, hfirst, hfirstSame⟩ := hsame.region index stored hstored
    exact ⟨first, hfirst, ⟨hfirstSame.start_eq, hfirstSame.size_eq,
      hfirstSame.attrib_eq⟩⟩
  have hstart : Fences places system.Accepts regions ⟨system, []⟩
      ⟨system.read, []⟩ :=
    ⟨⟨ppageInit_houses hinit hhoused, rfl⟩, hread,
      fun _ hgrant => absurd hgrant List.not_mem_nil⟩
  have hinvariant : ∀ session call next,
      (∃ twin, Fences places system.Accepts regions session twin) →
      CallHoused places system.Accepts session.system.toPageSystem call →
      systemMachine.step session call = .ok next →
      ∃ twin, Fences places system.Accepts regions next twin := by
    rintro session call next ⟨twin, htwin⟩ hcall hstep
    exact htwin.step (htwin.fenced haccepts hspace hroom) hcall hstep
  obtain ⟨twin, htwin⟩ :=
    Machine.run_invariant hinvariant ⟨_, hstart⟩ hguard hrun
  intro grant hgrant
  exact htwin.live grant (htwin.carries.live_eq ▸ hgrant)

end Synos.Stored

import Synos.Page.CallRun

namespace Synos.Page

open Synos.Data

/-! The live blocks of a session never meet. -/

/-- The live grants share no byte and lie inside the region. -/
structure Session.Parted (session : Session) (start pages : Nat) : Prop where
  disjoint : session.live.Pairwise Grant.Disjoint
  inside : ∀ grant ∈ session.live,
    start ≤ grant.address ∧ grant.stop ≤ start + pages * pageSize

section

variable {session next : Session} {start pages : Nat} {blocks : List Block}

theorem Session.Tracks.parted (htracks : session.Tracks start pages blocks) :
    session.Parted start pages where
  disjoint := by
    rw [htracks.live_eq]
    exact List.pairwise_map.mpr (htracks.lends.apart.imp grantOf_disjoint)
  inside grant hgrant := by
    rw [htracks.live_eq, List.mem_map] at hgrant
    obtain ⟨block, hblock, rfl⟩ := hgrant
    have hlast := session.region.last_le (htracks.lends.held block hblock).inside
    rw [htracks.start_eq, htracks.pages_eq] at hlast
    rw [grantOf_stop]
    exact ⟨Nat.le_add_right _ _, hlast⟩

theorem Session.Parted.erase (hparted : session.Parted start pages)
    (grant : Grant) (region : Region) :
    Session.Parted ⟨region, session.live.erase grant⟩ start pages where
  disjoint := hparted.disjoint.sublist List.erase_sublist
  inside other hother := hparted.inside other (List.mem_of_mem_erase hother)

theorem Session.Parted.step {call : Call} (hsafe : session.Safe start pages)
    (hlegal : call.Legal session) (hexact : call.Exact session)
    (hstep : callMachine.step session call = .ok next) :
    next.Parted start pages := by
  cases hsafe with
  | inl hlocked => exact (callMachine_step_of_locked hlocked hlegal hstep).elim
  | inr htracks =>
      obtain ⟨blocks, htracks⟩ := htracks
      cases call with
      | alloc order =>
          obtain ⟨after, hafter, loans, hnext⟩ := htracks.alloc hlegal
          rw [hafter] at hstep
          cases hstep
          exact hnext.parted
      | free grant =>
          simp only [callMachine] at hstep
          split at hstep
          · cases hstep
          · cases hstep
            exact htracks.parted.erase grant _

theorem run_parted {calls : List Call} (hsafe : session.Safe start pages)
    (hparted : session.Parted start pages)
    (hguard : callMachine.Guarded
      (fun session call => call.Legal session ∧ call.Exact session)
      session calls)
    (hrun : callMachine.run session calls = .ok next) :
    next.Parted start pages := by
  refine (@Machine.run_invariant _ _ _ callMachine _
    (fun session => session.Safe start pages ∧ session.Parted start pages) ?_
    _ _ _ ⟨hsafe, hparted⟩ hguard hrun).2
  rintro state call after ⟨hstate, -⟩ ⟨hlegal, hexact⟩ hstep
  exact ⟨hstate.step hlegal hexact hstep,
    Session.Parted.step hstate hlegal hexact hstep⟩

end

end Synos.Page

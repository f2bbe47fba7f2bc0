import Synos.Page.Answers
import Synos.Stored.SpareRun

namespace Synos.Stored

open Synos.Data
open Synos.Page

/-! What `alloc_page` answers when it is called again and again, on the bytes of
memory. -/

def answers (system : StoredSystem) : (count : Nat) → Except Fault (List Nat)
  | 0 => .ok []
  | count + 1 =>
      match allocPage system with
      | .error fault => .error fault
      | .ok (address, system) =>
          (answers system count).map (address :: ·)

/-- It answers these pages, one after the other, and then zero for good. -/
def StoredSystem.HandsOut (system : StoredSystem) (pages : List Nat) : Prop :=
  ∀ count, answers system count =
    .ok ((pages ++ List.replicate count 0).take count)

theorem Houses.answers_eq {places : Nat → Place} {housed : Nat → Prop}
    {stored : StoredSystem} {system : PageSystem}
    (hhouses : Houses places housed stored system) (count : Nat) :
    answers stored count = Page.answers system count := by
  induction count generalizing stored system with
  | zero => rfl
  | succ count ih =>
      rcases hhouses.allocPage.cases with
        ⟨fault, hfirst, hsecond⟩ | ⟨reply, other, hfirst, hsecond, hreply⟩
      · rw [answers, Page.answers, hfirst, hsecond]
      · rw [answers, Page.answers, hfirst, hsecond]
        simp only [ih hreply.2, hreply.1]

/-- Called again and again after `ppage_init`, `alloc_page` hands out exactly
the pages that are free, each of them once, and then answers zero. -/
theorem ppageInit_answers {vpagesMap : StoredSystem → (paddress order : Nat) →
      Except Fault StoredSystem} {mbp regsb regst : Nat} {memory : Memory}
    {regions : List (Region Nat)} {system : StoredSystem}
    {places : Nat → Place}
    (hinit : ppageInit vpagesMap mbp regsb regst memory regions = .ok system)
    (hhoused : system.Housed places) (hready : system.read.Ready) :
    ∃ pages, system.HandsOut pages ∧
      pages.Pairwise (fun address other => address + pageSize ≤ other ∨
        other + pageSize ≤ address) ∧
      ∀ address, address ∈ pages ↔ system.read.Offers address := by
  obtain ⟨pages, hpages, happart, hoffers⟩ :=
    hready.exists_handsOut (ppageInit_pointed hinit hready)
  refine ⟨pages, fun count => ?_, happart, hoffers⟩
  rw [(ppageInit_houses hinit hhoused).answers_eq]
  exact hpages count

theorem ppageInit_answers_pair :
    Returns (ppageInit (fun system _ _ => .ok system) 0x10000 0x8000 0x9000
        pairMemory [usablePair]) fun system =>
      ∃ pages, system.HandsOut pages ∧
        pages.Pairwise (fun address other => address + pageSize ≤ other ∨
          other + pageSize ≤ address) ∧
        ∀ address, address ∈ pages ↔
          PageSystem.Offers ⟨[freshPair], some 0, false⟩ address := by
  obtain ⟨system, hinit, hhoused, hread⟩ := ppageInit_pair
  refine returns_iff.mpr ⟨system, hinit, ?_⟩
  rw [← hread]
  exact ppageInit_answers hinit hhoused (hread ▸ freshPair_ready)

end Synos.Stored

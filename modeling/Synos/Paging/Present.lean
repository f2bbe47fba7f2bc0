import Synos.Paging.Map

namespace Synos.Paging

open Synos.Data

/-! `page_ispresent` against the walk of the processor. -/

/-- `page_ispresent` with the addresses it loads, in the order of the loads. -/
def pageIspresentTrace (tables : Tables) (vaddress : BitVec 64)
    (level : Nat) : Except Fault Bool × List (BitVec 64) :=
  if level = 0 ∨ 4 < level then
    (.ok false, [])
  else
    let above :=
      if level < 4 then pageIspresentTrace tables vaddress (level + 1)
      else (.ok true, [])
    match above with
    | (.error fault, loads) => (.error fault, loads)
    | (.ok false, loads) => (.ok false, loads)
    | (.ok true, loads) =>
        let address := getTableAddress vaddress level
        ((load tables address).map present, loads ++ [address])
termination_by 4 - level

/-- Every entry of the address is present, and the processor reaches a page. -/
structure FullyPresent (memory : Memory) (root : Frame)
    (address : BitVec 64) : Prop where
  canonical : canonical address
  entries : ∀ level, 1 ≤ level → level ≤ 4 →
    EntryPresent memory root address level

theorem fullyPresent_of_walk {memory : Memory} {root : Frame}
    {address : BitVec 64} (hwalk : (walk memory root address).isSome) :
    FullyPresent memory root address := by
  unfold walk at hwalk
  split at hwalk
  · rename_i hcanonical
    rw [Option.isSome_map] at hwalk
    refine ⟨hcanonical, ?_⟩
    intro level hpos hle
    exact (@tableOf_isSome_iff memory root address 0 (by omega)).mp hwalk level
      hpos hle
  · cases hwalk

section

variable {tables : Tables} {vaddress : BitVec 64} {level : Nat}

theorem pageIspresentTrace_fst {depth : Nat} (hdepth : level + depth = 4)
    (hpos : 1 ≤ level) :
    (pageIspresentTrace tables vaddress level).1 =
      pageIspresent tables vaddress level := by
  have hrange : ¬ (level = 0 ∨ 4 < level) := by omega
  induction depth generalizing level with
  | zero =>
      have htop : ¬ level < 4 := by omega
      rw [pageIspresentTrace, pageIspresent, if_neg hrange, if_neg hrange,
        if_neg htop, if_neg htop]
      simp only
      cases load tables (getTableAddress vaddress level) <;> rfl
  | succ depth ih =>
      have hbelow : level < 4 := by omega
      rw [pageIspresentTrace, pageIspresent, if_neg hrange, if_neg hrange,
        if_pos hbelow, if_pos hbelow,
        ← ih (by omega) (by omega) (by omega)]
      cases pageIspresentTrace tables vaddress (level + 1) with
      | mk found loads =>
          cases found with
          | error fault => rfl
          | ok found =>
              cases found with
              | false => rfl
              | true =>
                  simp only
                  cases load tables (getTableAddress vaddress level) <;> rfl

/-- An entry is loaded only once the entries above it were found present. -/
theorem pageIspresentTrace_loads
    (hself : SelfMapped tables.memory tables.root) {depth : Nat}
    (hdepth : level + depth = 4) (hpos : 1 ≤ level) :
    ∀ address ∈ (pageIspresentTrace tables vaddress level).2,
      (walk tables.memory tables.root address).isSome := by
  induction depth generalizing level with
  | zero =>
      have htop : level = 4 := by omega
      subst htop
      rw [pageIspresentTrace, if_neg (by omega), if_neg (by omega)]
      intro address hmem
      simp only [List.nil_append, List.mem_singleton] at hmem
      rw [hmem, walk_getTableAddress hself hpos (Nat.le_refl 4), tableOf_top]
      rfl
  | succ depth ih =>
      have habove := @ih (level + 1) (by omega) (by omega)
      have hfound := @pageIspresentTrace_fst tables vaddress (level + 1) depth
        (by omega) (by omega)
      rw [@pageIspresent_eq tables vaddress (level + 1) hself depth (by omega)
        (by omega)] at hfound
      rw [pageIspresentTrace, if_neg (by omega), if_pos (by omega)]
      cases htrace : pageIspresentTrace tables vaddress (level + 1) with
      | mk found loads =>
          rw [htrace] at habove hfound
          simp only at habove hfound
          subst hfound
          cases hpresent : presentAt tables.memory tables.root vaddress
              (level + 1) with
          | false => exact habove
          | true =>
              intro address hmem
              cases List.mem_append.mp hmem with
              | inl hmem => exact habove address hmem
              | inr hmem =>
                  rw [List.mem_singleton] at hmem
                  rw [hmem, walk_getTableAddress hself hpos (by omega),
                    Option.isSome_map, tableOf_isSome_iff (by omega)]
                  exact fun above hgt hle =>
                    (presentAt_iff.mp hpresent).upward hgt hle

end

/-- `page_ispresent` answers whether the entries from `level` up are present, and
every address it loads on the way is fully present itself. -/
theorem pageIspresent_walks {tables : Tables}
    (hself : SelfMapped tables.memory tables.root) (vaddress : BitVec 64)
    {level : Nat} (hpos : 1 ≤ level) (hle : level ≤ 4) :
    ∃ found, pageIspresent tables vaddress level = .ok found ∧
      (found = true ↔ ∀ above, level ≤ above → above ≤ 4 →
        EntryPresent tables.memory tables.root vaddress above) ∧
      (pageIspresentTrace tables vaddress level).1 = .ok found ∧
      ∀ address ∈ (pageIspresentTrace tables vaddress level).2,
        FullyPresent tables.memory tables.root address := by
  have hdepth : level + (4 - level) = 4 := by omega
  have hfound := @pageIspresent_eq tables vaddress level hself _ hdepth hpos
  refine ⟨_, hfound, ?_, (pageIspresentTrace_fst hdepth hpos).trans hfound, ?_⟩
  · rw [presentAt_iff]
    exact ⟨fun h above hge habove => h.upward hge habove,
      fun h => h level (Nat.le_refl _) hle⟩
  · intro address hmem
    exact fullyPresent_of_walk
      (pageIspresentTrace_loads hself hdepth hpos address hmem)

/-- A page of the first table, where only the self-map and the root entry of the
address are present. -/
theorem pageIspresent_walks_missing :
    ∃ found,
      pageIspresent
          ⟨pgaInit (fun _ _ => 0) 0x101000, 0x101, [], [], fun _ => false⟩
          0xFFFFFF8000201008 1 = .ok found ∧
      (found = true ↔ ∀ above, 1 ≤ above → above ≤ 4 →
        EntryPresent (pgaInit (fun _ _ => 0) 0x101000) 0x101
          0xFFFFFF8000201008 above) ∧
      (pageIspresentTrace
          ⟨pgaInit (fun _ _ => 0) 0x101000, 0x101, [], [], fun _ => false⟩
          0xFFFFFF8000201008 1).1 = .ok found ∧
      ∀ address ∈ (pageIspresentTrace
          ⟨pgaInit (fun _ _ => 0) 0x101000, 0x101, [], [], fun _ => false⟩
          0xFFFFFF8000201008 1).2,
        FullyPresent (pgaInit (fun _ _ => 0) 0x101000) 0x101 address :=
  pageIspresent_walks (pgaInit_selfMapped _ 0x101000) 0xFFFFFF8000201008
    (Nat.le_refl 1) (by decide)

end Synos.Paging

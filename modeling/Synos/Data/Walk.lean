import Synos.Data.Machine
import Synos.Data.Word
import Mathlib.Data.Finset.Card
import Mathlib.Order.Interval.Finset.Nat

namespace Synos.Data

/-! Walks over singly linked lists that end in the null pointer.  A walk of more
than `wordSize` steps has come back to where it was, and never ends. -/

/-- The first node from `current` on that passes the test, or zero, and the node
visited before it. -/
def searchList (next : Nat → Nat) (test : Nat → Bool) :
    (fuel last current : Nat) → Except Fault (Nat × Nat)
  | 0, _, _ => .error .endlessLoop
  | fuel + 1, last, current =>
      if current = 0 then .ok (0, last)
      else if test current then .ok (current, last)
      else searchList next test fuel current (next current)

def foldList {Value : Type} (next : Nat → Nat) (step : Value → Nat → Value) :
    (fuel : Nat) → Value → (current : Nat) → Except Fault Value
  | 0, _, _ => .error .endlessLoop
  | fuel + 1, value, current =>
      if current = 0 then .ok value
      else foldList next step fuel (step value current) (next current)

/-- The nodes of the list that starts at `start`. -/
def Linked (next : Nat → Nat) : Nat → List Nat → Prop
  | start, [] => start = 0
  | start, node :: rest =>
      start = node ∧ node ≠ 0 ∧ Linked next (next node) rest

section

variable {next : Nat → Nat} {test : Nat → Bool} {fuel last start : Nat}

theorem searchList_append {before after : List Nat}
    (hlinked : Linked next start (before ++ after))
    (hfuel : before.length < fuel) (hnone : ∀ node ∈ before, test node = false) :
    ∃ fuel' middle, Linked next middle after ∧
      searchList next test fuel last start =
        searchList next test (fuel' + 1) (before.getLast?.getD last) middle := by
  induction before generalizing fuel last start with
  | nil =>
      obtain ⟨fuel, rfl⟩ : ∃ rest, fuel = rest + 1 := ⟨fuel - 1, by omega⟩
      exact ⟨fuel, start, hlinked, rfl⟩
  | cons node rest ih =>
      obtain ⟨fuel, rfl⟩ : ∃ rest, fuel = rest + 1 := ⟨fuel - 1, by omega⟩
      obtain ⟨rfl, hne, hrest⟩ := hlinked
      obtain ⟨fuel', middle, hmiddle, hsearch⟩ :=
        @ih fuel start _ hrest (by simpa using hfuel)
          (fun other hother => hnone other (.tail _ hother))
      refine ⟨fuel', middle, hmiddle, ?_⟩
      rw [searchList, if_neg hne, if_neg (by simp [hnone start]), hsearch,
        List.getLast?_cons]
      rfl

theorem searchList_of_none {nodes : List Nat}
    (hlinked : Linked next start nodes) (hfuel : nodes.length < fuel)
    (hnone : ∀ node ∈ nodes, test node = false) :
    searchList next test fuel last start =
      .ok (0, nodes.getLast?.getD last) := by
  rw [← List.append_nil nodes] at hlinked
  obtain ⟨fuel', middle, hmiddle, hsearch⟩ :=
    @searchList_append _ _ _ last _ _ _ hlinked hfuel hnone
  have hzero : middle = 0 := hmiddle
  rw [hsearch, searchList, if_pos hzero]

theorem searchList_of_found {before after : List Nat} {found : Nat}
    (hlinked : Linked next start (before ++ found :: after))
    (hfuel : before.length < fuel)
    (hnone : ∀ node ∈ before, test node = false)
    (htest : test found = true) :
    searchList next test fuel last start =
      .ok (found, before.getLast?.getD last) := by
  obtain ⟨fuel', middle, hmiddle, hsearch⟩ :=
    @searchList_append _ _ _ last _ _ _ hlinked hfuel hnone
  obtain ⟨rfl, hne, -⟩ := hmiddle
  rw [hsearch, searchList, if_neg hne, if_pos htest]

theorem foldList_eq {Value : Type} {step : Value → Nat → Value}
    {nodes : List Nat} (hlinked : Linked next start nodes)
    (hfuel : nodes.length < fuel) (value : Value) :
    foldList next step fuel value start = .ok (nodes.foldl step value) := by
  induction nodes generalizing fuel value start with
  | nil =>
      obtain ⟨fuel, rfl⟩ : ∃ rest, fuel = rest + 1 := ⟨fuel - 1, by omega⟩
      have hzero : start = 0 := hlinked
      rw [foldList, if_pos hzero]
      rfl
  | cons node rest ih =>
      obtain ⟨fuel, rfl⟩ : ∃ rest, fuel = rest + 1 := ⟨fuel - 1, by omega⟩
      obtain ⟨rfl, hne, hrest⟩ := hlinked
      rw [foldList, if_neg hne, ih hrest (by simpa using hfuel)]
      rfl

theorem Linked.congr {other : Nat → Nat} {nodes : List Nat}
    (hlinked : Linked next start nodes)
    (hsame : ∀ node ∈ nodes, other node = next node) :
    Linked other start nodes := by
  induction nodes generalizing start with
  | nil => exact hlinked
  | cons node rest ih =>
      obtain ⟨rfl, hne, hrest⟩ := hlinked
      refine ⟨rfl, hne, ?_⟩
      rw [hsame start (.head _)]
      exact ih hrest (fun other hother => hsame other (.tail _ hother))

theorem Linked.of_append {before after : List Nat} {node : Nat}
    (hlinked : Linked next start (before ++ node :: after)) :
    node ≠ 0 ∧ Linked next (next node) after := by
  induction before generalizing start with
  | nil => exact hlinked.2
  | cons first before ih => exact ih hlinked.2.2

theorem Linked.unique {nodes others : List Nat}
    (hlinked : Linked next start nodes) (hother : Linked next start others) :
    nodes = others := by
  induction nodes generalizing start others with
  | nil =>
      cases others with
      | nil => rfl
      | cons other others =>
          obtain ⟨rfl, hne, -⟩ := hother
          exact absurd hlinked hne
  | cons node rest ih =>
      obtain ⟨rfl, hne, hrest⟩ := hlinked
      cases others with
      | nil => exact absurd hother hne
      | cons other others =>
          obtain ⟨rfl, -, hothers⟩ := hother
          rw [ih hrest hothers]

theorem Linked.insert {other : Nat → Nat} {before after : List Nat}
    {node new : Nat} (hlinked : Linked next start (before ++ node :: after))
    (hsame : ∀ place ∈ before ++ after, other place = next place)
    (hnode : other node = new) (hne : new ≠ 0)
    (hnew : other new = next node) :
    Linked other start (before ++ node :: new :: after) := by
  induction before generalizing start with
  | nil =>
      obtain ⟨hstart, hnull, hrest⟩ := hlinked
      refine ⟨hstart, hnull, hnode, hne, ?_⟩
      rw [hnew]
      exact hrest.congr hsame
  | cons first before ih =>
      obtain ⟨hstart, hnull, hrest⟩ := hlinked
      refine ⟨hstart, hnull, ?_⟩
      rw [hsame first (.head _)]
      exact ih hrest (fun place hplace => hsame place (.tail _ hplace))

theorem linked_range {block : Nat → Nat} (hne : ∀ k, block k ≠ 0)
    {first count : Nat}
    (hnext : ∀ k, first ≤ k → k < first + count →
      next (block k) = block (k + 1))
    (hlast : next (block (first + count)) = 0) :
    Linked next (block first) ((List.range' first (count + 1)).map block) := by
  induction count generalizing first with
  | zero => exact ⟨rfl, hne first, hlast⟩
  | succ count ih =>
      rw [List.range'_succ, List.map_cons]
      refine ⟨rfl, hne first, ?_⟩
      rw [hnext first (Nat.le_refl _) (by omega)]
      refine ih (fun k hle hlt => hnext k (by omega) (by omega)) ?_
      rwa [Nat.add_assoc, Nat.add_comm 1]

/-- Distinct non-null addresses below the limit are fewer than the limit. -/
theorem length_lt_of_nodup {nodes : List Nat} {limit : Nat}
    (hlimit : 0 < limit) (hnodup : nodes.Nodup)
    (hrange : ∀ node ∈ nodes, node ≠ 0 ∧ node < limit) :
    nodes.length < limit := by
  have hsub : nodes.toFinset ⊆ Finset.Ico 1 limit := by
    intro node hnode
    have hbounds := hrange node (List.mem_toFinset.mp hnode)
    rw [Finset.mem_Ico]
    omega
  have hcard := Finset.card_le_card hsub
  rw [List.toFinset_card_of_nodup hnodup, Nat.card_Ico] at hcard
  omega

theorem exists_first {Item : Type} {items : List Item} {test : Item → Prop}
    [DecidablePred test] (hsome : ∃ item ∈ items, test item) :
    ∃ before found after, items = before ++ found :: after ∧ test found ∧
      ∀ item ∈ before, ¬ test item := by
  obtain ⟨item, hitem, htest⟩ := hsome
  have hfind : (items.find? (fun item => decide (test item))).isSome :=
    List.find?_isSome.mpr ⟨item, hitem, decide_eq_true htest⟩
  obtain ⟨found, hfound⟩ := Option.isSome_iff_exists.mp hfind
  obtain ⟨hmatch, before, after, hitems, hbefore⟩ :=
    List.find?_eq_some_iff_append.mp hfound
  refine ⟨before, found, after, hitems, of_decide_eq_true hmatch, ?_⟩
  intro item hitem
  simpa using hbefore item hitem

theorem forall_mem_middle {Item : Type} {front back : List Item} {item : Item}
    {property : Item → Prop} :
    (∀ other ∈ front ++ item :: back, property other) ↔
      property item ∧
        ∀ other, other ∈ front ∨ other ∈ back → property other := by
  simp only [List.mem_append, List.mem_cons]
  constructor
  · intro hall
    exact ⟨hall item (.inr (.inl rfl)),
      fun other hside => hall other (hside.imp_right .inr)⟩
  · rintro ⟨hitem, hsides⟩ other (hfront | rfl | hback)
    · exact hsides other (.inl hfront)
    · exact hitem
    · exact hsides other (.inr hback)

end

end Synos.Data

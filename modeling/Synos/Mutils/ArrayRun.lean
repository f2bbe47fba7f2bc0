import Synos.Mutils.Array

namespace Synos.Mutils

open Synos.Data

/-! The growable array against lists, over whole runs. The block always has the
least multiple of eight cells that leaves one of them free. -/

/-- `Holds`, with the length of the block fixed by that of the list. -/
structure Sized (list : List (BitVec 64)) (a : ArrayT) : Prop where
  length : a.length = list.length
  cells : ∀ k < list.length, a.arr[k]? = list[k]?
  block : a.arr.length = a.allocLength
  size : a.allocLength = 8 * (a.length / 8 + 1)

section

variable {fresh : Nat → BitVec 64} {list : List (BitVec 64)} {a : ArrayT}

theorem Sized.holds (hsized : Sized list a) : Holds list a where
  length := hsized.length
  cells := by
    rw [hsized.length]
    exact take_eq_iff.mpr hsized.cells
  block := hsized.block
  room := by
    have hsize := hsized.size
    omega

theorem newArray_sized : Sized [] (newArray fresh) where
  length := rfl
  cells k hk := by cases hk
  block := length_freshBlock _ _
  size := by simp [newArray, arrayAllocLength]

theorem arrayReallocate_ok {allocLength : Nat}
    (hblock : a.length ≤ a.arr.length) (hroom : a.length < allocLength) :
    ∃ b, arrayReallocate fresh a allocLength = .ok b ∧
      b.length = a.length ∧ b.allocLength = allocLength ∧
      b.arr.length = allocLength ∧
      (∀ k < a.length, b.arr[k]? = a.arr[k]?) ∧
      b.arr[a.length]? = some (fresh a.length) := by
  obtain ⟨narr, hcopy, hlength, hcells⟩ :=
    @exists_copyCells _ a.arr (freshBlock fresh allocLength) 0 a.length hblock
      (by rw [length_freshBlock]; omega)
  rw [length_freshBlock] at hlength
  refine ⟨⟨a.length, narr, allocLength⟩, ?_, rfl, rfl, hlength, ?_, ?_⟩
  · rw [arrayReallocate, hcopy]
    rfl
  · intro k hk
    rw [hcells, if_pos (by omega), Nat.sub_zero]
  · rw [hcells, if_neg (by omega), getElem?_freshBlock hroom]

/-- The block grows before it is full, and shrinks when it is eight cells too
long; only then is the first free cell a new one. -/
theorem arrayResize_ok {before : Nat} (hblock : a.arr.length = a.allocLength)
    (hsize : a.allocLength = 8 * (before / 8 + 1))
    (hnear : a.length = before + 1 ∨ a.length + 1 = before) :
    ∃ b, arrayResize fresh a = .ok b ∧ b.length = a.length ∧
      b.arr.length = b.allocLength ∧ b.allocLength = 8 * (b.length / 8 + 1) ∧
      (∀ k < a.length, b.arr[k]? = a.arr[k]?) ∧
      (a.length + 1 = before → b.arr[a.length]? =
        if 8 ∣ before then some (fresh a.length) else a.arr[a.length]?) := by
  rw [arrayResize, arrayAllocLength]
  by_cases hfull : a.allocLength ≤ a.length
  · obtain ⟨b, hb, hlength, halloc, hcount, hcells, -⟩ :=
      @arrayReallocate_ok fresh a (a.allocLength + 8) (by omega) (by omega)
    rw [if_pos hfull]
    refine ⟨b, hb, hlength, by omega, by omega, hcells, ?_⟩
    intro hless
    omega
  · rw [if_neg hfull]
    by_cases hloose : a.length < a.allocLength - 8
    · obtain ⟨b, hb, hlength, halloc, hcount, hcells, hfresh⟩ :=
        @arrayReallocate_ok fresh a (a.allocLength - 8) (by omega) hloose
      rw [if_pos hloose]
      refine ⟨b, hb, hlength, by omega, by omega, hcells, ?_⟩
      intro hless
      rw [hfresh, if_pos (by omega)]
    · rw [if_neg hloose]
      refine ⟨a, rfl, rfl, hblock, by omega, fun _ _ => rfl, ?_⟩
      intro hless
      rw [if_neg (by omega)]

theorem arrayPush_sized (hsized : Sized list a) (value : BitVec 64) :
    ∃ b, arrayPush fresh a value = .ok b ∧ Sized (list ++ [value]) b := by
  have hroom := hsized.holds.room
  have hlist := hsized.length
  have hblock := hsized.block
  obtain ⟨b, hb, hlength, hcount, halloc, hcells, -⟩ :=
    @arrayResize_ok fresh ⟨a.length + 1, a.arr.set a.length value,
      a.allocLength⟩ a.length (by simpa using hblock) hsized.size (.inl rfl)
  refine ⟨b, ?_, ?_, ?_, hcount, halloc⟩
  · rw [arrayPush, writeCell_of_lt (by omega)]
    exact hb
  · rw [hlength, List.length_append, List.length_singleton, hlist]
  · intro k hk
    rw [List.length_append, List.length_singleton] at hk
    rw [hcells k (by simp only; omega), List.getElem?_set,
      List.getElem?_append]
    by_cases hlast : a.length = k
    · rw [if_pos hlast, if_pos (by omega), if_neg (by omega), ← hlast, hlist,
        Nat.sub_self]
      rfl
    · rw [if_neg hlast, if_pos (by omega), hsized.cells k (by omega)]

theorem insertLoop_ok {index i : Nat} {arr : List (BitVec 64)}
    (hi : i < arr.length) :
    ∃ moved, insertLoop index i arr = .ok moved ∧
      moved.length = arr.length ∧
      ∀ k, moved[k]? =
        if index < k ∧ k ≤ i then arr[k - 1]? else arr[k]? := by
  induction i generalizing arr with
  | zero =>
      refine ⟨arr, rfl, rfl, ?_⟩
      intro k
      rw [if_neg (by omega)]
  | succ i ih =>
      rw [insertLoop]
      by_cases hindex : index < i + 1
      · obtain ⟨value, hread, hvalue⟩ :=
          @exists_readCell _ arr i (by omega)
        obtain ⟨moved, hloop, hlength, hcells⟩ :=
          @ih (arr.set (i + 1) value) (by rw [List.length_set]; omega)
        rw [if_pos hindex, hread]
        refine ⟨moved, ?_, ?_, ?_⟩
        · simp only [bind, Except.bind, writeCell_of_lt hi]
          exact hloop
        · rw [hlength, List.length_set]
        · intro k
          rw [hcells]
          by_cases hinside : index < k ∧ k ≤ i
          · rw [if_pos hinside, if_pos (by omega),
              List.getElem?_set_ne (by omega)]
          · rw [if_neg hinside]
            by_cases htop : i + 1 = k
            · rw [← htop, List.getElem?_set_self hi, if_pos (by omega),
                Nat.add_sub_cancel, hvalue]
            · rw [List.getElem?_set_ne htop, if_neg (by omega)]
      · rw [if_neg hindex]
        refine ⟨arr, rfl, rfl, ?_⟩
        intro k
        rw [if_neg (by omega)]

theorem pullLoop_ok {count i : Nat} {arr : List (BitVec 64)}
    (hcount : i + count < arr.length) :
    ∃ moved, pullLoop count i arr = .ok moved ∧ moved.length = arr.length ∧
      ∀ k, moved[k]? =
        if i ≤ k ∧ k < i + count then arr[k + 1]? else arr[k]? := by
  induction count generalizing i arr with
  | zero =>
      refine ⟨arr, rfl, rfl, ?_⟩
      intro k
      rw [if_neg (by omega)]
  | succ count ih =>
      obtain ⟨value, hread, hvalue⟩ :=
        @exists_readCell _ arr (i + 1) (by omega)
      obtain ⟨moved, hloop, hlength, hcells⟩ :=
        @ih (i + 1) (arr.set i value) (by rw [List.length_set]; omega)
      rw [pullLoop, hread]
      refine ⟨moved, ?_, ?_, ?_⟩
      · have hi : i < arr.length := by omega
        simp only [bind, Except.bind, writeCell_of_lt hi]
        exact hloop
      · rw [hlength, List.length_set]
      · intro k
        rw [hcells]
        by_cases hinside : i + 1 ≤ k ∧ k < i + 1 + count
        · rw [if_pos hinside, if_pos (by omega),
            List.getElem?_set_ne (by omega)]
        · rw [if_neg hinside]
          by_cases hfirst : i = k
          · rw [← hfirst, List.getElem?_set_self (by omega),
              if_pos (by omega), hvalue]
          · rw [List.getElem?_set_ne hfirst, if_neg (by omega)]

theorem arrayInsert_sized (hsized : Sized list a) {index : Nat}
    (hindex : index < list.length) (value : BitVec 64) :
    ∃ b, arrayInsert fresh a index value = .ok b ∧
      Sized (list.insertIdx index value) b := by
  have hroom := hsized.holds.room
  have hlist := hsized.length
  have hblock := hsized.block
  obtain ⟨moved, hloop, hmoved, hcells⟩ :=
    @insertLoop_ok index a.length a.arr (by omega)
  obtain ⟨b, hb, hlength, hcount, halloc, hkept, -⟩ :=
    @arrayResize_ok fresh ⟨a.length + 1, moved.set index value,
      a.allocLength⟩ a.length (by simpa using hmoved.trans hblock)
      hsized.size (.inl rfl)
  have hin : index < moved.length := by omega
  refine ⟨b, ?_, ?_, ?_, hcount, halloc⟩
  · rw [arrayInsert, if_neg (by omega), hloop]
    simp only [bind, Except.bind, writeCell_of_lt hin]
    exact hb
  · rw [hlength, List.length_insertIdx_of_le_length (by omega), hlist]
  · intro k hk
    rw [List.length_insertIdx_of_le_length (by omega)] at hk
    rw [hkept k (by simp only; omega), List.getElem?_set, hcells,
      List.getElem?_insertIdx]
    by_cases hbelow : k < index
    · rw [if_neg (by omega), if_neg (by omega), if_pos hbelow,
        hsized.cells k (by omega)]
    · rw [if_neg hbelow]
      by_cases hhere : index = k
      · rw [if_pos hhere, if_pos hin, if_pos hhere.symm, if_pos (by omega)]
      · rw [if_neg hhere, if_pos (by omega), if_neg (Ne.symm hhere),
          hsized.cells (k - 1) (by omega)]

theorem arrayPop_sized (hsized : Sized list a) (hpos : 0 < a.length) :
    ∃ value b, arrayPop fresh a = .ok (value, b) ∧ Sized list.dropLast b ∧
      some value = if 8 ∣ a.length then some (fresh (a.length - 1))
        else list.getLast? := by
  have hroom := hsized.holds.room
  have hlist := hsized.length
  obtain ⟨b, hb, hlength, hcount, halloc, hcells, hlast⟩ :=
    @arrayResize_ok fresh ⟨a.length - 1, a.arr, a.allocLength⟩ a.length
      hsized.block hsized.size (.inr (Nat.sub_add_cancel hpos))
  have hsized' : Sized list.dropLast b := by
    refine ⟨?_, ?_, hcount, halloc⟩
    · rw [hlength, List.length_dropLast, hlist]
    · intro k hk
      rw [List.length_dropLast] at hk
      rw [hcells k (by simp only; omega), hsized.cells k (by omega),
        List.getElem?_dropLast, if_pos (by omega)]
  obtain ⟨value, hread, hvalue⟩ :=
    @exists_readCell _ b.arr b.length
      (by rw [hcount]; exact hsized'.holds.room)
  refine ⟨value, b, ?_, hsized', ?_⟩
  · rw [arrayPop, hb]
    simp only [bind, Except.bind, hread]
    rfl
  · rw [← hvalue, hlength, hlast (Nat.sub_add_cancel hpos),
      List.getLast?_eq_getElem?, ← hlist,
      hsized.cells _ (by simp only; omega)]

theorem arrayPull_sized (hsized : Sized list a) {index : Nat}
    (hindex : index < list.length) :
    ∃ b, arrayPull fresh a index = .ok (list.getD index 0, b) ∧
      Sized (list.eraseIdx index) b := by
  have hroom := hsized.holds.room
  have hlist := hsized.length
  have hblock := hsized.block
  obtain ⟨value, hread, hvalue⟩ := @exists_readCell _ a.arr index (by omega)
  obtain ⟨moved, hloop, hmoved, hcells⟩ :=
    @pullLoop_ok (a.length - 1 - index) index a.arr (by omega)
  obtain ⟨b, hb, hlength, hcount, halloc, hkept, -⟩ :=
    @arrayResize_ok fresh ⟨a.length - 1, moved, a.allocLength⟩ a.length
      (hmoved.trans hblock) hsized.size (.inr (by simp only; omega))
  have hresult : list.getD index 0 = value := by
    rw [List.getD_eq_getElem?_getD, ← hsized.cells index hindex, hvalue]
    rfl
  refine ⟨b, ?_, ?_, ?_, hcount, halloc⟩
  · rw [arrayPull, if_neg (by omega), hread, hresult]
    simp only [bind, Except.bind, hloop, hb]
    rfl
  · rw [hlength, List.length_eraseIdx_of_lt hindex, hlist]
  · intro k hk
    rw [List.length_eraseIdx_of_lt hindex] at hk
    rw [hkept k (by simp only; omega), hcells, List.getElem?_eraseIdx]
    by_cases hbelow : k < index
    · rw [if_neg (by omega), if_pos hbelow, hsized.cells k (by omega)]
    · rw [if_pos (by omega), if_neg hbelow, hsized.cells (k + 1) (by omega)]

/-- The run so far: the array follows the list, and what has been returned is
right exactly when `exact` holds. -/
structure Tracks (exact : Prop) (spec : ListRun) (run : ArrayRun) : Prop where
  sized : Sized spec.list run.array
  results : run.results = spec.results ↔ exact

theorem append_singleton_iff {exact keeps : Prop}
    {results others : List (BitVec 64)} {value other : BitVec 64}
    (hresults : results = others ↔ exact) (hvalue : value = other ↔ keeps) :
    results ++ [value] = others ++ [other] ↔ exact ∧ keeps := by
  rw [List.append_singleton_inj, hresults, hvalue]

/-- The value popped is the last one exactly when the call keeps it. -/
theorem arrayPop_value_iff {spec : ListRun} {run : ArrayRun}
    (hsized : Sized spec.list run.array) (hpos : 0 < run.array.length)
    {value : BitVec 64}
    (hvalue : some value = if 8 ∣ run.array.length then
      some (fresh (run.array.length - 1)) else spec.list.getLast?) :
    value = spec.list.getLastD 0 ↔ ArrayCall.Keeps run ⟨.pop, fresh⟩ := by
  have hlist := hsized.length
  obtain ⟨last, hlast⟩ : ∃ last, spec.list.getLast? = some last :=
    List.getLast?_isSome.mpr (List.ne_nil_of_length_pos (by omega)) |>
      Option.isSome_iff_exists.mp
  have hcell : run.array.arr[run.array.length - 1]? = some last := by
    rw [hsized.cells _ (by omega), hlist, ← List.getLast?_eq_getElem?, hlast]
  rw [ArrayCall.Keeps, arrayAllocLength, List.getLastD_eq_getLast?, hlast,
    hcell, Option.getD_some]
  by_cases hshrinks : 8 ∣ run.array.length
  · rw [if_pos hshrinks, Option.some.injEq] at hvalue
    rw [hvalue]
    simp only [hshrinks, not_true_eq_false, false_or, Option.some.injEq]
    exact eq_comm
  · rw [if_neg hshrinks, hlast, Option.some.injEq] at hvalue
    exact iff_of_true hvalue (.inl hshrinks)

theorem Tracks.step {exact : Prop} {spec : ListRun} {run : ArrayRun}
    {call : ArrayCall} (htracks : Tracks exact spec run)
    (hlegal : call.Legal run) :
    ∃ next, arrayMachine.step run call = .ok next ∧
      Tracks (exact ∧ call.Keeps run) (listStep spec call) next := by
  obtain ⟨op, fresh⟩ := call
  obtain ⟨hsized, hresults⟩ := htracks
  have hlist := hsized.length
  have hsame : run.results = spec.results ↔ exact ∧ True := by
    rw [hresults, and_true]
  cases op with
  | push value =>
      obtain ⟨b, hb, hnext⟩ := @arrayPush_sized fresh _ _ hsized value
      refine ⟨⟨b, run.results⟩, ?_, hnext, hsame⟩
      simp only [arrayMachine, hb]
      rfl
  | insert index value =>
      by_cases hindex : index < spec.list.length
      · obtain ⟨b, hb, hnext⟩ :=
          @arrayInsert_sized fresh _ _ hsized _ hindex value
        refine ⟨⟨b, run.results⟩, ?_, ?_⟩
        · simp only [arrayMachine, hb]
          rfl
        · simp only [listStep, if_pos hindex]
          exact ⟨hnext, hsame⟩
      · refine ⟨run, ?_, ?_⟩
        · have hpast : run.array.length ≤ index := by omega
          simp only [arrayMachine, arrayInsert, if_pos hpast]
          rfl
        · simp only [listStep, if_neg hindex]
          exact ⟨hsized, hsame⟩
  | pop =>
      obtain ⟨value, b, hb, hnext, hvalue⟩ :=
        @arrayPop_sized fresh _ _ hsized hlegal
      refine ⟨⟨b, run.results ++ [value]⟩, ?_, hnext, ?_⟩
      · simp only [arrayMachine, hb]
        rfl
      · exact append_singleton_iff hresults
          (arrayPop_value_iff hsized hlegal hvalue)
  | pull index =>
      by_cases hindex : index < spec.list.length
      · obtain ⟨b, hb, hnext⟩ := @arrayPull_sized fresh _ _ hsized _ hindex
        refine ⟨⟨b, run.results ++ [spec.list.getD index 0]⟩, ?_, hnext, ?_⟩
        · simp only [arrayMachine, hb]
          rfl
        · exact append_singleton_iff hresults (iff_of_true rfl trivial)
      · have hpast : spec.list.length ≤ index := by omega
        refine ⟨⟨run.array, run.results ++ [0]⟩, ?_, ?_, ?_⟩
        · have hover : run.array.length ≤ index := by omega
          simp only [arrayMachine, arrayPull, if_pos hover]
          rfl
        · simp only [listStep, List.eraseIdx_of_length_le hpast]
          exact hsized
        · refine append_singleton_iff hresults (iff_of_true ?_ trivial)
          rw [List.getD_eq_getElem?_getD, List.getElem?_eq_none hpast]
          rfl

/-- Whatever the new blocks hold, the array follows the list and never leaves
its block; what it returns is right exactly when each call of the run keeps its
value. -/
theorem Tracks.run {exact : Prop} {spec : ListRun} {run : ArrayRun}
    {calls : List ArrayCall} (htracks : Tracks exact spec run)
    (hlegal : arrayMachine.Guarded (fun run call => call.Legal run) run
      calls) :
    ∃ last, arrayMachine.run run calls = .ok last ∧
      Tracks (exact ∧ arrayMachine.Guarded (fun run call => call.Keeps run) run
        calls) (calls.foldl listStep spec) last := by
  induction calls generalizing exact spec run with
  | nil =>
      refine ⟨run, rfl, htracks.sized, ?_⟩
      exact htracks.results.trans (and_iff_left trivial).symm
  | cons call calls ih =>
      obtain ⟨next, hstep, hnext⟩ := htracks.step hlegal.1
      obtain ⟨last, hrun, hlast⟩ := ih hnext (hlegal.2 next hstep)
      refine ⟨last, Machine.run_cons_ok.mpr ⟨next, hstep, hrun⟩,
        hlast.sized, ?_⟩
      refine (hlast.results.trans and_assoc).trans ?_
      refine and_congr_right fun _ => and_congr_right fun _ => ?_
      constructor
      · intro hguard other hother
        rw [hstep] at hother
        cases hother
        exact hguard
      · exact fun hguard => hguard next hstep

/-- Every run follows the list and stays inside its blocks. It returns what the
list operations return exactly when no value is popped by a call that shrinks
the array, or the new block happens to hold the value. -/
theorem arrayMachine_run_iff {calls : List ArrayCall}
    (hlegal : arrayMachine.Guarded (fun run call => call.Legal run)
      ⟨newArray fresh, []⟩ calls) :
    ∃ last, arrayMachine.run ⟨newArray fresh, []⟩ calls = .ok last ∧
      Holds (calls.foldl listStep ⟨[], []⟩).list last.array ∧
      (last.results = (calls.foldl listStep ⟨[], []⟩).results ↔
        arrayMachine.Guarded (fun run call => call.Keeps run)
          ⟨newArray fresh, []⟩ calls) := by
  have hstart : Tracks True ⟨[], []⟩ ⟨newArray fresh, []⟩ :=
    ⟨newArray_sized, iff_of_true rfl trivial⟩
  obtain ⟨last, hrun, hlast⟩ := hstart.run hlegal
  refine ⟨last, hrun, hlast.sized.holds, ?_⟩
  rw [hlast.results, true_and]

end

/-- Eight values go in, and the last one is to come out again. -/
def boundaryCalls : List ArrayCall :=
  (List.range 8).map (fun k => ⟨.push (BitVec.ofNat 64 (k + 1)), fun _ => 0⟩) ++
    [⟨.pop, fun _ => 0⟩]

/-- The value popped is what the smaller block held before. -/
theorem arrayMachine_pops_stale :
    arrayMachine.Guarded (fun run call => call.Legal run)
        ⟨newArray fun _ => 0, []⟩ boundaryCalls ∧
      ¬ Returns (arrayMachine.run ⟨newArray fun _ => 0, []⟩ boundaryCalls)
        (fun last =>
          last.results = (boundaryCalls.foldl listStep ⟨[], []⟩).results) := by
  constructor
  · decide +kernel
  · decide +kernel

def insideCalls : List ArrayCall :=
  [⟨.push 5, fun _ => 0⟩, ⟨.insert 0 7, fun _ => 0⟩, ⟨.pop, fun _ => 0⟩]

theorem arrayMachine_run_inside :
    ∃ last, arrayMachine.run ⟨newArray fun _ => 0, []⟩ insideCalls =
        .ok last ∧
      Holds (insideCalls.foldl listStep ⟨[], []⟩).list last.array ∧
      (last.results = (insideCalls.foldl listStep ⟨[], []⟩).results ↔
        arrayMachine.Guarded (fun run call => call.Keeps run)
          ⟨newArray fun _ => 0, []⟩ insideCalls) :=
  arrayMachine_run_iff (by decide +kernel)

end Synos.Mutils

import Synos.Data.Machine
import Synos.Data.Block

namespace Synos.Mutils

open Synos.Data

/-! The growable array. A block is never so long that its length in bytes comes
near the end of the address space, and the counters are plain numbers. -/

def arrayAllocLength : Nat := 8

structure ArrayT where
  length : Nat
  arr : List (BitVec 64)
  allocLength : Nat
  deriving DecidableEq

section

/- What the cells of the next block of `kmalloc` hold beforehand. -/
variable (fresh : Nat → BitVec 64)

def arrayReallocate (a : ArrayT) (allocLength : Nat) :
    Except AccessFault ArrayT := do
  let narr ← copyCells (freshBlock fresh allocLength) a.arr 0 a.length
  pure { a with arr := narr, allocLength }

def arrayResize (a : ArrayT) : Except AccessFault ArrayT :=
  if a.allocLength ≤ a.length then
    arrayReallocate fresh a (a.allocLength + arrayAllocLength)
  else if a.length < a.allocLength - arrayAllocLength then
    arrayReallocate fresh a (a.allocLength - arrayAllocLength)
  else pure a

def arrayPush (a : ArrayT) (value : BitVec 64) : Except AccessFault ArrayT := do
  let arr ← writeCell a.arr a.length value
  arrayResize fresh { a with arr, length := a.length + 1 }

/-- The loop of `array_insert` over `i`, which counts down to `index`. -/
def insertLoop (index : Nat) :
    (i : Nat) → List (BitVec 64) → Except AccessFault (List (BitVec 64))
  | 0, arr => pure arr
  | i + 1, arr =>
      if index < i + 1 then do
        let value ← readCell arr i
        let arr ← writeCell arr (i + 1) value
        insertLoop index i arr
      else pure arr

def arrayInsert (a : ArrayT) (index : Nat) (value : BitVec 64) :
    Except AccessFault ArrayT :=
  if a.length ≤ index then pure a
  else do
    let arr ← insertLoop index a.length a.arr
    let arr ← writeCell arr index value
    arrayResize fresh { a with arr, length := a.length + 1 }

def arrayPop (a : ArrayT) : Except AccessFault (BitVec 64 × ArrayT) := do
  let a ← arrayResize fresh { a with length := a.length - 1 }
  -- past the cells that the resize has copied
  let value ← readCell a.arr a.length
  pure (value, a)

def pullLoop :
    (count i : Nat) → List (BitVec 64) → Except AccessFault (List (BitVec 64))
  | 0, _, arr => pure arr
  | count + 1, i, arr => do
      let value ← readCell arr (i + 1)
      let arr ← writeCell arr i value
      pullLoop count (i + 1) arr

def arrayPull (a : ArrayT) (index : Nat) :
    Except AccessFault (BitVec 64 × ArrayT) :=
  if a.length ≤ index then pure (0, a)
  else do
    let value ← readCell a.arr index
    let arr ← pullLoop (a.length - 1 - index) index a.arr
    let a ← arrayResize fresh { a with arr, length := a.length - 1 }
    pure (value, a)

def newArray : ArrayT :=
  ⟨0, freshBlock fresh arrayAllocLength, arrayAllocLength⟩

end

/-! ### Runs -/

inductive ArrayOp
  | push (value : BitVec 64)
  | insert (index : Nat) (value : BitVec 64)
  | pop
  | pull (index : Nat)

/-- An operation, with what the block it may take holds beforehand. -/
structure ArrayCall where
  op : ArrayOp
  fresh : Nat → BitVec 64

/-- The array, and what `pop` and `pull` have returned so far. -/
structure ArrayRun where
  array : ArrayT
  results : List (BitVec 64)
  deriving DecidableEq

def arrayMachine : Machine AccessFault ArrayRun ArrayCall where
  step run call :=
    match call.op with
    | .push value => do
        let array ← arrayPush call.fresh run.array value
        pure { run with array }
    | .insert index value => do
        let array ← arrayInsert call.fresh run.array index value
        pure { run with array }
    | .pop => do
        let (value, array) ← arrayPop call.fresh run.array
        pure ⟨array, run.results ++ [value]⟩
    | .pull index => do
        let (value, array) ← arrayPull call.fresh run.array index
        pure ⟨array, run.results ++ [value]⟩

/-- A list, and what has been taken out of it. -/
structure ListRun where
  list : List (BitVec 64)
  results : List (BitVec 64)

/-- The operations on lists, which past the end of one do nothing. -/
def listStep (run : ListRun) (call : ArrayCall) : ListRun :=
  match call.op with
  | .push value => { run with list := run.list ++ [value] }
  | .insert index value =>
      if index < run.list.length then
        { run with list := run.list.insertIdx index value }
      else run
  | .pop =>
      ⟨run.list.dropLast, run.results ++ [run.list.getLastD 0]⟩
  | .pull index =>
      ⟨run.list.eraseIdx index, run.results ++ [run.list.getD index 0]⟩

/-- There is something to pop. -/
def ArrayCall.Legal (run : ArrayRun) (call : ArrayCall) : Prop :=
  match call.op with
  | .pop => 0 < run.array.length
  | _ => True

/-- The array does not shrink at this `pop`, or the new block happens to hold
the value already. -/
def ArrayCall.Keeps (run : ArrayRun) (call : ArrayCall) : Prop :=
  match call.op with
  | .pop => ¬ arrayAllocLength ∣ run.array.length ∨
      run.array.arr[run.array.length - 1]? =
        some (call.fresh (run.array.length - 1))
  | _ => True

instance (run : ArrayRun) : (call : ArrayCall) → Decidable (call.Legal run)
  | ⟨.pop, _⟩ => inferInstanceAs (Decidable (_ < _))
  | ⟨.push _, _⟩ => .isTrue trivial
  | ⟨.insert _ _, _⟩ => .isTrue trivial
  | ⟨.pull _, _⟩ => .isTrue trivial

instance (run : ArrayRun) : (call : ArrayCall) → Decidable (call.Keeps run)
  | ⟨.pop, _⟩ => inferInstanceAs (Decidable (_ ∨ _))
  | ⟨.push _, _⟩ => .isTrue trivial
  | ⟨.insert _ _, _⟩ => .isTrue trivial
  | ⟨.pull _, _⟩ => .isTrue trivial

/-- The array holds the list in a block with room for one more value. -/
structure Holds (list : List (BitVec 64)) (a : ArrayT) : Prop where
  length : a.length = list.length
  cells : a.arr.take a.length = list
  block : a.arr.length = a.allocLength
  room : a.length < a.allocLength

end Synos.Mutils

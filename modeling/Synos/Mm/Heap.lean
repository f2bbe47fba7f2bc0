import Synos.Data.Bytes
import Synos.Data.Walk
import Synos.Page.LogOrder
import Synos.Paging.Vpage

namespace Synos.Mm

open Synos.Data
open Synos.Page
open Synos.Paging (virtPageSize)

/-! The kernel heap: headers linked in a list, each followed by the chain of
pointers that its pages are cut into.  The globals `heap_start` and
`pointer_start`, which nothing reads after `mm_init`, are left out. -/

def mheaderSize : Nat := 24

def mpointerSize : Nat := 16

structure Kernel where
  memory : Memory
  headerStart : Nat
  mmuEnabled : Bool
  memStackInit : Bool
  memStackEnable : Bool
  memStack : Nat

def headerSize (memory : Memory) (h : Nat) : Nat := load64 memory h

def headerSizeMax (memory : Memory) (h : Nat) : Nat := load64 memory (h + 8)

def headerNext (memory : Memory) (h : Nat) : Nat := load64 memory (h + 16)

/-- A size of zero marks an allocated pointer. -/
def pointerSize (memory : Memory) (p : Nat) : Nat := load64 memory p

def pointerNext (memory : Memory) (p : Nat) : Nat := load64 memory (p + 8)

def memstckDisable (kernel : Kernel) : Kernel :=
  { kernel with memStackEnable := false }

/-- `memEnd` is the linker's end of the kernel image, `_MemEnd`. -/
def memstckMalloc (memEnd : Nat) (kernel : Kernel) (bytes : Nat) :
    Kernel × Nat :=
  if kernel.memStackEnable = false then (kernel, 0)
  else
    let started :=
      if kernel.memStackInit = false then
        { kernel with memStack := wordAdd memEnd 64, memStackInit := true }
      else kernel
    if 0x200000 ≤ started.memStack then (memstckDisable started, 0)
    else if 0x200000 ≤ wordAdd started.memStack bytes then (started, 0)
    else
      ({ started with
          memStack := wordAdd started.memStack (wordAdd bytes 1)
          memory :=
            setBytes started.memory (wordAdd started.memStack bytes) 0 1 },
        started.memStack)

/-- `heapPage` is what `__get_free_page` returns for the first heap page, after
`vpage_init` and `ppage_init`. -/
def mmInit (kernel : Kernel) (heapPage : Nat) : Except Fault Kernel :=
  if heapPage = 0 then .error .panic
  else
    let sizeMax := wordSub (wordSub virtPageSize mheaderSize) mpointerSize
    let pointerStart := wordAdd heapPage mheaderSize
    let sized := store64 kernel.memory heapPage virtPageSize
    let limited := store64 sized (heapPage + 8) sizeMax
    let ended := store64 limited (heapPage + 16) 0
    let opened := store64 ended pointerStart sizeMax
    .ok (memstckDisable
      { kernel with
        memory := store64 opened (pointerStart + 8) 0
        headerStart := heapPage
        mmuEnabled := true })

def findSizeMax (memory : Memory) (header : Nat) : Except Fault Nat :=
  foldList (pointerNext memory)
    (fun max p => if max < pointerSize memory p then pointerSize memory p else max)
    wordSize 0 (wordAdd header mheaderSize)

/-- `p` takes in its next pointer. -/
def mergeNext (memory : Memory) (p : Nat) : Memory :=
  let grown := store64 memory p
    (wordAdd (pointerSize memory p)
      (pointerSize memory (pointerNext memory p)))
  store64 grown (p + 8) (pointerNext grown (pointerNext grown p))

def mergeFrom : (fuel : Nat) → Memory → (p : Nat) → Except Fault Memory
  | 0, _, _ => .error .endlessLoop
  | fuel + 1, memory, p =>
      let next := pointerNext memory p
      if next = 0 then .ok memory
      else if 0 < pointerSize memory p ∧ 0 < pointerSize memory next then
        mergeFrom fuel (mergeNext memory p) p
      else mergeFrom fuel memory next

def pointersMerge (memory : Memory) (pointerS : Nat) : Except Fault Memory :=
  mergeFrom wordSize memory pointerS

def updateSizeMax (kernel : Kernel) (memory : Memory) (h : Nat) :
    Except Fault Kernel :=
  match findSizeMax memory h with
  | .error fault => .error fault
  | .ok max => .ok { kernel with memory := store64 memory (h + 8) max }

theorem updateSizeMax_eq_ok {kernel updated : Kernel} {memory : Memory}
    {h : Nat} (hcall : updateSizeMax kernel memory h = .ok updated) :
    ∃ max, updated = { kernel with memory := store64 memory (h + 8) max } := by
  rw [updateSizeMax] at hcall
  split at hcall
  · cases hcall
  · rename_i max _
    exact ⟨max, (Except.ok.inj hcall).symm⟩

def splitPointer (memory : Memory) (p bytes : Nat) : Except Fault Memory :=
  let address := wordAdd p mpointerSize
  if mpointerSize < wordSub (pointerSize memory p) bytes then
    let newp := wordAdd address bytes
    if newp = 0 then .error .nullDereference
    else
      let linked := store64 memory (newp + 8) (pointerNext memory p)
      let sized := store64 linked newp
        (wordSub (wordSub (pointerSize linked p) bytes) mpointerSize)
      .ok (store64 sized (p + 8) newp)
  else .ok memory

def kmallocFrom (kernel : Kernel) (memory : Memory) (h bytes : Nat) :
    Except Fault (Kernel × Nat) :=
  match searchList (pointerNext memory)
      (fun p => decide (bytes ≤ pointerSize memory p))
      wordSize 0 (wordAdd h mheaderSize) with
  | .error fault => .error fault
  | .ok (p, _) =>
      if p = 0 then .error .nullDereference
      else
        match splitPointer memory p bytes with
        | .error fault => .error fault
        | .ok split =>
            match updateSizeMax kernel (store64 split p 0) h with
            | .error fault => .error fault
            | .ok served => .ok (served, wordAdd p mpointerSize)

def growOrder (bytes : Nat) : Nat :=
  logOrder
    (word (bytes + mheaderSize + mpointerSize + (virtPageSize - 1)) /
      virtPageSize)

/-- `ORDER(order) * virt_page_size`.  An `int` shift by 31 and more, which C
leaves undefined, is taken as exact. -/
def growSize (order : Nat) : Nat := word (2 ^ order * virtPageSize)

def addHeader (memory : Memory) (h order : Nat) : Memory :=
  let p := wordAdd h mheaderSize
  let sized := store64 memory h (growSize order)
  let limited := store64 sized (h + 8)
    (wordSub (wordSub (headerSize sized h) mheaderSize) mpointerSize)
  let ended := store64 limited (h + 16) 0
  let opened := store64 ended p (headerSize ended h)
  store64 opened (p + 8) 0

/-- `getFreePages` is `__get_free_pages` at the time of the call. -/
def kmalloc (memEnd : Nat) (getFreePages : (order : Nat) → Nat)
    (kernel : Kernel) (bytes : Nat) : Except Fault (Kernel × Nat) :=
  if bytes = 0 then .ok (kernel, 0)
  else if kernel.mmuEnabled = false then
    .ok (memstckMalloc memEnd kernel bytes)
  else
    match searchList (headerNext kernel.memory)
        (fun h => decide (bytes ≤ headerSizeMax kernel.memory h))
        wordSize 0 kernel.headerStart with
    | .error fault => .error fault
    | .ok (h, hl) =>
        if h ≠ 0 then kmallocFrom kernel kernel.memory h bytes
        else if hl = 0 then .error .nullDereference
        else
          let order := growOrder bytes
          let grown := store64 kernel.memory (hl + 16) (getFreePages order)
          let new := headerNext grown hl
          if new = 0 then .ok ({ kernel with memory := grown }, 0)
          else kmallocFrom kernel (addHeader grown new order) new bytes

/-- `p + sizeof(mpointer_t)` on a pointer to `mpointer_t` is scaled by the size
of the type. -/
def pointerAhead (p : Nat) : Nat := wordAdd p (mpointerSize * mpointerSize)

/-- The block's pointer gets its size back, and as many bytes are wiped. -/
def wipe (memory : Memory) (p address : Nat) : Memory :=
  let freed := store64 memory p (wordSub (pointerNext memory p) address)
  setBytes freed address 0 (pointerSize freed p)

def kfreeFrom (kernel : Kernel) (h p address : Nat) : Except Fault Kernel :=
  match pointersMerge (wipe kernel.memory p address)
      (wordAdd h mheaderSize) with
  | .error fault => .error fault
  | .ok merged => updateSizeMax kernel merged h

def kfree (kernel : Kernel) (address : Nat) : Except Fault Kernel :=
  if kernel.mmuEnabled = false then .ok kernel
  else
    match searchList (headerNext kernel.memory)
        (fun h => decide (h < address ∧
          address < wordAdd h (headerSize kernel.memory h)))
        wordSize 0 kernel.headerStart with
    | .error fault => .error fault
    | .ok (h, _) =>
        if h = 0 then .ok kernel
        else
          match searchList (pointerNext kernel.memory)
              (fun p => decide (pointerAhead p = address))
              wordSize 0 (wordAdd h mheaderSize) with
          | .error fault => .error fault
          | .ok (p, _) =>
              if p = 0 then .ok kernel else kfreeFrom kernel h p address

end Synos.Mm

import Synos.Data.Machine
import Synos.Data.Block
import Synos.Data.Word

namespace Synos.Mutils

open Synos.Data

/-! The string buffer, with `size_t` counters. -/

def stringAllocLength : Nat := 64

structure StringT where
  str : List UInt8
  length : Nat
  allocLength : Nat
  deriving DecidableEq

def stringGrow (fresh : Nat → UInt8) (s : StringT) (length : Nat) :
    Except AccessFault StringT :=
  if wordSub s.allocLength s.length < word (length + 1) then do
    let allocLength := word (s.allocLength + stringAllocLength)
    let newstr ← copyCells (freshBlock fresh allocLength) s.str 0 s.length
    pure { s with str := newstr, allocLength }
  else pure s

def stringPut (s : StringT) (str : List UInt8) (length : Nat) :
    Except AccessFault StringT := do
  let copied ← copyCells s.str str s.length length
  let ended ← writeCell copied (word (s.length + length)) 0
  pure { s with str := ended, length := word (s.length + length) }

/-- `string_append`; `fresh` is what the next block of `kmalloc` holds. -/
def stringAppend (fresh : Nat → UInt8) (s : StringT) (str : List UInt8)
    (length : Nat) : Except AccessFault StringT := do
  let s ← stringGrow fresh s length
  stringPut s str length

def newString (fresh : Nat → UInt8) : StringT :=
  ⟨freshBlock fresh stringAllocLength, 0, stringAllocLength⟩

/-! ### Runs -/

/-- A byte string with a length in `size_t`, and what the next block holds. -/
structure AppendCall where
  bytes : List UInt8
  fresh : Nat → UInt8
  fits : bytes.length < wordSize

def stringMachine : Machine AccessFault StringT AppendCall where
  step s call := stringAppend call.fresh s call.bytes call.bytes.length

/-- The block has room as it is, or when it has grown once. -/
def AppendCall.HasRoom (s : StringT) (call : AppendCall) : Prop :=
  s.length + call.bytes.length + 1 ≤ s.allocLength ∨
    s.length + call.bytes.length + 1 ≤ s.allocLength + stringAllocLength ∧
      s.allocLength + stringAllocLength < wordSize

instance (s : StringT) (call : AppendCall) : Decidable (call.HasRoom s) :=
  inferInstanceAs (Decidable (_ ∨ _ ∧ _))

/-- The buffer spells the text, with a zero behind it. -/
structure Spells (text : List UInt8) (s : StringT) : Prop where
  length : s.length = text.length
  cells : s.str.take s.length = text
  ends : s.str[s.length]? = some 0
  block : s.str.length = s.allocLength
  room : s.length < s.allocLength

/-- The buffer holds the text, also before the first append. -/
structure Built (text : List UInt8) (s : StringT) : Prop where
  length : s.length = text.length
  cells : ∀ k < text.length, s.str[k]? = text[k]?
  block : s.str.length = s.allocLength
  room : s.length < s.allocLength
  small : s.allocLength < wordSize

section

variable {fresh : Nat → UInt8} {text bytes : List UInt8} {s : StringT}

theorem newString_built : Built [] (newString fresh) where
  length := rfl
  cells k hk := by cases hk
  block := length_freshBlock _ _
  room := by
    simp only [newString, stringAllocLength]
    omega
  small := by
    simp only [newString, stringAllocLength, wordSize]
    omega

theorem stringPut_ok (hbuilt : Built text s)
    (hroom : s.length + bytes.length < s.allocLength) :
    ∃ next, stringPut s bytes bytes.length = .ok next ∧
      Built (text ++ bytes) next ∧ next.str[next.length]? = some 0 := by
  have htext := hbuilt.length
  have hblock := hbuilt.block
  have hsmall := hbuilt.small
  obtain ⟨copied, hcopy, hlength, hcells⟩ :=
    @exists_copyCells _ bytes s.str s.length bytes.length (Nat.le_refl _)
      (by omega)
  have hword : word (s.length + bytes.length) = s.length + bytes.length :=
    word_of_lt (by omega)
  have hwrite := @writeCell_of_lt _ copied (s.length + bytes.length) 0
    (by omega)
  refine ⟨⟨copied.set (s.length + bytes.length) 0, s.length + bytes.length,
    s.allocLength⟩, ?_, ⟨?_, ?_, ?_, hroom, hsmall⟩, ?_⟩
  · rw [stringPut, hcopy, hword]
    simp only [bind, Except.bind, hwrite]
    rfl
  · rw [List.length_append, ← htext]
  · intro k hk
    rw [List.length_append] at hk
    rw [List.getElem?_set_ne (by omega), hcells, List.getElem?_append]
    by_cases hold : k < text.length
    · rw [if_neg (by omega), if_pos hold, hbuilt.cells k hold]
    · rw [if_pos (by omega), if_neg hold, htext]
  · rw [List.length_set, hlength, hblock]
  · exact List.getElem?_set_self (by omega)

theorem stringPut_error (hshort : s.str.length ≤ s.length + bytes.length)
    (hsmall : s.str.length < wordSize) :
    stringPut s bytes bytes.length = .error .outOfBounds := by
  rw [stringPut]
  by_cases hcopies : s.length + bytes.length ≤ s.str.length
  · obtain ⟨copied, hcopy, hlength, -⟩ :=
      @exists_copyCells _ bytes s.str s.length bytes.length (Nat.le_refl _)
        hcopies
    have hword : word (s.length + bytes.length) = s.length + bytes.length :=
      word_of_lt (by omega)
    have hwrite := @writeCell_outside _ copied (s.length + bytes.length) 0
      (by omega)
    rw [hcopy, hword]
    simp only [bind, Except.bind, hwrite]
  · rw [copyCells_outside (by omega)]
    rfl

theorem Built.moved (hbuilt : Built text s) {contents : Nat → UInt8}
    {allocLength : Nat} (hroom : s.length < allocLength)
    (hsmall : allocLength < wordSize) :
    ∃ newstr, copyCells (freshBlock contents allocLength) s.str 0 s.length =
        .ok newstr ∧ Built text ⟨newstr, s.length, allocLength⟩ := by
  have htext := hbuilt.length
  have hblock := hbuilt.block
  have hold := hbuilt.room
  obtain ⟨newstr, hcopy, hlength, hcells⟩ :=
    @exists_copyCells _ s.str (freshBlock contents allocLength) 0 s.length
      (by omega) (by rw [length_freshBlock]; omega)
  rw [length_freshBlock] at hlength
  refine ⟨newstr, hcopy, htext, ?_, hlength, hroom, hsmall⟩
  intro k hk
  rw [hcells, if_pos (by omega), Nat.sub_zero, hbuilt.cells k hk]

/-- With the length of the bytes in `size_t`, the sum in the test wraps only to
zero. -/
theorem AppendCall.word_succ (call : AppendCall) :
    word (call.bytes.length + 1) = call.bytes.length + 1 ∨
      word (call.bytes.length + 1) = 0 ∧
        call.bytes.length + 1 = wordSize := by
  have hfits := call.fits
  by_cases hlast : call.bytes.length + 1 = wordSize
  · right
    rw [hlast]
    exact ⟨Nat.mod_self _, rfl⟩
  · left
    exact word_of_lt (by omega)

theorem stringGrow_ok (hbuilt : Built text s) {call : AppendCall}
    (hroom : call.HasRoom s) :
    ∃ next, stringGrow call.fresh s call.bytes.length = .ok next ∧
      Built text next ∧
      next.length + call.bytes.length < next.allocLength := by
  have hlt := hbuilt.room
  have hsmall := hbuilt.small
  have hword := call.word_succ
  rw [AppendCall.HasRoom] at hroom
  rw [stringGrow, wordSub_of_le (Nat.le_of_lt hlt) hsmall]
  by_cases hgrows : s.allocLength - s.length < word (call.bytes.length + 1)
  · have hfits : s.allocLength + stringAllocLength < wordSize := by omega
    obtain ⟨newstr, hcopy, hnew⟩ := @Built.moved _ _ hbuilt call.fresh
      (s.allocLength + stringAllocLength) (by omega) hfits
    rw [if_pos hgrows, word_of_lt hfits]
    simp only [bind, Except.bind, hcopy]
    exact ⟨_, rfl, hnew, by simp only; omega⟩
  · rw [if_neg hgrows]
    exact ⟨s, rfl, hbuilt, by omega⟩

theorem word_grown_le {allocLength : Nat} (hsmall : allocLength < wordSize)
    (hwraps : ¬ allocLength + stringAllocLength < wordSize) :
    word (allocLength + stringAllocLength) ≤ allocLength := by
  simp only [word, wordSize, stringAllocLength] at *
  omega

/-- Without room, growing leaves the block too short, or even too short for what
is in it already. -/
theorem stringGrow_short (hbuilt : Built text s) {call : AppendCall}
    (hroom : ¬ call.HasRoom s) :
    stringGrow call.fresh s call.bytes.length = .error .outOfBounds ∨
      ∃ next, stringGrow call.fresh s call.bytes.length = .ok next ∧
        next.str.length ≤ next.length + call.bytes.length ∧
        next.str.length < wordSize := by
  have hlt := hbuilt.room
  have hsmall := hbuilt.small
  have hblock := hbuilt.block
  have hword := call.word_succ
  rw [AppendCall.HasRoom, not_or, not_and] at hroom
  obtain ⟨hfull, hgrown⟩ := hroom
  rw [stringGrow, wordSub_of_le (Nat.le_of_lt hlt) hsmall]
  by_cases hgrows : s.allocLength - s.length < word (call.bytes.length + 1)
  · rw [if_pos hgrows]
    have hfew : word (s.allocLength + stringAllocLength) ≤
        s.length + call.bytes.length := by
      by_cases hfits : s.allocLength + stringAllocLength < wordSize
      · rw [word_of_lt hfits]
        omega
      · have hless := word_grown_le hsmall hfits
        omega
    have hnew := word_lt (s.allocLength + stringAllocLength)
    generalize word (s.allocLength + stringAllocLength) = allocLength at *
    have hcount := length_freshBlock call.fresh allocLength
    by_cases hmoves : s.length ≤ allocLength
    · obtain ⟨newstr, hcopy, hlength, -⟩ :=
        @exists_copyCells _ s.str (freshBlock call.fresh allocLength) 0
          s.length (by omega) (by omega)
      simp only [bind, Except.bind, hcopy]
      exact .inr ⟨_, rfl, by simp only; omega, by simp only; omega⟩
    · have hcopy := @copyCells_outside _ s.str
        (freshBlock call.fresh allocLength) 0 s.length (by omega)
      simp only [bind, Except.bind, hcopy]
      exact .inl trivial
  · rw [if_neg hgrows]
    exact .inr ⟨s, rfl, by omega, by omega⟩

theorem step_ok (hbuilt : Built text s) {call : AppendCall}
    (hroom : call.HasRoom s) :
    ∃ next, stringMachine.step s call = .ok next ∧
      Built (text ++ call.bytes) next ∧
      next.str[next.length]? = some 0 := by
  obtain ⟨grown, hgrow, hgrown, hfree⟩ := stringGrow_ok hbuilt hroom
  obtain ⟨next, hput, hnext⟩ := stringPut_ok hgrown hfree
  refine ⟨next, ?_, hnext⟩
  simp only [stringMachine, stringAppend, hgrow]
  exact hput

theorem step_error (hbuilt : Built text s) {call : AppendCall}
    (hroom : ¬ call.HasRoom s) :
    stringMachine.step s call = .error .outOfBounds := by
  simp only [stringMachine, stringAppend]
  rcases stringGrow_short hbuilt hroom with
    herror | ⟨grown, hgrow, hshort, hsmall⟩
  · rw [herror]
    rfl
  · rw [hgrow]
    exact stringPut_error hshort hsmall

theorem Built.spells (hbuilt : Built text s)
    (hends : s.str[s.length]? = some 0) : Spells text s where
  length := hbuilt.length
  cells := by
    rw [hbuilt.length]
    exact take_eq_iff.mpr hbuilt.cells
  ends := hends
  block := hbuilt.block
  room := hbuilt.room

/-- From any text on, the run spells all that was appended exactly when there is
room each time. -/
theorem Built.run_iff {calls : List AppendCall} {call : AppendCall}
    (hbuilt : Built text s) :
    Returns (stringMachine.run s (calls ++ [call]))
        (Spells (text ++ (calls ++ [call]).flatMap AppendCall.bytes)) ↔
      stringMachine.Guarded (fun s call => call.HasRoom s) s
        (calls ++ [call]) := by
  induction calls generalizing text s with
  | nil =>
      rw [List.nil_append, List.flatMap_singleton, Machine.run]
      by_cases hroom : call.HasRoom s
      · obtain ⟨next, hstep, hnext, hends⟩ := step_ok hbuilt hroom
        rw [hstep]
        exact iff_of_true (hnext.spells hends) ⟨hroom, fun _ _ => trivial⟩
      · rw [step_error hbuilt hroom]
        exact iff_of_false id (fun hguard => hroom hguard.1)
  | cons first calls ih =>
      rw [List.cons_append, List.flatMap_cons, ← List.append_assoc,
        Machine.run]
      by_cases hroom : first.HasRoom s
      · obtain ⟨next, hstep, hnext, -⟩ := step_ok hbuilt hroom
        rw [hstep]
        refine (ih hnext).trans ?_
        constructor
        · intro hguard
          refine ⟨hroom, ?_⟩
          intro other hother
          rw [hstep] at hother
          cases hother
          exact hguard
        · exact fun hguard => hguard.2 next hstep
      · rw [step_error hbuilt hroom]
        exact iff_of_false id (fun hguard => hroom hguard.1)

end

/-- After each append the buffer spells what has been appended, and no access
has left its block, exactly when each append finds room for its bytes and a
zero, or does so after the block has grown once. -/
theorem stringMachine_run_iff (fresh : Nat → UInt8) (calls : List AppendCall)
    (call : AppendCall) :
    Returns (stringMachine.run (newString fresh) (calls ++ [call]))
        (Spells ((calls ++ [call]).flatMap AppendCall.bytes)) ↔
      stringMachine.Guarded (fun s call => call.HasRoom s) (newString fresh)
        (calls ++ [call]) :=
  newString_built.run_iff

theorem length_replicate_lt (c : UInt8) :
    (List.replicate 128 c).length < wordSize := by
  rw [List.length_replicate, wordSize]
  omega

/-- As many bytes as the first block has after growing. -/
def longCall : AppendCall where
  bytes := List.replicate 128 0x61
  fresh _ := 0
  fits := length_replicate_lt 0x61

/-- The zero behind the bytes is written past the end of the block. -/
theorem stringMachine_overflows :
    ¬ Returns (stringMachine.run (newString fun _ => 0) ([] ++ [longCall]))
      (Spells (([] ++ [longCall]).flatMap AppendCall.bytes)) := by
  have herror : stringMachine.run (newString fun _ => 0) ([] ++ [longCall]) =
      .error .outOfBounds := by
    decide +kernel
  rw [herror]
  exact id

end Synos.Mutils

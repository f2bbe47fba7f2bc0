import Synos.Mutils.String

namespace Synos.Mutils

open Synos.Data

/-! Strings in blocks, and the string buffer as it is where each append finds
room. -/

def strlen : List UInt8 → Except AccessFault Nat
  | [] => .error .outOfBounds
  | c :: rest =>
      if c = 0 then .ok 0
      else do
        let length ← strlen rest
        pure (length + 1)

/-- A `string_t` whose block grows as needed: its first `length` bytes, and what
is in the block behind them. -/
structure GrowingString where
  text : List UInt8
  behind : List UInt8

namespace GrowingString

def str (s : GrowingString) : List UInt8 := s.text ++ s.behind

def new (fresh : Nat → UInt8) : GrowingString :=
  ⟨[], freshBlock fresh stringAllocLength⟩

def append (s : GrowingString) (str : List UInt8) (length : Nat) :
    Except AccessFault GrowingString :=
  if length ≤ str.length then
    .ok ⟨s.text ++ str.take length, 0 :: s.behind.drop (length + 1)⟩
  else .error .outOfBounds

end GrowingString

section

variable {text rest block : List UInt8}

theorem strlen_text (htext : ∀ c ∈ text, c ≠ 0) :
    strlen (text ++ 0 :: rest) = .ok text.length := by
  induction text with
  | nil => rfl
  | cons c text ih =>
      rw [List.cons_append, strlen, if_neg (htext c (.head _)),
        ih fun other hother => htext other (.tail _ hother)]
      rfl

theorem strlen_unterminated (hblock : ∀ c ∈ block, c ≠ 0) :
    strlen block = .error .outOfBounds := by
  induction block with
  | nil => rfl
  | cons c block ih =>
      rw [strlen, if_neg (hblock c (.head _)),
        ih fun other hother => hblock other (.tail _ hother)]
      rfl

theorem GrowingString.exists_append (s : GrowingString) {str : List UInt8}
    {length : Nat} (hlength : length ≤ str.length) :
    ∃ out, s.append str length = .ok out ∧
      out.text = s.text ++ str.take length ∧
      out.behind = 0 :: s.behind.drop (length + 1) :=
  ⟨_, if_pos hlength, rfl, rfl⟩

end

/-! What the string of a message has to offer. It may grow as needed, or be a
`string_t`, for which `string_append` adds to the block once. -/

class StringBuffer (S : Type) where
  /-- `blocks` is what the blocks of `kmalloc` hold, one after the other. -/
  new : (blocks : Nat → Nat → UInt8) → S
  append : S → (str : List UInt8) → (length : Nat) → Except AccessFault S
  /-- The block that `str` points to. -/
  str : S → List UInt8
  /-- Its first `length` bytes. -/
  text : S → List UInt8

namespace StringBuffer

variable {S : Type} [StringBuffer S]

/-- `append` of a string up to its zero. -/
def appendString (s : S) (str : List UInt8) : Except AccessFault S := do
  let length ← strlen str
  append s str length

end StringBuffer

/-- `Takes s text segments` says that the string holds the text, and has room for
the segments when they are appended one after the other. -/
class LawfulStringBuffer (S : Type) [StringBuffer S] where
  Takes : S → (text : List UInt8) → (segments : List (List UInt8)) → Prop
  text_eq : ∀ {s text segments}, Takes s text segments →
    StringBuffer.text s = text
  append_ok : ∀ {s text segments str} {length : Nat},
    Takes s text (str.take length :: segments) → length ≤ str.length →
    ∃ out, StringBuffer.append s str length = .ok out ∧
      Takes out (text ++ str.take length) segments

instance : StringBuffer GrowingString where
  new blocks := .new (blocks 0)
  append := GrowingString.append
  str := GrowingString.str
  text := GrowingString.text

instance : LawfulStringBuffer GrowingString where
  Takes s text _ := s.text = text
  text_eq htakes := htakes
  append_ok := by
    intro s text segments str length htakes hlength
    obtain ⟨out, happend, hout, -⟩ := s.exists_append hlength
    exact ⟨out, happend, htakes ▸ hout⟩

/-- A `string_t`, and what the blocks hold that `kmalloc` will give it. -/
structure AllocString where
  string : StringT
  blocks : Nat → Nat → UInt8

instance : StringBuffer AllocString where
  new blocks := ⟨newString (blocks 0), fun block => blocks (block + 1)⟩
  append s str length := do
    let string ← stringAppend (s.blocks 0) s.string str length
    pure ⟨string, fun block => s.blocks (block + 1)⟩
  str s := s.string.str
  text s := s.string.str.take s.string.length

/-- Each segment finds room for its bytes and a zero in the block as it is, or
when the block has grown once. -/
def Roomy : (length allocLength : Nat) → (segments : List (List UInt8)) → Prop
  | _, _, [] => True
  | length, allocLength, segment :: segments =>
      if length + segment.length < allocLength then
        Roomy (length + segment.length) allocLength segments
      else
        (length + segment.length < allocLength + stringAllocLength ∧
          allocLength + stringAllocLength < wordSize) ∧
          Roomy (length + segment.length) (allocLength + stringAllocLength)
            segments

def decideRoomy : (length allocLength : Nat) →
    (segments : List (List UInt8)) → Decidable (Roomy length allocLength segments)
  | _, _, [] => .isTrue trivial
  | length, allocLength, segment :: segments =>
      have := decideRoomy (length + segment.length) allocLength segments
      have := decideRoomy (length + segment.length)
        (allocLength + stringAllocLength) segments
      inferInstanceAs (Decidable
        (if length + segment.length < allocLength then
          Roomy (length + segment.length) allocLength segments
        else
          (length + segment.length < allocLength + stringAllocLength ∧
            allocLength + stringAllocLength < wordSize) ∧
            Roomy (length + segment.length) (allocLength + stringAllocLength)
              segments))

instance (length allocLength : Nat) (segments : List (List UInt8)) :
    Decidable (Roomy length allocLength segments) :=
  decideRoomy length allocLength segments

section

variable {fresh : Nat → UInt8} {text str : List UInt8} {s next : StringT}
  {length : Nat}

theorem stringAppend_take (hlength : length ≤ str.length) :
    stringAppend fresh s (str.take length) length =
      stringAppend fresh s str length := by
  simp only [stringAppend, stringPut, copyCells_take hlength]

theorem stringGrow_allocLength (hbuilt : Built text s)
    (hgrow : stringGrow fresh s length = .ok next)
    (hword : word (length + 1) = length + 1) :
    next.allocLength =
      if s.length + length < s.allocLength then s.allocLength
      else word (s.allocLength + stringAllocLength) := by
  have hlt := hbuilt.room
  rw [stringGrow, wordSub_of_le (Nat.le_of_lt hlt) hbuilt.small, hword] at hgrow
  split at hgrow
  · rw [if_neg (by omega)]
    cases hcopy : copyCells (freshBlock fresh
        (word (s.allocLength + stringAllocLength))) s.str 0 s.length with
    | error fault =>
        simp only [hcopy] at hgrow
        cases hgrow
    | ok newstr =>
        simp only [hcopy] at hgrow
        cases hgrow
        rfl
  · cases hgrow
    rw [if_pos (by omega)]

theorem stringPut_allocLength (hput : stringPut s str length = .ok next) :
    next.allocLength = s.allocLength := by
  cases hcopy : copyCells s.str str s.length length with
  | error fault =>
      rw [stringPut, hcopy] at hput
      cases hput
  | ok copied =>
      cases hwrite : writeCell copied (word (s.length + length)) 0 with
      | error fault =>
          simp only [stringPut, hcopy, bind, Except.bind, hwrite] at hput
          cases hput
      | ok ended =>
          simp only [stringPut, hcopy, bind, Except.bind, hwrite] at hput
          cases hput
          rfl

theorem stringAppend_allocLength (hbuilt : Built text s)
    (happend : stringAppend fresh s str length = .ok next)
    (hword : word (length + 1) = length + 1) :
    next.allocLength =
      if s.length + length < s.allocLength then s.allocLength
      else word (s.allocLength + stringAllocLength) := by
  cases hgrow : stringGrow fresh s length with
  | error fault =>
      rw [stringAppend, hgrow] at happend
      cases happend
  | ok grown =>
      rw [stringAppend, hgrow] at happend
      rw [stringPut_allocLength happend,
        stringGrow_allocLength hbuilt hgrow hword]

theorem stringAppend_takes {segments : List (List UInt8)}
    (hbuilt : Built text s)
    (hroomy : Roomy s.length s.allocLength (str.take length :: segments))
    (hlength : length ≤ str.length) :
    ∃ next, stringAppend fresh s str length = .ok next ∧
      Built (text ++ str.take length) next ∧
      Roomy next.length next.allocLength segments := by
  have hsmall := hbuilt.small
  have hcount : (str.take length).length = length := by
    rw [List.length_take, Nat.min_eq_left hlength]
  rw [Roomy, hcount] at hroomy
  have hroom : s.length + length + 1 ≤ s.allocLength ∨
      s.length + length + 1 ≤ s.allocLength + stringAllocLength ∧
        s.allocLength + stringAllocLength < wordSize := by
    split at hroomy
    · exact .inl (by omega)
    · exact .inr ⟨by omega, hroomy.1.2⟩
  obtain ⟨next, hstep, hnext, -⟩ := @step_ok _ _ hbuilt
    ⟨str.take length, fresh, by rw [hcount]; omega⟩
    (by rw [AppendCall.HasRoom, hcount]; exact hroom)
  simp only [stringMachine, hcount, stringAppend_take hlength] at hstep
  refine ⟨next, hstep, hnext, ?_⟩
  rw [stringAppend_allocLength hbuilt hstep (word_of_lt (by omega)),
    hnext.length, List.length_append, hcount, ← hbuilt.length]
  split at hroomy
  · next hfits =>
      rw [if_pos hfits]
      exact hroomy
  · next hfull =>
      rw [if_neg hfull, word_of_lt hroomy.1.2]
      exact hroomy.2

end

instance : LawfulStringBuffer AllocString where
  Takes s text segments := Built text s.string ∧
    Roomy s.string.length s.string.allocLength segments
  text_eq := by
    rintro s text segments ⟨hbuilt, -⟩
    change s.string.str.take s.string.length = text
    rw [hbuilt.length]
    exact take_eq_iff.mpr hbuilt.cells
  append_ok := by
    rintro s text segments str length ⟨hbuilt, hroomy⟩ hlength
    obtain ⟨next, happend, hnext⟩ :=
      @stringAppend_takes (s.blocks 0) _ _ _ _ _ hbuilt hroomy hlength
    refine ⟨⟨next, fun block => s.blocks (block + 1)⟩, ?_, hnext⟩
    simp only [StringBuffer.append, happend]
    rfl

section

variable {S : Type} [StringBuffer S] [LawfulStringBuffer S] {s : S}
  {text bytes rest : List UInt8} {segments : List (List UInt8)}

open LawfulStringBuffer (Takes)

theorem LawfulStringBuffer.Takes.appendString (htakes : Takes s text (bytes :: segments))
    (hbytes : ∀ c ∈ bytes, c ≠ 0) :
    ∃ out, StringBuffer.appendString s (bytes ++ 0 :: rest) = .ok out ∧
      Takes out (text ++ bytes) segments := by
  have hfront : (bytes ++ 0 :: rest).take bytes.length = bytes :=
    List.take_left
  obtain ⟨out, happend, hout⟩ := @LawfulStringBuffer.append_ok _ _ _ _ _ _
    (bytes ++ 0 :: rest) bytes.length (hfront.symm ▸ htakes) (by simp)
  rw [hfront] at hout
  refine ⟨out, ?_, hout⟩
  rw [StringBuffer.appendString, strlen_text hbytes]
  exact happend

theorem newString_takes {blocks : Nat → Nat → UInt8}
    (hroomy : Roomy 0 stringAllocLength segments) :
    Takes (StringBuffer.new blocks : AllocString) [] segments :=
  ⟨newString_built, hroomy⟩

end

end Synos.Mutils

import Mathlib.Data.Fin.Basic
import Mathlib.Data.List.FinRange

namespace Synos.Data.Priority

/-! Registers of pending lines in which the lowest bit has the highest priority. -/

variable {width : Nat} {bits : BitVec width} {line : Fin width}

def first? (bits : BitVec width) : Option (Fin width) :=
  (List.finRange width).find? fun line => bits.getLsbD line

def set (bits : BitVec width) (line : Fin width) : BitVec width :=
  bits ||| BitVec.twoPow width line

def clearFirst (bits : BitVec width) : BitVec width :=
  match first? bits with
  | none => bits
  | some line => bits &&& ~~~ BitVec.twoPow width line

/-- No line of the register comes before `line`, nor is it `line`. -/
def Precedes (line : Fin width) (bits : BitVec width) : Prop :=
  ∀ other ≤ line, bits.getLsbD other = false

instance (line : Fin width) (bits : BitVec width) :
    Decidable (Precedes line bits) :=
  inferInstanceAs (Decidable (∀ other, other ≤ line → _))

theorem precedes_zero (line : Fin width) : Precedes line 0 := by
  intro other _
  exact BitVec.getLsbD_zero

theorem getLsbD_set (other : Fin width) :
    (set bits line).getLsbD other = (bits.getLsbD other || other == line) := by
  simp [set, Fin.ext_iff, beq_eq_decide]

theorem first?_eq_some (hset : bits.getLsbD line = true)
    (hfirst : ∀ other < line, bits.getLsbD other = false) :
    first? bits = some line := by
  rw [first?, List.find?_eq_some_iff_getElem]
  refine ⟨hset, line, by simp, by simp, ?_⟩
  intro index hindex
  simpa using hfirst ⟨index, Nat.lt_trans hindex line.isLt⟩ hindex

theorem first?_set (hprior : Precedes line bits) :
    first? (set bits line) = some line := by
  apply first?_eq_some
  · simp [getLsbD_set]
  · intro other hother
    rw [getLsbD_set, hprior other hother.le, Bool.false_or,
      beq_eq_false_iff_ne]
    exact hother.ne

theorem clearFirst_set (hprior : Precedes line bits) :
    clearFirst (set bits line) = bits := by
  rw [clearFirst, first?_set hprior]
  ext index hindex
  have hline : bits[(line : Nat)] = false := by
    simpa using hprior line le_rfl
  rcases eq_or_ne index line with rfl | hne
  · simp [set, hline]
  · simp [set, hne]

end Synos.Data.Priority

import Synos.Data.Endian

namespace Synos.Data

universe u v

/-! Computations that keep a record of their loads, and when these stay inside
an object. -/

structure Access where
  address : Nat
  count : Nat
  deriving DecidableEq, Repr

/-- A result and the loads made on the way to it, in their order. -/
structure Traced (Result : Type u) where
  result : Result
  loads : List Access

namespace Traced

instance : Monad Traced where
  pure result := ⟨result, []⟩
  bind call next :=
    ⟨(next call.result).result, call.loads ++ (next call.result).loads⟩

variable {Result Other : Type u} {property : Access → Prop}

@[simp] theorem result_pure (result : Result) :
    (pure result : Traced Result).result = result := rfl

@[simp] theorem result_bind (call : Traced Result)
    (next : Result → Traced Other) :
    (call >>= next).result = (next call.result).result := rfl

def Loads (property : Access → Prop) (call : Traced Result) : Prop :=
  ∀ access ∈ call.loads, property access

@[simp] theorem loads_pure (result : Result) :
    (pure result : Traced Result).Loads property ↔ True := by
  simp [Loads, pure]

@[simp] theorem loads_bind (call : Traced Result)
    (next : Result → Traced Other) :
    (call >>= next).Loads property ↔
      call.Loads property ∧ (next call.result).Loads property := by
  simp only [Loads, bind, List.mem_append]
  constructor
  · intro hall
    exact ⟨fun access hmem => hall access (.inl hmem),
      fun access hmem => hall access (.inr hmem)⟩
  · rintro ⟨hcall, hnext⟩ access (hmem | hmem)
    · exact hcall access hmem
    · exact hnext access hmem

end Traced

def loadByte (memory : Memory) (address : Nat) : Traced UInt8 :=
  ⟨memory (word address), [⟨address, 1⟩]⟩

def loadTraced (width : Nat) (memory : Memory) (address : Nat) :
    Traced (BitVec width) :=
  ⟨load width memory address, [⟨address, width / 8⟩]⟩

@[simp] theorem loadByte_result (memory : Memory) (address : Nat) :
    (loadByte memory address).result = memory (word address) := rfl

@[simp] theorem loadTraced_result (width : Nat) (memory : Memory)
    (address : Nat) :
    (loadTraced width memory address).result = load width memory address := rfl

@[simp] theorem loadByte_loads {property : Access → Prop} (memory : Memory)
    (address : Nat) :
    (loadByte memory address).Loads property ↔ property ⟨address, 1⟩ := by
  simp [Traced.Loads, loadByte]

@[simp] theorem loadTraced_loads {property : Access → Prop} (width : Nat)
    (memory : Memory) (address : Nat) :
    (loadTraced width memory address).Loads property ↔
      property ⟨address, width / 8⟩ := by
  simp [Traced.Loads, loadTraced]

/-! ### Bounds

A load from an object counts by its distance from the object's start, which
wraps around with the address. -/

/-- Every byte of the load lies at an offset below `length` from `base`. -/
def Within (base length : Nat) (access : Access) : Prop :=
  ∀ k < access.count, wordSub (access.address + k) base < length

instance (base length : Nat) (access : Access) :
    Decidable (Within base length access) :=
  inferInstanceAs (Decidable (∀ k < access.count, _))

theorem wordSub_wordAdd (base start offset : Nat) :
    wordSub (wordAdd base start + offset) base = word (start + offset) := by
  simp only [wordSub, wordAdd, word, wordSize]
  omega

theorem wordSub_base (base offset : Nat) :
    wordSub (base + offset) base = word offset := by
  simp only [wordSub, word, wordSize]
  omega

section

variable {base length offset count : Nat}

theorem within_iff_word :
    Within base length ⟨base + offset, count⟩ ↔
      ∀ k < count, word (offset + k) < length := by
  simp only [Within, Nat.add_assoc, wordSub_base]

theorem within_iff (hoffset : offset + count ≤ wordSize) (hcount : 0 < count) :
    Within base length ⟨base + offset, count⟩ ↔ offset + count ≤ length := by
  rw [within_iff_word]
  constructor
  · intro hall
    have hlast := hall (count - 1) (by omega)
    rw [word_of_lt (by omega)] at hlast
    omega
  · intro hle k hk
    rw [word_of_lt (by omega)]
    omega

theorem within_wordAdd_iff {start : Nat} :
    Within base length ⟨wordAdd base start + offset, count⟩ ↔
      ∀ k < count, word (start + offset + k) < length := by
  simp only [Within, Nat.add_assoc, wordSub_wordAdd]

theorem fields_iff {fields : List (Nat × Nat)} {extent : Nat}
    {property : Nat → Prop}
    (hinside : ∀ field ∈ fields, field.1 + field.2 ≤ extent)
    (hcover : ∀ k < extent, ∃ field ∈ fields,
      field.1 ≤ k ∧ k < field.1 + field.2) :
    (∀ field ∈ fields, ∀ k < field.2, property (field.1 + k)) ↔
      ∀ k < extent, property k := by
  constructor
  · intro hfields k hk
    obtain ⟨field, hmem, hle, hlt⟩ := hcover k hk
    have hfield := hfields field hmem (k - field.1) (by omega)
    rwa [Nat.add_sub_cancel' hle] at hfield
  · intro hall field hmem k hk
    have hbound := hinside field hmem
    exact hall _ (by omega)

/-- A table of overlapping or adjoining entries is read within the object just
when its last byte lies in it. -/
theorem table_within_iff {start stride extent entries : Nat}
    (hlength : length < wordSize) (hstart : start < wordSize)
    (hstride : 0 < stride) (hextent : stride ≤ extent) (hentries : 0 < entries) :
    (∀ i < entries, ∀ k < extent, word (start + stride * i + k) < length) ↔
      start + stride * (entries - 1) + extent ≤ length := by
  constructor
  · intro hall
    by_contra hover
    have hfirst := hall 0 hentries 0 (by omega)
    simp only [Nat.mul_zero, Nat.add_zero] at hfirst
    rw [word_of_lt hstart] at hfirst
    -- the byte at offset `length` belongs to some entry
    have hdiv := Nat.div_add_mod (length - start) stride
    have hmod := Nat.mod_lt (length - start) hstride
    by_cases hlast : (length - start) / stride < entries
    · have hbad := hall _ hlast ((length - start) % stride) (by omega)
      rw [Nat.add_assoc, hdiv, word_of_lt (by omega)] at hbad
      omega
    · have hmul := Nat.mul_le_mul_left stride
        (show entries - 1 ≤ (length - start) / stride by omega)
      have hbad := hall (entries - 1) (by omega)
        (length - start - stride * (entries - 1)) (by omega)
      rw [Nat.add_assoc, Nat.add_sub_cancel' (by omega),
        Nat.add_sub_cancel' (by omega), word_of_lt hlength] at hbad
      omega
  · intro hfits i hi k hk
    have hmul := Nat.mul_le_mul_left stride (show i ≤ entries - 1 by omega)
    rw [word_of_lt (by omega)]
    omega

end

end Synos.Data

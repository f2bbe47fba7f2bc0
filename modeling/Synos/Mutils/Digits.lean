import Synos.Mutils.Growing
import Mathlib.Data.Nat.Digits.Lemmas

namespace Synos.Mutils

open Synos.Data

/-! Numbers as strings of digits, written backwards and turned round in place. -/

/-- `format[target] = format[i] ^ format[j]` -/
def storeXor (format : List UInt8) (target i j : Nat) :
    Except AccessFault (List UInt8) := do
  let first ← readCell format i
  let second ← readCell format j
  writeCell format target (first ^^^ second)

def reverseLoop (len : Nat) :
    (count i : Nat) → List UInt8 → Except AccessFault (List UInt8)
  | 0, _, format => pure format
  | count + 1, i, format => do
      let format ← storeXor format i i (len - 1 - i)
      let format ← storeXor format (len - 1 - i) i (len - 1 - i)
      let format ← storeXor format i i (len - 1 - i)
      reverseLoop len count (i + 1) format

def reverse (format : List UInt8) : Except AccessFault (List UInt8) := do
  let len ← strlen format
  if len < 2 then pure format else reverseLoop len (len / 2) 0 format

def lowerChar (c : UInt8) : UInt8 :=
  if 0x41 ≤ c ∧ c ≤ 0x5A then c + 32 else c

def toLowerLoop :
    (count i : Nat) → List UInt8 → Except AccessFault (List UInt8)
  | 0, _, str => pure str
  | count + 1, i, str => do
      let c ← readCell str i
      let str ← writeCell str i (lowerChar c)
      toLowerLoop count (i + 1) str

def toLower (str : List UInt8) : Except AccessFault (List UInt8) := do
  let len ← strlen str
  toLowerLoop len 0 str

/-- The loops of `c_str` and `hex_str`. The value halves at the least in each
round, and is zero when there is no fuel left. -/
def digitLoop (digit : Nat → UInt8) (next : Nat → Nat) :
    (fuel value : Nat) → GrowingString → Except AccessFault GrowingString
  | 0, _, out => pure out
  | fuel + 1, value, out =>
      if 0 < value then do
        let out ← out.append [digit value] 1
        digitLoop digit next fuel (next value) out
      else pure out

def decimalChar (c : Nat) : UInt8 := UInt8.ofNat (c + 0x30)

def hexChar (c : Nat) : UInt8 :=
  if c < 0xA then UInt8.ofNat (c + 0x30) else UInt8.ofNat (c - 0xA + 0x41)

/-- `c_str`; `fresh` is what the block of the string holds beforehand. -/
def cStr (fresh : Nat → UInt8) (value : BitVec 64) :
    Except AccessFault (List UInt8) := do
  let out ← digitLoop (fun value => decimalChar (value % 10))
    (fun value => (value - value % 10) / 10) 64 value.toNat (.new fresh)
  reverse out.str

def hexStr (fresh : Nat → UInt8) (value : BitVec 64) :
    Except AccessFault (List UInt8) := do
  let out ←
    if value = 0 then (GrowingString.new fresh).append [0x30] 1
    else
      digitLoop (fun value => hexChar (value &&& 0xF))
        (fun value => value >>> 4) 64 value.toNat (.new fresh)
  reverse out.str

/-! ### In place -/

section

variable {format text rest : List UInt8} {i j len count : Nat}

theorem storeXor_ok {target : Nat} {first second : UInt8}
    (hfirst : format[i]? = some first) (hsecond : format[j]? = some second)
    (htarget : target < format.length) :
    storeXor format target i j = .ok (format.set target (first ^^^ second)) := by
  rw [storeXor, readCell_of_some hfirst]
  simp only [bind, Except.bind, readCell_of_some hsecond,
    writeCell_of_lt htarget]

theorem reverseLoop_succ {first second : UInt8} (hne : i ≠ len - 1 - i)
    (hfirst : format[i]? = some first)
    (hsecond : format[len - 1 - i]? = some second) :
    reverseLoop len (count + 1) i format =
      reverseLoop len count (i + 1)
        ((format.set (len - 1 - i) first).set i second) := by
  obtain ⟨hi, -⟩ := List.getElem?_eq_some_iff.mp hfirst
  obtain ⟨hj, -⟩ := List.getElem?_eq_some_iff.mp hsecond
  have hback : (first ^^^ second) ^^^ second = first := by
    rw [UInt8.xor_assoc, UInt8.xor_self, UInt8.xor_zero]
  have hforth : (first ^^^ second) ^^^ first = second := by
    rw [UInt8.xor_comm first, UInt8.xor_assoc, UInt8.xor_self, UInt8.xor_zero]
  have hone := storeXor_ok hfirst hsecond hi
  have htwo := @storeXor_ok (format.set i (first ^^^ second)) i (len - 1 - i)
    (len - 1 - i) (first ^^^ second) second (List.getElem?_set_self hi)
    (by rw [List.getElem?_set_ne hne, hsecond])
    (by rwa [List.length_set])
  rw [hback] at htwo
  have hthree := @storeXor_ok
    ((format.set i (first ^^^ second)).set (len - 1 - i) first) i
    (len - 1 - i) i (first ^^^ second) first
    (by rw [List.getElem?_set_ne hne.symm, List.getElem?_set_self hi])
    (List.getElem?_set_self (by rwa [List.length_set]))
    (by rwa [List.length_set, List.length_set])
  rw [hforth] at hthree
  rw [reverseLoop, hone]
  simp only [bind, Except.bind, htwo, hthree]
  rw [List.set_comm _ _ hne, List.set_set]

theorem reverseLoop_ok (hlen : len ≤ format.length)
    (hcount : count = len / 2 - i) :
    ∃ turned, reverseLoop len count i format = .ok turned ∧
      ∀ k, turned[k]? =
        if i ≤ k ∧ k + i < len then format[len - 1 - k]? else format[k]? := by
  induction count generalizing i format with
  | zero =>
      refine ⟨format, rfl, ?_⟩
      intro k
      by_cases hmiddle : i ≤ k ∧ k + i < len
      · rw [if_pos hmiddle]
        congr 1
        omega
      · rw [if_neg hmiddle]
  | succ count ih =>
      have hfirst := List.getElem?_eq_getElem (show i < format.length by omega)
      have hsecond :=
        List.getElem?_eq_getElem (show len - 1 - i < format.length by omega)
      have hne : i ≠ len - 1 - i := by omega
      obtain ⟨turned, hloop, hcells⟩ := @ih
        ((format.set (len - 1 - i) format[i]).set i format[len - 1 - i])
        (i + 1) (by simpa using hlen) (by omega)
      refine ⟨turned, (reverseLoop_succ hne hfirst hsecond).trans hloop, ?_⟩
      intro k
      rw [hcells]
      by_cases hinside : i + 1 ≤ k ∧ k + (i + 1) < len
      · rw [if_pos hinside, if_pos (by omega), List.getElem?_set_ne (by omega),
          List.getElem?_set_ne (by omega)]
      · rw [if_neg hinside]
        by_cases hlow : i = k
        · subst hlow
          rw [List.getElem?_set_self (by rw [List.length_set]; omega),
            if_pos (by omega), hsecond]
        · rw [List.getElem?_set_ne hlow]
          by_cases hhigh : len - 1 - i = k
          · subst hhigh
            have hback : len - 1 - (len - 1 - i) = i := by omega
            rw [List.getElem?_set_self (by omega), if_pos (by omega), hback,
              hfirst]
          · rw [List.getElem?_set_ne hhigh, if_neg (by omega)]

theorem reverse_text (htext : ∀ c ∈ text, c ≠ 0) :
    reverse (text ++ 0 :: rest) = .ok (text.reverse ++ 0 :: rest) := by
  rw [reverse, strlen_text htext]
  simp only [bind, Except.bind]
  by_cases hshort : text.length < 2
  · rw [if_pos hshort]
    cases text with
    | nil => rfl
    | cons c text =>
        obtain rfl : text = [] := by
          rw [List.length_cons] at hshort
          exact List.length_eq_zero_iff.mp (by omega)
        rfl
  · rw [if_neg hshort]
    obtain ⟨turned, hloop, hcells⟩ := @reverseLoop_ok (text ++ 0 :: rest) 0
      text.length (text.length / 2) (by simp) rfl
    rw [hloop]
    refine congrArg _ (List.ext_getElem? fun k => ?_)
    rw [hcells]
    by_cases hinside : k < text.length
    · rw [if_pos (by omega), List.getElem?_append_left (by omega),
        List.getElem?_append_left (by rwa [List.length_reverse]),
        List.getElem?_reverse hinside]
    · rw [if_neg (by omega), List.getElem?_append_right (by omega),
        List.getElem?_append_right (by rw [List.length_reverse]; omega),
        List.length_reverse]

/-- A block without a zero is read past its end. -/
theorem reverse_unterminated (hformat : ∀ c ∈ format, c ≠ 0) :
    reverse format = .error .outOfBounds := by
  rw [reverse, strlen_unterminated hformat]
  rfl

theorem toLowerLoop_ok (hcount : i + count ≤ format.length) :
    ∃ lowered, toLowerLoop count i format = .ok lowered ∧
      ∀ k, lowered[k]? =
        if i ≤ k ∧ k < i + count then format[k]?.map lowerChar
        else format[k]? := by
  induction count generalizing i format with
  | zero =>
      refine ⟨format, rfl, ?_⟩
      intro k
      rw [if_neg (by omega)]
  | succ count ih =>
      obtain ⟨c, hread, hc⟩ := @exists_readCell _ format i (by omega)
      have hwrite := @writeCell_of_lt _ format i (lowerChar c) (by omega)
      obtain ⟨lowered, hloop, hcells⟩ := @ih (format.set i (lowerChar c))
        (i + 1) (by rw [List.length_set]; omega)
      refine ⟨lowered, ?_, ?_⟩
      · rw [toLowerLoop, hread]
        simp only [bind, Except.bind, hwrite]
        exact hloop
      · intro k
        rw [hcells]
        by_cases hhere : i = k
        · subst hhere
          rw [if_neg (by omega), List.getElem?_set_self (by omega),
            if_pos (by omega), hc]
          rfl
        · rw [List.getElem?_set_ne hhere]
          by_cases hinside : i + 1 ≤ k ∧ k < i + 1 + count
          · rw [if_pos hinside, if_pos (by omega)]
          · rw [if_neg hinside, if_neg (by omega)]

theorem toLower_text (htext : ∀ c ∈ text, c ≠ 0) :
    toLower (text ++ 0 :: rest) = .ok (text.map lowerChar ++ 0 :: rest) := by
  obtain ⟨lowered, hloop, hcells⟩ :=
    @toLowerLoop_ok (text ++ 0 :: rest) 0 text.length (by simp)
  rw [toLower, strlen_text htext]
  refine hloop.trans (congrArg _ (List.ext_getElem? fun k => ?_))
  rw [hcells, List.getElem?_append, List.getElem?_append, List.length_map,
    List.getElem?_map]
  by_cases hinside : k < text.length
  · rw [if_pos (by omega), if_pos hinside, if_pos hinside]
  · rw [if_neg (by omega), if_neg hinside, if_neg hinside]

/-! ### Digits -/

theorem digitLoop_ok {digit : Nat → UInt8} {next : Nat → Nat}
    {char : Nat → UInt8} {base : Nat} (hbase : 2 ≤ base)
    (hdigit : ∀ value, digit value = char (value % base))
    (hnext : ∀ value, next value = value / base) {fuel value : Nat}
    {out : GrowingString} (hfuel : value < 2 ^ fuel) :
    ∃ behind, digitLoop digit next fuel value out =
        .ok ⟨out.text ++ (Nat.digits base value).map char, behind⟩ ∧
      (value = 0 → behind = out.behind) ∧
      (0 < value → ∃ rest, behind = 0 :: rest) := by
  induction fuel generalizing value out with
  | zero =>
      rw [pow_zero, Nat.lt_one_iff] at hfuel
      subst hfuel
      refine ⟨out.behind, ?_, fun _ => rfl, fun hpos => absurd hpos (by omega)⟩
      rw [Nat.digits_zero, List.map_nil, List.append_nil]
      rfl
  | succ fuel ih =>
      rw [digitLoop]
      by_cases hpos : 0 < value
      · have hhalf : value / base < 2 ^ fuel := by
          rw [pow_succ] at hfuel
          exact Nat.div_lt_of_lt_mul (by nlinarith)
        obtain ⟨first, happend, htext, hbehind⟩ :=
          out.exists_append (Nat.le_refl [digit value].length)
        obtain ⟨behind, hloop, hlast, hmore⟩ := @ih (value / base) first hhalf
        refine ⟨behind, ?_, fun hzero => by omega, fun _ => ?_⟩
        · rw [List.take_length] at htext
          rw [if_pos hpos, Nat.digits_def' hbase hpos, List.map_cons,
            ← hdigit, List.append_cons, ← htext, ← hloop, ← hnext]
          exact congrArg (· >>= _) happend
        · rcases Nat.eq_zero_or_pos (value / base) with hzero | hagain
          · exact ⟨_, (hlast hzero).trans hbehind⟩
          · exact hmore hagain
      · obtain rfl : value = 0 := by omega
        refine ⟨out.behind, ?_, fun _ => rfl, fun hagain => absurd hagain hpos⟩
        rw [if_neg hpos, Nat.digits_zero, List.map_nil, List.append_nil]
        rfl

/-- A number in a positional notation, the highest digit first. -/
def numeral (base : Nat) (char : Nat → UInt8) (value : Nat) : List UInt8 :=
  if value = 0 then [char 0]
  else ((Nat.digits base value).map char).reverse

theorem numeral_chars {base value : Nat} {char : Nat → UInt8}
    {property : UInt8 → Prop} (hbase : 2 ≤ base)
    (hchar : ∀ digit < base, property (char digit)) :
    ∀ c ∈ numeral base char value, property c := by
  intro c hc
  rw [numeral] at hc
  split at hc
  · rw [List.mem_singleton] at hc
    subst hc
    exact hchar 0 (by omega)
  · rw [List.mem_reverse, List.mem_map] at hc
    obtain ⟨digit, hdigit, rfl⟩ := hc
    exact hchar digit (Nat.digits_lt_base hbase hdigit)

theorem reverse_digits {base value : Nat} {char : Nat → UInt8}
    {rest : List UInt8} (hbase : 2 ≤ base) (hpos : 0 < value)
    (hchar : ∀ digit < base, char digit ≠ 0) :
    reverse ((Nat.digits base value).map char ++ 0 :: rest) =
      .ok (numeral base char value ++ 0 :: rest) := by
  rw [numeral, if_neg hpos.ne']
  refine reverse_text ?_
  intro c hc
  obtain ⟨digit, hdigit, rfl⟩ := List.mem_map.mp hc
  exact hchar digit (Nat.digits_lt_base hbase hdigit)

theorem decimalChar_ne_zero : ∀ digit < 10, decimalChar digit ≠ 0 := by
  decide

theorem hexChar_ne_zero : ∀ digit < 16, hexChar digit ≠ 0 := by
  decide

section

variable {fresh : Nat → UInt8} {value : BitVec 64}

theorem cStr_ok (hpos : 0 < value.toNat) :
    ∃ rest, cStr fresh value =
      .ok (numeral 10 decimalChar value.toNat ++ 0 :: rest) := by
  obtain ⟨behind, hloop, -, hmore⟩ := @digitLoop_ok
    (fun value => decimalChar (value % 10))
    (fun value => (value - value % 10) / 10) decimalChar 10 (by decide)
    (fun _ => rfl) (fun value => by omega) 64 value.toNat (.new fresh)
    value.isLt
  obtain ⟨rest, rfl⟩ := hmore hpos
  refine ⟨rest, ?_⟩
  rw [cStr, hloop]
  exact reverse_digits (by decide) hpos decimalChar_ne_zero

/-- Without a digit there is nothing in the block but what it held before. -/
theorem cStr_zero (hfresh : ∀ k, fresh k ≠ 0) :
    cStr fresh 0 = .error .outOfBounds := by
  have hblock : ∀ c ∈ freshBlock fresh stringAllocLength, c ≠ 0 := by
    intro c hc
    obtain ⟨k, -, rfl⟩ := List.mem_map.mp hc
    exact hfresh k
  exact reverse_unterminated hblock

theorem hexStr_ok (value : BitVec 64) :
    ∃ rest, hexStr fresh value =
      .ok (numeral 16 hexChar value.toNat ++ 0 :: rest) := by
  rw [hexStr]
  by_cases hzero : value = 0
  · subst hzero
    rw [if_pos rfl]
    exact ⟨_, @reverse_text [0x30] _
      (List.forall_mem_singleton.mpr (by decide))⟩
  · have hpos : 0 < value.toNat := by bv_omega
    obtain ⟨behind, hloop, -, hmore⟩ := @digitLoop_ok
      (fun value => hexChar (value &&& 0xF)) (fun value => value >>> 4) hexChar
      16 (by decide) (fun value => by
        rw [show 0xF = 2 ^ 4 - 1 from rfl, Nat.and_two_pow_sub_one_eq_mod])
      (fun value => Nat.shiftRight_eq_div_pow value 4) 64 value.toNat
      (.new fresh) value.isLt
    obtain ⟨rest, rfl⟩ := hmore hpos
    refine ⟨rest, ?_⟩
    rw [if_neg hzero, hloop]
    exact reverse_digits (by decide) hpos hexChar_ne_zero

end

end

end Synos.Mutils

import Mathlib.Data.Nat.Digits.Lemmas

namespace Synos.Data

universe u

/-! Numbers in positional notation, the highest digit first. -/

/-- Symbols that stand for the digits below `base`. -/
structure Alphabet (base : Nat) (Symbol : Type u) where
  char : Nat → Symbol
  digitOf : Symbol → Nat
  IsDigit : Symbol → Prop
  one_lt : 1 < base
  isDigit_char : ∀ digit < base, IsDigit (char digit)
  digitOf_char : ∀ digit < base, digitOf (char digit) = digit
  digitOf_lt : ∀ symbol, IsDigit symbol → digitOf symbol < base
  char_digitOf : ∀ symbol, IsDigit symbol → char (digitOf symbol) = symbol

namespace Alphabet

variable {base : Nat} {Symbol : Type u} (alphabet : Alphabet base Symbol)
  {text : List Symbol} {value : Nat}

def numeral (value : Nat) : List Symbol :=
  if value = 0 then [alphabet.char 0]
  else ((Nat.digits base value).map alphabet.char).reverse

/-- What the text stands for, with its last symbol as the lowest digit. -/
def valueOf (text : List Symbol) : Nat :=
  Nat.ofDigits base (text.reverse.map alphabet.digitOf)

/-- The text is a number without leading zeros; zero itself has one digit. -/
structure Canonical (text : List Symbol) (value : Nat) : Prop where
  digits : ∀ symbol ∈ text, alphabet.IsDigit symbol
  nonempty : text ≠ []
  leading : text.head? = some (alphabet.char 0) → text.length = 1
  value_eq : alphabet.valueOf text = value

variable {alphabet}

theorem numeral_zero : alphabet.numeral 0 = [alphabet.char 0] := if_pos rfl

theorem numeral_of_pos (hpos : 0 < value) :
    alphabet.numeral value =
      ((Nat.digits base value).map alphabet.char).reverse :=
  if_neg hpos.ne'

theorem char_inj {first second : Nat} (hfirst : first < base)
    (hsecond : second < base)
    (hchar : alphabet.char first = alphabet.char second) : first = second := by
  rw [← alphabet.digitOf_char first hfirst, hchar,
    alphabet.digitOf_char second hsecond]

theorem map_digitOf_digits :
    ((Nat.digits base value).map alphabet.char).map alphabet.digitOf =
      Nat.digits base value := by
  rw [List.map_map]
  refine (List.map_congr_left fun digit hdigit => ?_).trans (List.map_id _)
  exact alphabet.digitOf_char digit
    (Nat.digits_lt_base alphabet.one_lt hdigit)

theorem canonical_numeral_zero : alphabet.Canonical (alphabet.numeral 0) 0 where
  digits := by
    rw [numeral_zero, List.forall_mem_singleton]
    exact alphabet.isDigit_char 0 (by have := alphabet.one_lt; omega)
  nonempty := by
    rw [numeral_zero]
    exact List.cons_ne_nil _ _
  leading := by
    intro _
    rw [numeral_zero]
    rfl
  value_eq := by
    rw [numeral_zero, valueOf, List.reverse_singleton, List.map_singleton,
      Nat.ofDigits_singleton]
    exact alphabet.digitOf_char 0 (by have := alphabet.one_lt; omega)

theorem canonical_numeral_pos (hpos : 0 < value) :
    alphabet.Canonical (alphabet.numeral value) value where
  digits := by
    intro symbol hsymbol
    rw [numeral_of_pos hpos, List.mem_reverse] at hsymbol
    obtain ⟨digit, hdigit, rfl⟩ := List.mem_map.mp hsymbol
    exact alphabet.isDigit_char digit
      (Nat.digits_lt_base alphabet.one_lt hdigit)
  nonempty := by
    rw [numeral_of_pos hpos]
    simpa [Nat.digits_eq_nil_iff_eq_zero] using hpos.ne'
  leading := by
    intro hhead
    have hne : Nat.digits base value ≠ [] :=
      Nat.digits_ne_nil_iff_ne_zero.mpr hpos.ne'
    have hlast := Nat.digits_lt_base alphabet.one_lt (List.getLast_mem hne)
    rw [numeral_of_pos hpos, List.head?_reverse, List.getLast?_map,
      List.getLast?_eq_some_getLast hne, Option.map_some] at hhead
    have hzero := char_inj hlast (by have := alphabet.one_lt; omega)
      (Option.some.inj hhead)
    exact absurd hzero (Nat.getLast_digit_ne_zero base hpos.ne')
  value_eq := by
    rw [numeral_of_pos hpos, valueOf, List.reverse_reverse, map_digitOf_digits,
      Nat.ofDigits_digits]

theorem canonical_numeral (value : Nat) :
    alphabet.Canonical (alphabet.numeral value) value := by
  rcases Nat.eq_zero_or_pos value with hzero | hpos
  · rw [hzero]
    exact canonical_numeral_zero
  · exact canonical_numeral_pos hpos

theorem map_numeral {other : Alphabet base Symbol} {change : Symbol → Symbol}
    (hchange : ∀ digit < base, change (alphabet.char digit) = other.char digit)
    (value : Nat) :
    (alphabet.numeral value).map change = other.numeral value := by
  rcases Nat.eq_zero_or_pos value with hzero | hpos
  · rw [hzero, numeral_zero, numeral_zero, List.map_singleton,
      hchange 0 (by have := alphabet.one_lt; omega)]
  · rw [numeral_of_pos hpos, numeral_of_pos hpos, List.map_reverse,
      List.map_map]
    refine congrArg List.reverse (List.map_congr_left fun digit hdigit => ?_)
    exact hchange digit (Nat.digits_lt_base alphabet.one_lt hdigit)

namespace Canonical

theorem map_char (hcanonical : alphabet.Canonical text value) :
    ((text.reverse.map alphabet.digitOf).map alphabet.char).reverse = text := by
  rw [List.map_map, ← List.map_reverse, List.reverse_reverse]
  refine (List.map_congr_left fun symbol hsymbol => ?_).trans (List.map_id _)
  exact alphabet.char_digitOf symbol (hcanonical.digits symbol hsymbol)

theorem eq_singleton (hcanonical : alphabet.Canonical text value)
    (hhead : text.head? = some (alphabet.char 0)) :
    text = [alphabet.char 0] := by
  obtain ⟨symbol, hsymbol⟩ :=
    List.length_eq_one_iff.mp (hcanonical.leading hhead)
  rw [hsymbol, List.head?_cons] at hhead
  rw [hsymbol, Option.some.inj hhead]

theorem digits_eq (hcanonical : alphabet.Canonical text value)
    (hhead : text.head? ≠ some (alphabet.char 0)) :
    Nat.digits base value = text.reverse.map alphabet.digitOf := by
  rw [← hcanonical.value_eq]
  apply Nat.digits_ofDigits base alphabet.one_lt
  · intro digit hdigit
    obtain ⟨symbol, hsymbol, rfl⟩ := List.mem_map.mp hdigit
    rw [List.mem_reverse] at hsymbol
    exact alphabet.digitOf_lt symbol (hcanonical.digits symbol hsymbol)
  · intro hne hlast
    obtain ⟨first, rest, rfl⟩ :=
      List.exists_cons_of_ne_nil hcanonical.nonempty
    apply hhead
    have hzero : alphabet.digitOf first = 0 := by simpa using hlast
    rw [List.head?_cons, ← hzero,
      alphabet.char_digitOf first (hcanonical.digits first (.head _))]

theorem eq_numeral (hcanonical : alphabet.Canonical text value) :
    text = alphabet.numeral value := by
  by_cases hhead : text.head? = some (alphabet.char 0)
  · have htext := hcanonical.eq_singleton hhead
    have hvalue : value = 0 := by
      rw [← hcanonical.value_eq, htext, ← numeral_zero]
      exact canonical_numeral_zero.value_eq
    rw [htext, hvalue, numeral_zero]
  · have hdigits := hcanonical.digits_eq hhead
    have hpos : 0 < value := by
      apply Nat.pos_of_ne_zero
      intro hzero
      rw [hzero, Nat.digits_zero] at hdigits
      apply hcanonical.nonempty
      simpa using hdigits.symm
    rw [numeral_of_pos hpos, hdigits, hcanonical.map_char]

theorem length_eq (hcanonical : alphabet.Canonical text value) :
    text.length = max 1 (Nat.digits base value).length := by
  rw [hcanonical.eq_numeral]
  rcases Nat.eq_zero_or_pos value with hzero | hpos
  · rw [hzero, numeral_zero, Nat.digits_zero]
    rfl
  · have hne : Nat.digits base value ≠ [] :=
      Nat.digits_ne_nil_iff_ne_zero.mpr hpos.ne'
    have hlength := List.length_pos_of_ne_nil hne
    rw [numeral_of_pos hpos, List.length_reverse, List.length_map]
    omega

theorem value_unique {other : Nat} (hcanonical : alphabet.Canonical text value)
    (hother : alphabet.Canonical text other) : other = value :=
  hother.value_eq.symm.trans hcanonical.value_eq

end Canonical

end Alphabet

end Synos.Data

import Synos.Printk.Format

namespace Synos.Printk

open Synos.Data
open Synos.Mutils
open Synos.Mutils.StringBuffer (append appendString)
open Synos.Mutils.LawfulStringBuffer (Takes append_ok)

/-! The messages of `printk` against those of C, piece by piece. -/

/-- A zero in decimal, for which the loop over the digits writes nothing. -/
def Piece.Zero : Piece → Prop
  | d value => value = 0
  | i value => value = 0
  | u value => value = 0
  | _ => False

instance : (piece : Piece) → Decidable piece.Zero
  | .literal _ _ _ => .isFalse id
  | .d value => inferInstanceAs (Decidable (value = 0))
  | .i value => inferInstanceAs (Decidable (value = 0))
  | .u value => inferInstanceAs (Decidable (value = 0))
  | .x _ => .isFalse id
  | .upperX _ => .isFalse id
  | .s _ _ => .isFalse id
  | .percent => .isFalse id

/-- What the other pieces give, with signed numbers taken for 64-bit ones. -/
def Piece.produced : Piece → List UInt8
  | d value => numeral 10 decimalChar (value.signExtend 64).toNat
  | i value => numeral 10 decimalChar (value.signExtend 64).toNat
  | piece => piece.expected

/-- What is appended to the message, in this order, when `waiting` waits before
the pieces. -/
def segments : (waiting : List UInt8) → List Piece → List (List UInt8)
  | waiting, [] => if waiting = [] then [] else [waiting]
  | waiting, .literal c _ _ :: pieces => segments (waiting ++ [c]) pieces
  | waiting, piece :: pieces =>
      waiting :: piece.produced :: segments [] pieces

theorem segments_conversion {piece : Piece} {letter : UInt8}
    (hformat : piece.format = [charPercent, letter]) (waiting : List UInt8)
    (pieces : List Piece) :
    segments waiting (piece :: pieces) =
      waiting :: piece.produced :: segments [] pieces := by
  cases piece with
  | literal c terminal plain => cases hformat
  | d value => rfl
  | i value => rfl
  | u value => rfl
  | x value => rfl
  | upperX value => rfl
  | s text terminal => rfl
  | percent => rfl

section

variable {fresh : Nat → UInt8} {str text rest : List UInt8} {i : Nat}
  {args : List VarArg} {value : BitVec 32}

theorem signExtend_pos (hne : value ≠ 0) : 0 < (value.signExtend 64).toNat := by
  by_contra hzero
  have hwide : value.signExtend 64 = 0#64 :=
    BitVec.eq_of_toNat_eq (by simpa using hzero)
  have hint := congrArg BitVec.toInt hwide
  rw [BitVec.toInt_signExtend_of_le (by decide)] at hint
  exact hne (BitVec.eq_of_toInt_eq (hint.trans (by decide)))

theorem setWidth_toNat : (value.setWidth 64).toNat = value.toNat := by
  rw [BitVec.toNat_setWidth, Nat.mod_eq_of_lt]
  have hlt := value.isLt
  omega

theorem map_lowerChar_numeral (value : Nat) :
    (numeral 16 hexChar value).map lowerChar = numeral 16 lowerHexChar value := by
  have hchar : ∀ digit < 16, lowerChar (hexChar digit) = lowerHexChar digit := by
    decide
  rw [numeral, numeral]
  split
  · rw [List.map_singleton, hchar 0 (by decide)]
  · rw [List.map_reverse, List.map_map]
    congr 1
    refine List.map_congr_left fun digit hdigit => ?_
    exact hchar digit (Nat.digits_lt_base (by decide) hdigit)

theorem signed_ok (hne : value ≠ 0) :
    ∃ rest, cStr fresh (value.signExtend 64) =
      .ok (numeral 10 decimalChar (value.signExtend 64).toNat ++ 0 :: rest) :=
  cStr_ok (signExtend_pos hne)

theorem unsigned_ok (hne : value ≠ 0) :
    ∃ rest, cStr fresh (value.setWidth 64) =
      .ok (numeral 10 decimalChar value.toNat ++ 0 :: rest) := by
  have hpos : 0 < (value.setWidth 64).toNat := by
    rw [setWidth_toNat]
    exact Nat.pos_of_ne_zero fun hnat => hne (BitVec.eq_of_toNat_eq hnat)
  obtain ⟨rest, hstr⟩ := @cStr_ok fresh _ hpos
  rw [setWidth_toNat] at hstr
  exact ⟨rest, hstr⟩

theorem hex_ok :
    ∃ rest, hexStr fresh (value.setWidth 64) =
      .ok (numeral 16 hexChar value.toNat ++ 0 :: rest) := by
  obtain ⟨rest, hstr⟩ := @hexStr_ok fresh (value.setWidth 64)
  rw [setWidth_toNat] at hstr
  exact ⟨rest, hstr⟩

theorem lowerHex_ok :
    ∃ rest, (hexStr fresh (value.setWidth 64) >>= toLower) =
      .ok (numeral 16 lowerHexChar value.toNat ++ 0 :: rest) := by
  obtain ⟨rest, hstr⟩ := @hex_ok fresh value
  have hlower := @toLower_text _ rest
    (@numeral_chars 16 value.toNat _ _ (by decide) hexChar_ne_zero)
  rw [map_lowerChar_numeral] at hlower
  refine ⟨rest, ?_⟩
  rw [hstr]
  exact hlower

end

section

variable {S : Type} [StringBuffer S] {fresh : Nat → UInt8}
  {str text message rest : List UInt8} {i : Nat} {args : List VarArg} {lstr : S}
  {value : BitVec 32} {more : List (List UInt8)}

theorem convert_signed {c : UInt8} (hletter : str[i]? = some c)
    (hc : c = charD ∨ c = charI) :
    convert fresh str i (.int value :: args) lstr =
      cStr fresh (value.signExtend 64) >>= fun tempStr =>
        appendString lstr tempStr >>= fun lstr => pure (args, lstr) := by
  simp only [convert, bind, Except.bind, readCell_of_some hletter, if_pos hc,
    vaInt]

theorem convert_unsigned (hletter : str[i]? = some charU) :
    convert fresh str i (.int value :: args) lstr =
      cStr fresh (value.setWidth 64) >>= fun tempStr =>
        appendString lstr tempStr >>= fun lstr => pure (args, lstr) := by
  rw [convert, readCell_of_some hletter]
  rfl

theorem convert_error {piece : Piece} {letter : UInt8}
    (hformat : piece.format = [charPercent, letter])
    (hletter : str[i]? = some letter) (hzero : piece.Zero)
    (hfresh : ∀ k, fresh k ≠ 0) :
    convert fresh str i (piece.args ++ args) lstr = .error .outOfBounds := by
  have hsigned : cStr fresh ((0 : BitVec 32).signExtend 64) =
      .error .outOfBounds := cStr_zero hfresh
  have hunsigned : cStr fresh ((0 : BitVec 32).setWidth 64) =
      .error .outOfBounds := cStr_zero hfresh
  cases piece with
  | d value =>
      cases hformat
      obtain rfl : value = 0 := hzero
      rw [Piece.args, List.singleton_append, convert_signed hletter (.inl rfl),
        hsigned]
      rfl
  | i value =>
      cases hformat
      obtain rfl : value = 0 := hzero
      rw [Piece.args, List.singleton_append, convert_signed hletter (.inr rfl),
        hsigned]
      rfl
  | u value =>
      cases hformat
      obtain rfl : value = 0 := hzero
      rw [Piece.args, List.singleton_append, convert_unsigned hletter,
        hunsigned]
      rfl
  | literal c terminal plain => cases hzero
  | x value => cases hzero
  | upperX value => cases hzero
  | s text terminal => cases hzero
  | percent => cases hzero

variable [LawfulStringBuffer S]

theorem appends_ok {made : Except AccessFault (List UInt8)}
    (htakes : Takes lstr message (text :: more))
    (hmade : made = .ok (text ++ 0 :: rest)) (htext : ∀ c ∈ text, c ≠ 0) :
    ∃ out, (made >>= fun tempStr => appendString lstr tempStr >>= fun lstr =>
        pure (args, lstr)) = Except.ok (args, out) ∧
      Takes out (message ++ text) more := by
  obtain ⟨out, happend, hout⟩ := @Takes.appendString _ _ _ _ _ _ rest _ htakes
    htext
  refine ⟨out, ?_, hout⟩
  simp only [hmade, bind, Except.bind, happend]
  rfl

theorem convert_ok {piece : Piece} {letter : UInt8}
    (htakes : Takes lstr message (piece.produced :: more))
    (hformat : piece.format = [charPercent, letter])
    (hletter : str[i]? = some letter) (hzero : ¬ piece.Zero) :
    ∃ out, convert fresh str i (piece.args ++ args) lstr = .ok (args, out) ∧
      Takes out (message ++ piece.produced) more := by
  have hread := readCell_of_some hletter
  cases piece with
  | literal c terminal plain => cases hformat
  | d value =>
      cases hformat
      obtain ⟨rest, hstr⟩ := @signed_ok fresh value hzero
      rw [Piece.args, List.singleton_append, convert_signed hletter (.inl rfl)]
      exact appends_ok htakes hstr
        (numeral_chars (by decide) decimalChar_ne_zero)
  | i value =>
      cases hformat
      obtain ⟨rest, hstr⟩ := @signed_ok fresh value hzero
      rw [Piece.args, List.singleton_append, convert_signed hletter (.inr rfl)]
      exact appends_ok htakes hstr
        (numeral_chars (by decide) decimalChar_ne_zero)
  | u value =>
      cases hformat
      obtain ⟨rest, hstr⟩ := @unsigned_ok fresh value hzero
      rw [Piece.args, List.singleton_append, convert_unsigned hletter]
      exact appends_ok htakes hstr
        (numeral_chars (by decide) decimalChar_ne_zero)
  | x value =>
      cases hformat
      obtain ⟨rest, hstr⟩ := @lowerHex_ok fresh value
      have hout := @appends_ok S _ _ _ rest args lstr _ _ _ htakes hstr
        (numeral_chars (by decide) (by decide))
      rw [bind_assoc] at hout
      rw [convert, hread]
      exact hout
  | upperX value =>
      cases hformat
      obtain ⟨rest, hstr⟩ := @hex_ok fresh value
      rw [convert, hread]
      exact appends_ok htakes hstr
        (numeral_chars (by decide) hexChar_ne_zero)
  | s text terminal =>
      cases hformat
      rw [convert, hread]
      exact @appends_ok S _ text _ [] args lstr _ _ (.ok (text ++ [0])) htakes
        rfl terminal
  | percent =>
      cases hformat
      obtain ⟨hlt, hcell⟩ := List.getElem?_eq_some_iff.mp hletter
      have hfront : (str.drop i).take 1 = [charPercent] := by
        rw [List.drop_eq_getElem_cons hlt, hcell]
        rfl
      obtain ⟨out, happend, hout⟩ := @append_ok S _ _ lstr message more
        (str.drop i) 1 (hfront.symm ▸ htakes) (by rw [List.length_drop]; omega)
      rw [hfront] at hout
      refine ⟨out, ?_, hout⟩
      rw [convert, hread]
      simp only [bind, Except.bind, Piece.args, List.nil_append, happend]
      rfl

end

/-! ### The loop -/

theorem Piece.literal_or_conversion (piece : Piece) :
    (∃ c terminal plain, piece = .literal c terminal plain) ∨
      ∃ letter, piece.format = [charPercent, letter] := by
  cases piece with
  | literal c terminal plain => exact .inl ⟨c, terminal, plain, rfl⟩
  | d value => exact .inr ⟨_, rfl⟩
  | i value => exact .inr ⟨_, rfl⟩
  | u value => exact .inr ⟨_, rfl⟩
  | x value => exact .inr ⟨_, rfl⟩
  | upperX value => exact .inr ⟨_, rfl⟩
  | s text terminal => exact .inr ⟨_, rfl⟩
  | percent => exact .inr ⟨_, rfl⟩

section

variable {S : Type}

def Line.waiting (str : List UInt8) (line : Line S) : List UInt8 :=
  (str.drop line.lstart).take line.lcpy

/-- The loop stands before the pieces, and the characters that wait end here. -/
structure At (str : List UInt8) (orgLen : Nat) (pieces : List Piece) (i : Nat)
    (line : Line S) : Prop where
  ahead : str.drop i = pieces.flatMap Piece.format ++ [0]
  length : i + (pieces.flatMap Piece.format).length = orgLen
  waiting : line.lstart + line.lcpy = i
  args : line.args = pieces.flatMap Piece.args

variable {str message : List UInt8} {orgLen i : Nat} {piece : Piece}
  {pieces : List Piece} {line : Line S} {fresh : Nat → Nat → UInt8} {fuel : Nat}

theorem At.length_str (hat : At str orgLen pieces i line) :
    orgLen + 1 = str.length := by
  have hahead := congrArg List.length hat.ahead
  have hlength := hat.length
  rw [List.length_drop, List.length_append, List.length_singleton] at hahead
  omega

theorem At.getElem? (hat : At str orgLen pieces i line) (k : Nat) :
    str[i + k]? = (pieces.flatMap Piece.format ++ [0])[k]? := by
  rw [← hat.ahead, List.getElem?_drop]

theorem At.literal {c : UInt8} {terminal : c ≠ 0} {plain : c ≠ charPercent}
    (hat : At str orgLen (.literal c terminal plain :: pieces) i line) :
    i < orgLen ∧ str[i]? = some c ∧
      At str orgLen pieces (i + 1) { line with lcpy := line.lcpy + 1 } ∧
      Line.waiting str { line with lcpy := line.lcpy + 1 } =
        line.waiting str ++ [c] := by
  have hlength := hat.length
  have hwaiting := hat.waiting
  have hc : str[i]? = some c := hat.getElem? 0
  have hahead : str.drop i = c :: (pieces.flatMap Piece.format ++ [0]) :=
    hat.ahead
  rw [List.flatMap_cons, List.length_append] at hlength
  refine ⟨?_, hc, ⟨?_, ?_, ?_, hat.args⟩, ?_⟩
  · simp only [Piece.format, List.length_singleton] at hlength
    omega
  · rw [← List.drop_drop, hahead]
    rfl
  · simp only [Piece.format, List.length_singleton] at hlength
    omega
  · simp only
    omega
  · simp only [Line.waiting]
    rw [List.take_add_one, List.getElem?_drop, hwaiting, hc]
    rfl

theorem At.conversion {letter : UInt8}
    (hat : At str orgLen (piece :: pieces) i line)
    (hformat : piece.format = [charPercent, letter]) :
    i + 1 < orgLen ∧ str[i]? = some charPercent ∧
      str[i + 1]? = some letter ∧
      line.args = piece.args ++ pieces.flatMap Piece.args ∧
      ∀ lstr : S, At str orgLen pieces (i + 2)
        ⟨i + 2, 0, pieces.flatMap Piece.args, lstr⟩ := by
  have hlength := hat.length
  have hahead := hat.ahead
  have hfirst := hat.getElem? 0
  have hsecond := hat.getElem? 1
  rw [List.flatMap_cons, hformat] at hlength hahead hfirst hsecond
  rw [List.length_append] at hlength
  simp only [List.length_cons, List.length_nil] at hlength
  refine ⟨by omega, hfirst, hsecond, ?_, fun lstr => ⟨?_, by omega, rfl, rfl⟩⟩
  · rw [hat.args, List.flatMap_cons]
  · rw [← List.drop_drop, hahead]
    rfl

variable [StringBuffer S]

theorem printkLoop_literal {c : UInt8} (hlt : i < orgLen)
    (hc : str[i]? = some c) (hne : c ≠ charPercent) :
    printkLoop fresh str orgLen (fuel + 1) i line =
      printkLoop fresh str orgLen fuel (i + 1)
        { line with lcpy := line.lcpy + 1 } := by
  rw [printkLoop, if_pos hlt]
  simp only [bind, Except.bind, readCell_of_some hc, if_neg hne]

variable [LawfulStringBuffer S]

/-- What has been appended and what waits is the message so far, and the string
takes the rest. -/
def Line.Says (str : List UInt8) (pieces : List Piece) (line : Line S)
    (message : List UInt8) : Prop :=
  ∃ text, Takes line.lstr text (segments (line.waiting str) pieces) ∧
    text ++ line.waiting str = message

theorem printkLoop_conversion {more : List (List UInt8)} {text : List UInt8}
    (hlt : i + 1 < orgLen) (hc : str[i]? = some charPercent)
    (htakes : Takes line.lstr text (line.waiting str :: more))
    (hwaiting : line.lstart + line.lcpy ≤ str.length) :
    ∃ flushed : S, Takes flushed (text ++ line.waiting str) more ∧
      printkLoop fresh str orgLen (fuel + 1) i line =
        match convert (fresh i) str (i + 1) line.args flushed with
        | .error fault => .error fault
        | .ok (args, lstr) =>
            printkLoop fresh str orgLen fuel (i + 2) ⟨i + 2, 0, args, lstr⟩ := by
  obtain ⟨flushed, happend, hflushed⟩ := append_ok htakes
    (show line.lcpy ≤ (str.drop line.lstart).length by
      rw [List.length_drop]
      omega)
  refine ⟨flushed, hflushed, ?_⟩
  rw [printkLoop, if_pos (by omega)]
  simp only [bind, Except.bind, readCell_of_some hc, if_true, happend]
  rw [if_neg (by omega)]
  cases convert (fresh i) str (i + 1) line.args flushed with
  | error fault => rfl
  | ok out => rfl

theorem At.step (hat : At str orgLen (piece :: pieces) i line)
    (hmessage : line.Says str (piece :: pieces) message) (hzero : ¬ piece.Zero)
    (hfuel : ((piece :: pieces).flatMap Piece.format).length ≤ fuel) :
    ∃ rest j next,
      printkLoop fresh str orgLen fuel i line =
        printkLoop fresh str orgLen rest j next ∧
      At str orgLen pieces j next ∧
      (pieces.flatMap Piece.format).length ≤ rest ∧
      next.Says str pieces (message ++ piece.produced) := by
  obtain ⟨text, htakes, rfl⟩ := hmessage
  rw [List.flatMap_cons, List.length_append] at hfuel
  rcases piece.literal_or_conversion with
    ⟨c, terminal, plain, rfl⟩ | ⟨letter, hformat⟩
  · simp only [Piece.format, List.length_singleton] at hfuel
    obtain ⟨rest, rfl⟩ : ∃ rest, fuel = rest + 1 := ⟨fuel - 1, by omega⟩
    obtain ⟨hlt, hc, hnext, hwaiting⟩ := hat.literal
    refine ⟨rest, _, _, printkLoop_literal hlt hc plain, hnext, by omega, text,
      ?_, ?_⟩
    · rw [hwaiting]
      exact htakes
    · rw [hwaiting, List.append_assoc]
      rfl
  · rw [hformat] at hfuel
    simp only [List.length_cons, List.length_nil] at hfuel
    obtain ⟨rest, rfl⟩ : ∃ rest, fuel = rest + 1 := ⟨fuel - 1, by omega⟩
    obtain ⟨hlt, hc, hletter, hargs, hnext⟩ := hat.conversion hformat
    have hlength := hat.length_str
    have hwaiting := hat.waiting
    rw [segments_conversion hformat] at htakes
    obtain ⟨flushed, hflushed, hstep⟩ :=
      @printkLoop_conversion _ _ _ _ _ fresh rest _ _ _ _ hlt hc htakes
        (by omega)
    obtain ⟨out, hconvert, hout⟩ := @convert_ok _ _ (fresh i) str _ (i + 1)
      (pieces.flatMap Piece.args) _ _ _ _ _ hflushed hformat hletter hzero
    refine ⟨rest, _, _, ?_, hnext out, by omega, _, hout, List.append_nil _⟩
    rw [hstep, hargs, hconvert]

/-- A zero in decimal takes the loop out of the block of its digits, when no byte
of that is zero. -/
theorem At.step_error (hat : At str orgLen (piece :: pieces) i line)
    (hmessage : line.Says str (piece :: pieces) message)
    (hfresh : ∀ i k, fresh i k ≠ 0) (hzero : piece.Zero)
    (hfuel : ((piece :: pieces).flatMap Piece.format).length ≤ fuel) :
    printkLoop fresh str orgLen fuel i line = .error .outOfBounds := by
  obtain ⟨text, htakes, -⟩ := hmessage
  rw [List.flatMap_cons, List.length_append] at hfuel
  rcases piece.literal_or_conversion with
    ⟨c, terminal, plain, rfl⟩ | ⟨letter, hformat⟩
  · cases hzero
  · rw [hformat] at hfuel
    simp only [List.length_cons, List.length_nil] at hfuel
    obtain ⟨rest, rfl⟩ : ∃ rest, fuel = rest + 1 := ⟨fuel - 1, by omega⟩
    obtain ⟨hlt, hc, hletter, hargs, -⟩ := hat.conversion hformat
    have hlength := hat.length_str
    have hwaiting := hat.waiting
    rw [segments_conversion hformat] at htakes
    obtain ⟨flushed, -, hstep⟩ :=
      @printkLoop_conversion _ _ _ _ _ fresh rest _ _ _ _ hlt hc htakes
        (by omega)
    rw [hstep, hargs, convert_error hformat hletter hzero (hfresh i)]

theorem At.run (hat : At str orgLen pieces i line)
    (hmessage : line.Says str pieces message)
    (hzero : ∀ piece ∈ pieces, ¬ piece.Zero)
    (hfuel : (pieces.flatMap Piece.format).length ≤ fuel) :
    ∃ last, printkLoop fresh str orgLen fuel i line = .ok last ∧
      last.lstart + last.lcpy = orgLen ∧
      last.Says str [] (message ++ pieces.flatMap Piece.produced) := by
  induction pieces generalizing fuel i line message with
  | nil =>
      have hend : i = orgLen := hat.length
      rw [List.flatMap_nil, List.append_nil]
      refine ⟨line, ?_, hat.waiting.trans hend, hmessage⟩
      cases fuel with
      | zero => rfl
      | succ fuel =>
          rw [printkLoop, if_neg (by omega)]
          rfl
  | cons piece pieces ih =>
      obtain ⟨rest, j, next, hstep, hnext, hrest, hafter⟩ :=
        @At.step _ _ _ _ _ _ _ _ fresh _ _ _ hat hmessage (hzero piece (.head _))
          hfuel
      obtain ⟨last, hloop, hend, hlast⟩ :=
        ih hnext hafter (fun other hother => hzero other (.tail _ hother)) hrest
      rw [List.append_assoc] at hlast
      exact ⟨last, hstep.trans hloop, hend, hlast⟩

theorem At.run_error (hat : At str orgLen pieces i line)
    (hmessage : line.Says str pieces message)
    (hfresh : ∀ i k, fresh i k ≠ 0) (hzero : ∃ piece ∈ pieces, piece.Zero)
    (hfuel : (pieces.flatMap Piece.format).length ≤ fuel) :
    printkLoop fresh str orgLen fuel i line = .error .outOfBounds := by
  induction pieces generalizing fuel i line message with
  | nil =>
      obtain ⟨piece, hpiece, -⟩ := hzero
      cases hpiece
  | cons piece pieces ih =>
      by_cases hhere : piece.Zero
      · exact hat.step_error hmessage hfresh hhere hfuel
      · obtain ⟨rest, j, next, hstep, hnext, hrest, hafter⟩ :=
          @At.step _ _ _ _ _ _ _ _ fresh _ _ _ hat hmessage hhere hfuel
        obtain ⟨other, hother, hotherZero⟩ := hzero
        rw [hstep]
        rcases List.mem_cons.mp hother with rfl | htail
        · exact absurd hotherZero hhere
        · exact ih hnext hafter ⟨other, htail, hotherZero⟩ hrest

end

/-! ### What is produced and what is expected -/

theorem length_numeral {base value : Nat} {char : Nat → UInt8}
    (hne : value ≠ 0) :
    (numeral base char value).length = (Nat.digits base value).length := by
  rw [numeral, if_neg hne, List.length_reverse, List.length_map]

theorem signExtend_toNat (value : BitVec 32) :
    0 ≤ value.toInt ∧ (value.signExtend 64).toNat = value.toNat ∨
      value.toInt < 0 ∧ value.toInt.natAbs ≤ 2 ^ 31 ∧
        2 ^ 64 - 2 ^ 31 ≤ (value.signExtend 64).toNat := by
  have hint : (value.signExtend 64).toInt = value.toInt :=
    BitVec.toInt_signExtend_of_le (by decide)
  have hlt := value.isLt
  have hwide := (value.signExtend 64).isLt
  rw [BitVec.toInt_eq_toNat_cond, BitVec.toInt_eq_toNat_cond] at hint
  rw [BitVec.toInt_eq_toNat_cond]
  omega

theorem length_signed_lt {value : BitVec 32} (hneg : value.toInt < 0) :
    (signedDecimal value).length <
      (numeral 10 decimalChar (value.signExtend 64).toNat).length := by
  rcases signExtend_toNat value with ⟨hnonneg, -⟩ | ⟨-, habs, hwide⟩
  · omega
  · have hshort : (Nat.digits 10 value.toInt.natAbs).length ≤ 10 :=
      (Nat.digits_length_le_iff (by decide) _).mpr (by omega)
    have hlong : 19 < (Nat.digits 10 (value.signExtend 64).toNat).length :=
      (Nat.lt_digits_length_iff (by decide) _).mpr (by omega)
    rw [signedDecimal, if_pos hneg, List.length_cons,
      length_numeral (by omega), length_numeral (by omega)]
    omega

theorem signed_eq {value : BitVec 32} (hpos : 0 < value.toInt) :
    numeral 10 decimalChar (value.signExtend 64).toNat =
      signedDecimal value := by
  rcases signExtend_toNat value with ⟨-, hsame⟩ | ⟨hneg, -⟩
  · rw [hsame, signedDecimal, if_neg (by omega)]
  · omega

theorem toInt_pos_or_neg {value : BitVec 32} (hne : value ≠ 0) :
    0 < value.toInt ∨ value.toInt < 0 := by
  rcases Int.lt_trichotomy value.toInt 0 with hneg | hzero | hpos
  · exact .inr hneg
  · exact absurd (BitVec.eq_of_toInt_eq (hzero.trans (by decide))) hne
  · exact .inl hpos

theorem Piece.Positive.not_zero {piece : Piece} (hpositive : piece.Positive) :
    ¬ piece.Zero := by
  cases piece with
  | d value =>
      rintro rfl
      exact absurd hpositive (by decide)
  | i value =>
      rintro rfl
      exact absurd hpositive (by decide)
  | u value => exact hpositive
  | literal c terminal plain => exact id
  | x value => exact id
  | upperX value => exact id
  | s text terminal => exact id
  | percent => exact id

theorem Piece.Positive.produced_eq {piece : Piece}
    (hpositive : piece.Positive) : piece.produced = piece.expected := by
  cases piece with
  | d value => exact signed_eq hpositive
  | i value => exact signed_eq hpositive
  | u value => rfl
  | literal c terminal plain => rfl
  | x value => rfl
  | upperX value => rfl
  | s text terminal => rfl
  | percent => rfl

/-- Any other piece that is printed at all is printed too long. -/
theorem Piece.positive_or_longer {piece : Piece} (hzero : ¬ piece.Zero) :
    piece.Positive ∨ piece.expected.length < piece.produced.length := by
  cases piece with
  | d value => exact (toInt_pos_or_neg hzero).imp_right length_signed_lt
  | i value => exact (toInt_pos_or_neg hzero).imp_right length_signed_lt
  | u value => exact .inl hzero
  | literal c terminal plain => exact .inl trivial
  | x value => exact .inl trivial
  | upperX value => exact .inl trivial
  | s text terminal => exact .inl trivial
  | percent => exact .inl trivial

/-- Printed pieces are never shorter than expected, and of the same length only
if there is none too long. -/
theorem length_expected_le {pieces : List Piece}
    (hzero : ∀ piece ∈ pieces, ¬ piece.Zero) :
    (pieces.flatMap Piece.expected).length ≤
        (pieces.flatMap Piece.produced).length ∧
      ((pieces.flatMap Piece.produced).length =
          (pieces.flatMap Piece.expected).length →
        ∀ piece ∈ pieces, piece.Positive) := by
  induction pieces with
  | nil =>
      refine ⟨Nat.le_refl _, fun _ piece hpiece => ?_⟩
      cases hpiece
  | cons piece pieces ih =>
      obtain ⟨hle, hall⟩ := ih fun other hother => hzero other (.tail _ hother)
      simp only [List.flatMap_cons, List.length_append]
      rcases Piece.positive_or_longer (hzero piece (.head _)) with
        hpositive | hlonger
      · rw [hpositive.produced_eq]
        refine ⟨by omega, fun hlength other hother => ?_⟩
        rcases List.mem_cons.mp hother with rfl | htail
        · exact hpositive
        · exact hall (by omega) other htail
      · exact ⟨by omega, fun hlength => by omega⟩

/-! ### The message -/

section

variable {logLevel : Nat} {level : LogLevel} {pieces : List Piece}
  {own fresh : Nat → Nat → UInt8}

theorem conversion_ne_zero {conversion : UInt8} (hne : conversion ≠ 0) :
    ∀ c ∈ [charPercent, conversion], c ≠ 0 := by
  intro c hc
  rcases List.mem_pair.mp hc with rfl | rfl
  · decide
  · exact hne

theorem Piece.format_ne_zero (piece : Piece) : ∀ c ∈ piece.format, c ≠ 0 := by
  cases piece with
  | literal c terminal plain =>
      intro other hother
      rw [List.mem_singleton.mp hother]
      exact terminal
  | d value => exact conversion_ne_zero (by decide)
  | i value => exact conversion_ne_zero (by decide)
  | u value => exact conversion_ne_zero (by decide)
  | x value => exact conversion_ne_zero (by decide)
  | upperX value => exact conversion_ne_zero (by decide)
  | s text terminal => exact conversion_ne_zero (by decide)
  | percent => exact conversion_ne_zero (by decide)

theorem strlen_format (pieces : List Piece) :
    strlen (pieces.flatMap Piece.format ++ [0]) =
      .ok (pieces.flatMap Piece.format).length := by
  refine strlen_text ?_
  intro c hc
  obtain ⟨piece, -, hpiece⟩ := List.mem_flatMap.mp hc
  exact piece.format_ne_zero c hpiece

section

variable {S : Type} [StringBuffer S]

omit [StringBuffer S] in
theorem at_start (lstr : S) :
    At (pieces.flatMap Piece.format ++ [0])
      (pieces.flatMap Piece.format).length pieces 0
      ⟨0, 0, pieces.flatMap Piece.args, lstr⟩ where
  ahead := rfl
  length := Nat.zero_add _
  waiting := rfl
  args := rfl

variable [LawfulStringBuffer S]

/-- The message is what the pieces produce, when each of them produces something
and the string takes that. -/
theorem printkPieces_ok (htakes : Takes (StringBuffer.new own : S) []
      (segments [] pieces))
    (hzero : ∀ piece ∈ pieces, ¬ piece.Zero) :
    ∃ call : Printed S,
      printkPieces logLevel own fresh level pieces = .ok (some call) ∧
      StringBuffer.text call.lstr = pieces.flatMap Piece.produced := by
  obtain ⟨last, hloop, hend, text, hlast, hmessage⟩ :=
    @At.run _ _ [] _ _ _ _ fresh _ _ _ (at_start (StringBuffer.new own : S))
      ⟨[], htakes, rfl⟩ hzero (Nat.le_refl _)
  rw [List.nil_append] at hmessage
  simp only [printkPieces, printk, Bool.not_true, Bool.false_eq_true,
    if_false, strlen_format, bind, Except.bind, hloop]
  by_cases hwaiting : 0 < last.lcpy
  · have hroom : last.lcpy ≤ ((pieces.flatMap Piece.format ++ [0]).drop
        last.lstart).length := by
      rw [List.length_drop, List.length_append]
      omega
    have hsome : last.waiting (pieces.flatMap Piece.format ++ [0]) ≠ [] := by
      rw [← List.length_pos_iff, Line.waiting, List.length_take]
      omega
    rw [segments, if_neg hsome] at hlast
    obtain ⟨out, happend, hout⟩ := append_ok hlast hroom
    simp only [if_pos hwaiting, happend]
    exact ⟨_, rfl, (LawfulStringBuffer.text_eq hout).trans hmessage⟩
  · have hnone : last.waiting (pieces.flatMap Piece.format ++ [0]) = [] := by
      rw [Line.waiting, Nat.eq_zero_of_not_pos hwaiting, List.take_zero]
    rw [hnone, List.append_nil] at hmessage
    rw [if_neg hwaiting]
    exact ⟨_, rfl, (LawfulStringBuffer.text_eq hlast).trans hmessage⟩

theorem printkPieces_error (htakes : Takes (StringBuffer.new own : S) []
      (segments [] pieces))
    (hfresh : ∀ i k, fresh i k ≠ 0)
    (hzero : ∃ piece ∈ pieces, piece.Zero) :
    @printkPieces S _ logLevel own fresh level pieces =
      .error .outOfBounds := by
  have hloop := (at_start (StringBuffer.new own : S)).run_error
    ⟨[], htakes, rfl⟩ hfresh hzero (Nat.le_refl _)
  simp only [printkPieces, printk, Bool.not_true, Bool.false_eq_true,
    if_false, strlen_format, bind, Except.bind, hloop]

end

/-- The message is the one C prints exactly when no signed number in decimal is
zero or negative, and no unsigned one zero. -/
theorem printsLikeC_iff (level : LogLevel) (pieces : List Piece) :
    PrintsLikeC level pieces ↔ ∀ piece ∈ pieces, piece.Positive := by
  constructor
  · intro hprints
    have hzero : ∀ piece ∈ pieces, ¬ piece.Zero := by
      by_contra hnot
      simp only [not_forall, not_not] at hnot
      obtain ⟨piece, hpiece, hzero⟩ := hnot
      have hreturns := hprints 0 (fun _ _ => 1) (fun _ _ => 1)
      rw [printkPieces_error rfl (fun _ _ => by decide)
        ⟨piece, hpiece, hzero⟩] at hreturns
      exact hreturns
    obtain ⟨call, hcall, htext⟩ := @printkPieces_ok 0 level pieces
      (fun _ _ => 0) (fun _ _ => 0) GrowingString _ _ rfl hzero
    have hreturns := hprints 0 (fun _ _ => 0) (fun _ _ => 0)
    rw [hcall, returns_ok, Option.map_some, Option.some.injEq] at hreturns
    exact (length_expected_le hzero).2
      (congrArg List.length (htext.symm.trans hreturns))
  · intro hpositive logLevel own fresh
    obtain ⟨call, hcall, htext⟩ := @printkPieces_ok logLevel level pieces own
      fresh GrowingString _ _ rfl
      fun piece hpiece => (hpositive piece hpiece).not_zero
    rw [hcall, returns_ok, Option.map_some]
    exact congrArg some (htext.trans (List.flatMap_congr fun piece hpiece =>
      (hpositive piece hpiece).produced_eq))

end

/-- Minus one comes out as the largest 64-bit number. -/
theorem not_printsLikeC_minus_one : ¬ PrintsLikeC .info [.d (-1)] := by
  intro hprints
  have hreturns := hprints 4 (fun _ _ => 0) (fun _ _ => 0)
  revert hreturns
  decide +kernel

end Synos.Printk

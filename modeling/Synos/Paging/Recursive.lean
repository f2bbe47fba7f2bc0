import Synos.Paging.Walk

namespace Synos.Paging

open Synos.Data

/-! The address through which a table entry is reached by way of the self-map. -/

/-- The loop of `get_table_address` that puts index 511 at the top levels. -/
def setWindow (address : BitVec 64) : Nat → BitVec 64
  | 0 => address
  | i + 1 => setWindow address i ||| (511#64 <<< (39 - 9 * i))

def getTableAddress (address : BitVec 64) (level : Nat) : BitVec 64 :=
  let tableAddress := address >>> (9 * level)
  let tableAddress := tableAddress &&& ~~~7#64
  let tableAddress := setWindow tableAddress level
  if (tableAddress >>> 47) &&& 1#64 ≠ 0#64 then
    tableAddress ||| (0xFFFF#64 <<< 48)
  else
    tableAddress &&& ~~~(0xFFFF#64 <<< 48)

/-! Bit by bit. -/

theorem getLsbD_ones (width bit : Nat) (hwidth : width ≤ 64) :
    (BitVec.ofNat 64 (2 ^ width - 1)).getLsbD bit = decide (bit < width) := by
  rw [BitVec.getLsbD_ofNat, Nat.testBit_two_pow_sub_one]
  by_cases hlt : bit < width
  · simp [hlt, Nat.lt_of_lt_of_le hlt hwidth]
  · simp [hlt]

theorem getLsbD_ones_shiftLeft (width shift : Nat) {bit : Nat}
    (hwidth : width ≤ 64) (hbit : bit < 64) :
    (BitVec.ofNat 64 (2 ^ width - 1) <<< shift).getLsbD bit =
      decide (shift ≤ bit ∧ bit < shift + width) := by
  rw [BitVec.getLsbD_shiftLeft, getLsbD_ones _ _ hwidth]
  simp only [hbit, decide_true, Bool.true_and]
  by_cases hlow : bit < shift
  · have hnone : ¬ (shift ≤ bit ∧ bit < shift + width) := by omega
    simp [hlow, decide_eq_false hnone]
  · have hrange : bit - shift < width ↔ bit < shift + width := by omega
    simp [hlow, hrange]
    omega

theorem getLsbD_setWindow {address : BitVec 64} {level bit : Nat}
    (hlevel : level ≤ 4) (hbit : bit < 64) :
    (setWindow address level).getLsbD bit =
      (address.getLsbD bit || decide (48 - 9 * level ≤ bit ∧ bit < 48)) := by
  induction level with
  | zero =>
      have hnone : ¬ (48 - 9 * 0 ≤ bit ∧ bit < 48) := by omega
      rw [setWindow, decide_eq_false hnone, Bool.or_false]
  | succ level ih =>
      have hones := @getLsbD_ones_shiftLeft 9 (39 - 9 * level) bit
        (by decide) hbit
      rw [show 2 ^ 9 - 1 = 511 from rfl] at hones
      rw [setWindow, BitVec.getLsbD_or, ih (by omega), hones, Bool.or_assoc,
        ← Bool.decide_or]
      congr 2
      apply propext
      omega

theorem getLsbD_getTableAddress {address : BitVec 64} {level bit : Nat}
    (hpos : 1 ≤ level) (hlevel : level ≤ 4) (hbit : bit < 64) :
    (getTableAddress address level).getLsbD bit =
      (decide (48 - 9 * level ≤ bit) ||
        decide (3 ≤ bit) && address.getLsbD (bit + 9 * level)) := by
  have hlow : ∀ bit < 64,
      ((address >>> (9 * level)) &&& ~~~7#64).getLsbD bit =
        (decide (3 ≤ bit) && address.getLsbD (bit + 9 * level)) := by
    intro bit hbit
    have hseven := getLsbD_ones 3 bit (by decide)
    rw [show 2 ^ 3 - 1 = 7 from rfl] at hseven
    rw [BitVec.getLsbD_and, BitVec.getLsbD_not, BitVec.getLsbD_ushiftRight,
      hseven, Nat.add_comm bit]
    by_cases hthree : 3 ≤ bit
    · have hge : ¬ bit < 3 := by omega
      simp [hbit, hthree, hge]
    · have hlt : bit < 3 := by omega
      simp [hthree, hlt]
  have hwindow : ∀ bit < 64,
      (setWindow ((address >>> (9 * level)) &&& ~~~7#64) level).getLsbD bit =
        (decide (3 ≤ bit) && address.getLsbD (bit + 9 * level) ||
          decide (48 - 9 * level ≤ bit ∧ bit < 48)) := by
    intro bit hbit
    rw [getLsbD_setWindow hlevel hbit, hlow bit hbit]
  have hsign : ((setWindow ((address >>> (9 * level)) &&& ~~~7#64) level >>> 47)
      &&& 1#64) ≠ 0#64 := by
    intro hzero
    have hbit47 := congrArg (fun word => BitVec.getLsbD word 0) hzero
    simp only [BitVec.getLsbD_and, BitVec.getLsbD_ushiftRight] at hbit47
    rw [hwindow 47 (by decide)] at hbit47
    have hmid : 48 - 9 * level ≤ 47 := by omega
    simp [hmid] at hbit47
  have hones := @getLsbD_ones_shiftLeft 16 48 bit (by decide) hbit
  rw [show 2 ^ 16 - 1 = 0xFFFF from rfl] at hones
  unfold getTableAddress
  simp only
  rw [if_pos hsign, BitVec.getLsbD_or, hwindow bit hbit, hones]
  cases decide (3 ≤ bit) && address.getLsbD (bit + 9 * level) with
  | true => simp
  | false =>
      simp only [Bool.false_or, Bool.or_false, ← Bool.decide_or]
      congr 1
      apply propext
      omega

/-! What the walk of that address reads. -/

section

variable {address : BitVec 64} {level : Nat}

theorem getTableAddress_canonical (hpos : 1 ≤ level) (hlevel : level ≤ 4) :
    canonical (getTableAddress address level) := by
  apply canonical_of_bits
  intro bit hge hlt
  have hbit : 48 - 9 * level ≤ bit := by omega
  have hsign : 48 - 9 * level ≤ 47 := by omega
  rw [getLsbD_getTableAddress hpos hlevel hlt,
    getLsbD_getTableAddress hpos hlevel (by decide)]
  simp [hbit, hsign]

/-- The top `level` levels index the self-map. -/
theorem tableIndex_getTableAddress_window {above : Nat} (hpos : 1 ≤ level)
    (hlevel : level ≤ 4) (hge : 4 - level < above) (hle : above ≤ 4) :
    tableIndex (getTableAddress address level) above = 511 := by
  apply BitVec.eq_of_getLsbD_eq
  intro bit hbit
  have hones := getLsbD_ones 9 bit (by decide)
  have h511 : (511 : BitVec 9).getLsbD bit = true := by
    rw [show (511 : BitVec 9) = BitVec.ofNat 9 (2 ^ 9 - 1) from rfl,
      BitVec.getLsbD_ofNat, Nat.testBit_two_pow_sub_one]
    simp [hbit]
  have hwindow : 48 - 9 * level ≤ 12 + 9 * (above - 1) + bit := by omega
  rw [h511, tableIndex, BitVec.getLsbD_extractLsb',
    getLsbD_getTableAddress hpos hlevel (by omega)]
  simp [hbit, hwindow]

/-- The levels below index the tables of `address`, moved down by `level`. -/
theorem tableIndex_getTableAddress_below {below : Nat} (hpos : 1 ≤ level)
    (hlevel : level ≤ 4) (hbelow : 1 ≤ below) (hle : below + level ≤ 4) :
    tableIndex (getTableAddress address level) below =
      tableIndex address (below + level) := by
  apply BitVec.eq_of_getLsbD_eq
  intro bit hbit
  have hlow : ¬ 48 - 9 * level ≤ 12 + 9 * (below - 1) + bit := by omega
  have hthree : 3 ≤ 12 + 9 * (below - 1) + bit := by omega
  have hshift : 12 + 9 * (below - 1) + bit + 9 * level =
      12 + 9 * (below + level - 1) + bit := by omega
  simp only [tableIndex, BitVec.getLsbD_extractLsb', hbit, decide_true,
    Bool.true_and]
  rw [getLsbD_getTableAddress hpos hlevel (by omega), hshift]
  simp [hlow, hthree]

theorem getTableAddress_offset (hpos : 1 ≤ level) (hlevel : level ≤ 4) :
    (getTableAddress address level).extractLsb' 0 12 =
      (tableIndex address level).setWidth 12 <<< 3 := by
  apply BitVec.eq_of_getLsbD_eq
  intro bit hbit
  have hlow : ¬ 48 - 9 * level ≤ bit := by omega
  rw [BitVec.getLsbD_extractLsb', BitVec.getLsbD_shiftLeft,
    BitVec.getLsbD_setWidth, tableIndex, BitVec.getLsbD_extractLsb',
    Nat.zero_add, getLsbD_getTableAddress hpos hlevel (by omega)]
  by_cases hthree : 3 ≤ bit
  · have hge : ¬ bit < 3 := by omega
    have hindex : bit - 3 < 9 := by omega
    have hwidth : bit - 3 < 12 := by omega
    have hshift : 12 + 9 * (level - 1) + (bit - 3) = bit + 9 * level := by
      omega
    simp [hbit, hlow, hthree, hge, hindex, hwidth, hshift]
  · have hlt : bit < 3 := by omega
    simp [hlow, hthree, hlt]

variable {memory : Memory} {root : Frame}

/-- The self-map leads back to the root, however often it is followed. -/
theorem descend_window (hself : SelfMapped memory root) {target : BitVec 64}
    {start steps : Nat}
    (hindex : ∀ above, start - steps < above → above ≤ start →
      tableIndex target above = 511) (hsteps : steps ≤ start) :
    descend memory target start steps root = some root := by
  induction steps generalizing start with
  | zero => rfl
  | succ steps ih =>
      rw [descend, hindex start (by omega) (Nat.le_refl _), if_pos hself.present, hself.frame]
      apply ih
      · intro above hgt hle
        exact hindex above (by omega) (by omega)
      · omega

/-- Two addresses whose indices agree up to a shift of the levels walk through
the same tables. -/
theorem descend_shift {target : BitVec 64} {shift : Nat} :
    ∀ {steps below : Nat} {table : Frame}, steps ≤ below →
      (∀ other, below - steps < other → other ≤ below →
        tableIndex target other = tableIndex address (other + shift)) →
      descend memory target below steps table =
        descend memory address (below + shift) steps table := by
  intro steps
  induction steps with
  | zero =>
      intro below table _ _
      rfl
  | succ steps ih =>
      intro below table hsteps hindex
      have hnext : below + shift - 1 = below - 1 + shift := by omega
      rw [descend, descend, hindex below (by omega) (Nat.le_refl _), hnext]
      split
      · apply ih (by omega)
        intro other hgt hle
        exact hindex other (by omega) (by omega)
      · rfl

/-- Walking a table address is looking up the table. -/
theorem walk_getTableAddress (hself : SelfMapped memory root)
    (hpos : 1 ≤ level) (hlevel : level ≤ 4) :
    walk memory root (getTableAddress address level) =
      (tableOf memory root address level).map fun table =>
        (table, (tableIndex address level).setWidth 12 <<< 3) := by
  have hwindow : descend memory (getTableAddress address level) 4 level root =
      some root := by
    apply descend_window hself _ hlevel
    intro above hgt hle
    exact tableIndex_getTableAddress_window hpos hlevel hgt hle
  have hbelow : descend memory (getTableAddress address level) (4 - level)
      (4 - level) root = descend memory address 4 (4 - level) root := by
    have hshift := @descend_shift address memory
      (getTableAddress address level) level (4 - level) (4 - level) root
      (Nat.le_refl _) (by
        intro other hgt hle
        exact tableIndex_getTableAddress_below hpos hlevel (by omega)
          (by omega))
    rwa [Nat.sub_add_cancel hlevel] at hshift
  have hsplit := @descend_add memory (getTableAddress address level) 4 level
    (4 - level) root
  rw [Nat.add_sub_cancel' hlevel, hwindow, Option.bind_some, hbelow] at hsplit
  rw [walk, if_pos (getTableAddress_canonical hpos hlevel), hsplit,
    getTableAddress_offset hpos hlevel]
  rfl

end

/-- `get_table_address` is canonical, and the processor resolves it to the entry
of `address` at `level` exactly when the entries above are present. -/
theorem getTableAddress_resolves {memory : Memory} {root : Frame}
    (hself : SelfMapped memory root) (address : BitVec 64) {level : Nat}
    (hpos : 1 ≤ level) (hlevel : level ≤ 4) :
    canonical (getTableAddress address level) ∧
      ((walk memory root (getTableAddress address level)).isSome ↔
        ∀ above, level < above → above ≤ 4 →
          EntryPresent memory root address above) ∧
      ∀ table, tableOf memory root address level = some table →
        walk memory root (getTableAddress address level) =
          some (table, (tableIndex address level).setWidth 12 <<< 3) := by
  have hwalk := @walk_getTableAddress address level memory root hself hpos
    hlevel
  refine ⟨getTableAddress_canonical hpos hlevel, ?_, ?_⟩
  · rw [hwalk, Option.isSome_map]
    exact tableOf_isSome_iff hlevel
  · intro table htable
    rw [hwalk, htable]
    rfl

/-- The boot tables, right after the self-map: the root entry of an address in
the upper half. -/
theorem getTableAddress_resolves_boot :
    walk (pgaInit (fun _ _ => 0) 0x101000#64) (frameOf 0x101000#64)
        (getTableAddress 0xFFFFFF8000201008#64 4) =
      some (0x101#40, (511#9).setWidth 12 <<< 3) :=
  (getTableAddress_resolves (pgaInit_selfMapped _ _) 0xFFFFFF8000201008#64
    (show 1 ≤ 4 by decide) (by decide)).2.2 _ rfl

end Synos.Paging

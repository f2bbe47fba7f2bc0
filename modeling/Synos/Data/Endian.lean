import Synos.Data.Bytes

namespace Synos.Data

/-! Byte orders: fixed-width numbers as lists of bytes, the same bytes in memory,
and what a little-endian load makes of either order. -/

inductive ByteOrder
  | little
  | big
  deriving DecidableEq, Repr

/-- The low `count` bytes of a number, least significant first. -/
def toBytes : (count value : Nat) → List UInt8
  | 0, _ => []
  | count + 1, value =>
      UInt8.ofNat (value % 256) :: toBytes count (value / 256)

def fromBytes : List UInt8 → Nat
  | [] => 0
  | byte :: rest => byte.toNat + 256 * fromBytes rest

@[simp] theorem length_toBytes (count value : Nat) :
    (toBytes count value).length = count := by
  induction count generalizing value with
  | zero => rfl
  | succ count ih => rw [toBytes, List.length_cons, ih]

theorem fromBytes_lt (bytes : List UInt8) :
    fromBytes bytes < 256 ^ bytes.length := by
  induction bytes with
  | nil => decide
  | cons byte rest ih =>
      have hbyte := byte.toNat_lt
      rw [fromBytes, List.length_cons, pow_succ]
      omega

theorem fromBytes_toBytes {count value : Nat} (hvalue : value < 256 ^ count) :
    fromBytes (toBytes count value) = value := by
  induction count generalizing value with
  | zero =>
      rw [pow_zero] at hvalue
      simp only [toBytes, fromBytes]
      omega
  | succ count ih =>
      rw [pow_succ, Nat.mul_comm] at hvalue
      rw [toBytes, fromBytes, ih (Nat.div_lt_of_lt_mul hvalue),
        UInt8.toNat_ofNat', Nat.mod_mod]
      omega

theorem toBytes_fromBytes (bytes : List UInt8) :
    toBytes bytes.length (fromBytes bytes) = bytes := by
  induction bytes with
  | nil => rfl
  | cons byte rest ih =>
      have hbyte := byte.toNat_lt
      have hlow : (byte.toNat + 256 * fromBytes rest) % 256 = byte.toNat := by
        omega
      have hhigh : (byte.toNat + 256 * fromBytes rest) / 256 =
          fromBytes rest := by
        omega
      rw [List.length_cons, fromBytes, toBytes, hlow, hhigh, ih,
        UInt8.ofNat_toNat]

theorem toBytes_append {first : Nat} (second low high : Nat)
    (hlow : low < 256 ^ first) :
    toBytes (first + second) (low + 256 ^ first * high) =
      toBytes first low ++ toBytes second high := by
  induction first generalizing low with
  | zero =>
      rw [pow_zero] at hlow
      obtain rfl : low = 0 := by omega
      simp [toBytes]
  | succ first ih =>
      rw [pow_succ, Nat.mul_comm] at hlow
      have hsplit : low + 256 ^ (first + 1) * high =
          256 * (low / 256 + 256 ^ first * high) + low % 256 := by
        rw [pow_succ, Nat.mul_comm (256 ^ first), Nat.mul_assoc]
        omega
      have hhigh : (low + 256 ^ (first + 1) * high) / 256 =
          low / 256 + 256 ^ first * high := by
        omega
      have hbyte : (low + 256 ^ (first + 1) * high) % 256 = low % 256 := by
        omega
      rw [Nat.add_right_comm, toBytes, hhigh, hbyte,
        ih _ (Nat.div_lt_of_lt_mul hlow)]
      rfl

theorem testBit_fromBytes (bytes : List UInt8) (bit : Nat) :
    (fromBytes bytes).testBit bit =
      (bytes.getD (bit / 8) 0).toNat.testBit (bit % 8) := by
  induction bytes generalizing bit with
  | nil => simp [fromBytes]
  | cons byte rest ih =>
      rw [fromBytes, Nat.add_comm]
      rw [show (256 : Nat) = 2 ^ 8 from rfl,
        Nat.testBit_two_pow_mul_add _ byte.toNat_lt]
      split
      · next hlow =>
          rw [Nat.div_eq_of_lt hlow, Nat.mod_eq_of_lt hlow]
          rfl
      · next hhigh =>
          obtain ⟨place, rfl⟩ := Nat.exists_eq_add_of_le (Nat.le_of_not_lt hhigh)
          rw [ih, Nat.add_sub_cancel_left, Nat.add_comm 8,
            Nat.add_div_right _ (by decide), Nat.add_mod_right,
            List.getD_cons_succ]

theorem testBit_toBytes {count place : Nat} (hplace : place < count)
    (value : Nat) {bit : Nat} (hbit : bit < 8) :
    ((toBytes count value).getD place 0).toNat.testBit bit =
      value.testBit (8 * place + bit) := by
  induction count generalizing place value with
  | zero => omega
  | succ count ih =>
      cases place with
      | zero =>
          rw [toBytes, List.getD_cons_zero, UInt8.toNat_ofNat', Nat.mod_mod,
            show (256 : Nat) = 2 ^ 8 from rfl, Nat.testBit_mod_two_pow]
          simp [hbit]
      | succ place =>
          rw [toBytes, List.getD_cons_succ, ih (by omega),
            show (256 : Nat) = 2 ^ 8 from rfl, Nat.testBit_div_two_pow,
            Nat.mul_succ, Nat.add_right_comm]

theorem pow_byteWidth {width : Nat} (hwidth : 8 ∣ width) :
    256 ^ (width / 8) = 2 ^ width := by
  obtain ⟨count, rfl⟩ := hwidth
  rw [Nat.mul_div_cancel_left _ (by decide), pow_mul]
  rfl

section

variable {width : Nat}

def ByteOrder.arrange : ByteOrder → List UInt8 → List UInt8
  | .little, bytes => bytes
  | .big, bytes => bytes.reverse

def encode (order : ByteOrder) (value : BitVec width) : List UInt8 :=
  order.arrange (toBytes (width / 8) value.toNat)

def byteSwap (value : BitVec width) : BitVec width :=
  BitVec.ofNat width (fromBytes (toBytes (width / 8) value.toNat).reverse)

/-- What a little-endian load of an encoded number gives. -/
def ByteOrder.stored : ByteOrder → BitVec width → BitVec width
  | .little, value => value
  | .big, value => byteSwap value

/-- Two encoded numbers one after the other, taken for a single one. -/
def ByteOrder.join : ByteOrder → BitVec width → BitVec width →
    BitVec (width + width)
  | .little, first, second => second ++ first
  | .big, first, second => first ++ second

@[simp] theorem length_encode (order : ByteOrder) (value : BitVec width) :
    (encode order value).length = width / 8 := by
  cases order with
  | little => exact length_toBytes _ _
  | big => rw [encode, ByteOrder.arrange, List.length_reverse, length_toBytes]

theorem toBytes_byteSwap (hwidth : 8 ∣ width) (value : BitVec width) :
    toBytes (width / 8) (byteSwap value).toNat =
      (toBytes (width / 8) value.toNat).reverse := by
  have hlength : (toBytes (width / 8) value.toNat).reverse.length =
      width / 8 := by
    rw [List.length_reverse, length_toBytes]
  have hlt := fromBytes_lt (toBytes (width / 8) value.toNat).reverse
  have hbytes := toBytes_fromBytes (toBytes (width / 8) value.toNat).reverse
  rw [hlength, pow_byteWidth hwidth] at hlt
  rw [hlength] at hbytes
  rw [byteSwap, BitVec.toNat_ofNat, Nat.mod_eq_of_lt hlt, hbytes]

theorem getLsbD_byteSwap (hwidth : 8 ∣ width) (value : BitVec width)
    {bit : Nat} (hbit : bit < width) :
    (byteSwap value).getLsbD bit =
      value.getLsbD (8 * (width / 8 - 1 - bit / 8) + bit % 8) := by
  obtain ⟨count, rfl⟩ := hwidth
  rw [Nat.mul_div_cancel_left _ (by decide)]
  have hplace : bit / 8 < count := by omega
  have hlength := length_toBytes count value.toNat
  rw [byteSwap, Nat.mul_div_cancel_left _ (by decide), BitVec.getLsbD_ofNat,
    decide_eq_true hbit, Bool.true_and, testBit_fromBytes,
    List.getD_eq_getElem?_getD, List.getElem?_reverse (by omega), hlength,
    ← List.getD_eq_getElem?_getD, testBit_toBytes (by omega) _ (by omega),
    BitVec.testBit_toNat]

theorem fromBytes_toBytes_toNat (hwidth : 8 ∣ width) (value : BitVec width) :
    fromBytes (toBytes (width / 8) value.toNat) = value.toNat :=
  fromBytes_toBytes (by rw [pow_byteWidth hwidth]; exact value.isLt)

@[simp] theorem byteSwap_byteSwap (hwidth : 8 ∣ width) (value : BitVec width) :
    byteSwap (byteSwap value) = value := by
  conv_lhs => rw [byteSwap]
  rw [toBytes_byteSwap hwidth, List.reverse_reverse,
    fromBytes_toBytes_toNat hwidth, BitVec.ofNat_toNat, BitVec.setWidth_eq]

theorem encode_append (hwidth : 8 ∣ width) (order : ByteOrder)
    (first second : BitVec width) :
    encode order first ++ encode order second =
      encode order (order.join first second) := by
  have hcount : (width + width) / 8 = width / 8 + width / 8 := by omega
  have hjoined : ∀ high low : BitVec width,
      toBytes (width / 8 + width / 8) (high ++ low).toNat =
        toBytes (width / 8) low.toNat ++ toBytes (width / 8) high.toNat := by
    intro high low
    have hlow : low.toNat < 256 ^ (width / 8) := by
      rw [pow_byteWidth hwidth]
      exact low.isLt
    rw [← toBytes_append _ _ _ hlow, BitVec.toNat_append,
      ← Nat.shiftLeft_add_eq_or_of_lt low.isLt, Nat.shiftLeft_eq,
      pow_byteWidth hwidth, Nat.mul_comm high.toNat, Nat.add_comm low.toNat]
  cases order with
  | little => rw [encode, encode, encode, hcount]; exact (hjoined _ _).symm
  | big =>
      rw [encode, encode, encode, hcount]
      simp only [ByteOrder.arrange, ByteOrder.join]
      rw [hjoined, List.reverse_append]

end

/-! ### Bytes in memory -/

section

variable {memory : Memory} {address : Nat}

def Placed (memory : Memory) : Nat → List UInt8 → Prop
  | _, [] => True
  | address, byte :: rest =>
      memory (word address) = byte ∧ Placed memory (address + 1) rest

instance decidablePlaced (memory : Memory) : (address : Nat) →
    (bytes : List UInt8) → Decidable (Placed memory address bytes)
  | _, [] => inferInstanceAs (Decidable True)
  | address, byte :: rest =>
      have := decidablePlaced memory (address + 1) rest
      inferInstanceAs (Decidable (memory (word address) = byte ∧ _))

def load (width : Nat) (memory : Memory) (address : Nat) : BitVec width :=
  BitVec.ofNat width (loadBytes memory (width / 8) address)

/-- A memory that holds the bytes from `start` on, and zeros elsewhere. -/
def image (start : Nat) (bytes : List UInt8) : Memory :=
  fun address => bytes.getD (address - start) 0

theorem placed_append {first second : List UInt8} :
    Placed memory address (first ++ second) ↔
      Placed memory address first ∧
        Placed memory (address + first.length) second := by
  induction first generalizing address with
  | nil => simp [Placed]
  | cons byte rest ih =>
      rw [List.cons_append, Placed, Placed, ih, List.length_cons, and_assoc,
        Nat.add_assoc, Nat.add_comm 1]

theorem Placed.byte_eq {bytes : List UInt8} {k : Nat} {byte : UInt8}
    (hplaced : Placed memory address bytes) (hbyte : bytes[k]? = some byte) :
    memory (word (address + k)) = byte := by
  induction bytes generalizing address k with
  | nil => cases hbyte
  | cons first rest ih =>
      obtain ⟨hfirst, hrest⟩ := hplaced
      cases k with
      | zero =>
          cases hbyte
          exact hfirst
      | succ k =>
          have hplace := ih hrest hbyte
          rwa [Nat.add_assoc, Nat.add_comm 1] at hplace

theorem placed_of_getD {bytes : List UInt8}
    (hbytes : ∀ k < bytes.length, memory (word (address + k)) = bytes.getD k 0) :
    Placed memory address bytes := by
  induction bytes generalizing address with
  | nil => trivial
  | cons first rest ih =>
      refine ⟨hbytes 0 (Nat.succ_pos _), ih ?_⟩
      intro k hk
      rw [Nat.add_assoc, Nat.add_comm 1]
      exact hbytes (k + 1) (Nat.succ_lt_succ hk)

theorem load_moved {other : Memory} {width place : Nat}
    (hsame : ∀ k < width / 8,
      memory (word (address + k)) = other (word (place + k))) :
    load width memory address = load width other place := by
  rw [load, load, loadBytes_moved hsame]

theorem Placed.loadBytes_eq {bytes : List UInt8}
    (hplaced : Placed memory address bytes) :
    loadBytes memory bytes.length address = fromBytes bytes := by
  induction bytes generalizing address with
  | nil => rfl
  | cons byte rest ih =>
      obtain ⟨hbyte, hrest⟩ := hplaced
      rw [List.length_cons, loadBytes, hbyte, ih hrest, fromBytes]

theorem Placed.load_eq {width : Nat} (hwidth : 8 ∣ width) {order : ByteOrder}
    {value : BitVec width} (hplaced : Placed memory address (encode order value)) :
    load width memory address = order.stored value := by
  have hload := hplaced.loadBytes_eq
  rw [length_encode] at hload
  rw [load, hload]
  cases order with
  | little =>
      simp only [encode, ByteOrder.arrange, ByteOrder.stored]
      rw [fromBytes_toBytes_toNat hwidth, BitVec.ofNat_toNat,
        BitVec.setWidth_eq]
  | big => rfl

theorem Placed.load_join {width : Nat} (hwidth : 8 ∣ width) {order : ByteOrder}
    {first second : BitVec width}
    (hfirst : Placed memory address (encode order first))
    (hsecond : Placed memory (address + width / 8) (encode order second)) :
    load (width + width) memory address =
      order.stored (order.join first second) := by
  have hboth : Placed memory address
      (encode order first ++ encode order second) := by
    rw [placed_append, length_encode]
    exact ⟨hfirst, hsecond⟩
  rw [encode_append hwidth] at hboth
  exact hboth.load_eq (Nat.dvd_add hwidth hwidth)

end

end Synos.Data

import TxIndex.Bytes.Basic

/-!
# Numbers as bytes of a fixed width

`littleEndian w n` writes the `w` lowest base-256 digits of `n`, the least significant first;
`bigEndian w n` is the same digits in the other order. `ofLittleEndian` and `ofBigEndian` read a
byte string of any width.

Reading undoes writing for every number that fits the width (`ofLittleEndian_littleEndian`), and
writing undoes reading at the width of what was read (`littleEndian_ofLittleEndian`).
-/

namespace TxIndex

/-- The `w` lowest base-256 digits of `n`, least significant first. -/
def littleEndian : Nat → Nat → Bytes
  | 0, _ => []
  | w + 1, n => UInt8.ofNat n :: littleEndian w (n / 256)

/-- The number with these base-256 digits, least significant first. -/
def ofLittleEndian : Bytes → Nat
  | [] => 0
  | b :: bs => b.toNat + 256 * ofLittleEndian bs

/-- The `w` lowest base-256 digits of `n`, most significant first. -/
def bigEndian (w n : Nat) : Bytes :=
  (littleEndian w n).reverse

/-- The number with these base-256 digits, most significant first. -/
def ofBigEndian (bytes : Bytes) : Nat :=
  ofLittleEndian bytes.reverse

/-! ## Widths -/

/-- The width is the one asked for, whatever the number: digits that are missing are zeros, and
those that do not fit are dropped. -/
@[simp] theorem length_littleEndian (w n : Nat) : (littleEndian w n).length = w := by
  induction w generalizing n with
  | zero => rfl
  | succ w ih => simp [littleEndian, ih]

@[simp] theorem length_bigEndian (w n : Nat) : (bigEndian w n).length = w := by
  simp [bigEndian]

/-- What is read fits the width it was read from. With `ofLittleEndian_littleEndian` this makes
reading and writing inverse to each other on the numbers below `capacity w`. -/
theorem ofLittleEndian_lt (bytes : Bytes) : ofLittleEndian bytes < capacity bytes.length := by
  induction bytes with
  | nil => exact Nat.one_pos
  | cons b bs ih =>
    have hb : b.toNat < 256 := b.toNat_lt
    simp only [ofLittleEndian, List.length_cons, capacity]
    omega

theorem ofBigEndian_lt (bytes : Bytes) : ofBigEndian bytes < capacity bytes.length := by
  simpa [ofBigEndian] using ofLittleEndian_lt bytes.reverse

/-! ## Reading what was written, and writing what was read -/

/-- A number that fits the width is read back from what was written. Induction on the width: the
first byte is the remainder by 256, the others are the quotient. -/
theorem ofLittleEndian_littleEndian {w n : Nat} (h : n < capacity w) :
    ofLittleEndian (littleEndian w n) = n := by
  induction w generalizing n with
  | zero => simp only [capacity] at h; simp only [littleEndian, ofLittleEndian]; omega
  | succ w ih =>
    have hdiv : n / 256 < capacity w := Nat.div_lt_of_lt_mul h
    simp only [littleEndian, ofLittleEndian, ih hdiv, UInt8.toNat_ofNat']
    omega

/-- A number that fits is read from its big-endian bytes, the order of keys, records and markers. -/
theorem ofBigEndian_bigEndian {w n : Nat} (h : n < capacity w) :
    ofBigEndian (bigEndian w n) = n := by
  simp [ofBigEndian, bigEndian, ofLittleEndian_littleEndian h]

/-- Writing undoes reading at the width of what was read, so no two byte strings of one width denote
the same number. -/
theorem littleEndian_ofLittleEndian (bytes : Bytes) :
    littleEndian bytes.length (ofLittleEndian bytes) = bytes := by
  induction bytes with
  | nil => rfl
  | cons b bs ih =>
    have hb : b.toNat < 256 := b.toNat_lt
    have hdiv : (b.toNat + 256 * ofLittleEndian bs) / 256 = ofLittleEndian bs := by omega
    -- The low byte comes back since the rest of the number is a multiple of 256.
    have hmod : UInt8.ofNat (b.toNat + 256 * ofLittleEndian bs) = b := by
      apply UInt8.toNat_inj.1
      rw [UInt8.toNat_ofNat']
      omega
    simp only [List.length_cons, ofLittleEndian, littleEndian, hdiv, hmod, ih]

/-- Writing undoes reading for the other order of the digits as well: a field of a stored value that
has been read can be put back as it was. -/
theorem bigEndian_ofBigEndian (bytes : Bytes) :
    bigEndian bytes.length (ofBigEndian bytes) = bytes := by
  have h := littleEndian_ofLittleEndian bytes.reverse
  rw [List.length_reverse] at h
  simp [bigEndian, ofBigEndian, h]

end TxIndex

import TxIndex.Bytes.Endian
import TxIndex.Bytes.Order

/-!
# The order of big-endian numbers

A number is written with its most significant digit first, so it can be read from the left: each
digit shifts what has been read and is added (`Bytes.value`, `value_eq_ofBigEndian`). Among strings
of one width the first digit that differs decides which is smaller, both of the strings and of the
numbers, because the digits behind it are worth less than one of it (`ofBigEndian_cons`,
`ofBigEndian_lt`). Hence `bigEndian_lt_bigEndian_iff`: what fits a width is written in order.
-/

namespace TxIndex

/-- The number that is read from the bytes from the left, in base 256. -/
def Bytes.value (bytes : Bytes) : Nat :=
  bytes.foldl (fun n b => 256 * n + b.toNat) 0

/-! ## The first digit -/

/-- The digits behind are worth as much more as there are digits before them. -/
theorem ofLittleEndian_append (low high : Bytes) :
    ofLittleEndian (low ++ high) =
      ofLittleEndian low + capacity low.length * ofLittleEndian high := by
  induction low with
  | nil => simp [ofLittleEndian, capacity]
  | cons b low ih =>
    simp only [List.cons_append, ofLittleEndian, List.length_cons, capacity, ih]
    rw [Nat.mul_add, Nat.mul_assoc, Nat.add_assoc]

/-- The first digit is worth as many units as the digits behind it can tell numbers. -/
theorem ofBigEndian_cons (b : UInt8) (bytes : Bytes) :
    ofBigEndian (b :: bytes) = capacity bytes.length * b.toNat + ofBigEndian bytes := by
  unfold ofBigEndian
  rw [List.reverse_cons, ofLittleEndian_append, List.length_reverse]
  simp only [ofLittleEndian, Nat.mul_zero, Nat.add_zero]
  exact Nat.add_comm ..

/-- Reading on shifts what has been read by the width of what follows. -/
theorem foldl_value (bytes : Bytes) (n : Nat) :
    bytes.foldl (fun n b => 256 * n + b.toNat) n =
      capacity bytes.length * n + ofBigEndian bytes := by
  induction bytes generalizing n with
  | nil => simp [capacity, ofBigEndian, ofLittleEndian]
  | cons b bytes ih =>
    rw [List.foldl_cons, ih, ofBigEndian_cons, List.length_cons, capacity, Nat.mul_add,
      Nat.mul_left_comm, Nat.mul_assoc, Nat.add_assoc]

/-- Read from the left or from the right, it is the same number. -/
theorem value_eq_ofBigEndian (bytes : Bytes) : Bytes.value bytes = ofBigEndian bytes := by
  unfold Bytes.value
  rw [foldl_value, Nat.mul_zero, Nat.zero_add]

theorem Bytes.value_lt (bytes : Bytes) : Bytes.value bytes < capacity bytes.length := by
  rw [value_eq_ofBigEndian]
  exact ofBigEndian_lt bytes

/-- A number that fits a width has one written form of that width. -/
theorem eq_bigEndian_iff {w n : Nat} {bytes : Bytes} (hn : n < capacity w) :
    bytes = bigEndian w n ↔ bytes.length = w ∧ Bytes.value bytes = n := by
  rw [value_eq_ofBigEndian]
  constructor
  · rintro rfl
    exact ⟨length_bigEndian w n, ofBigEndian_bigEndian hn⟩
  · rintro ⟨rfl, rfl⟩
    exact (bigEndian_ofBigEndian bytes).symm

/-! ## Order -/

/-- Where the rest is worth less than one of the leading digit, that digit decides first. -/
theorem mul_add_lt_mul_add_iff {k c d x y : Nat} (hx : x < k) (hy : y < k) :
    k * c + x < k * d + y ↔ c < d ∨ c = d ∧ x < y := by
  rcases Nat.lt_trichotomy c d with hlt | heq | hgt
  · have hstep : k * (c + 1) ≤ k * d := Nat.mul_le_mul_left k hlt
    rw [Nat.mul_succ] at hstep
    omega
  · subst heq
    omega
  · have hstep : k * (d + 1) ≤ k * c := Nat.mul_le_mul_left k hgt
    rw [Nat.mul_succ] at hstep
    omega

/-- Byte strings of one width are ordered as the numbers that they write. The induction goes through
both from the first digit on: where these are equal, the digits behind them decide. -/
theorem ofBigEndian_lt_ofBigEndian_iff {a b : Bytes} (h : a.length = b.length) :
    ofBigEndian a < ofBigEndian b ↔ a < b := by
  induction a generalizing b with
  | nil =>
    have hb : b = [] := List.eq_nil_of_length_eq_zero h.symm
    subst hb
    exact ⟨fun hlt => absurd hlt (Nat.lt_irrefl _), fun hlt => absurd hlt (Bytes.lt_irrefl [])⟩
  | cons c a ih =>
    cases b with
    | nil => cases h
    | cons d b =>
      have hrest : a.length = b.length := Nat.succ.inj h
      have ha : ofBigEndian a < capacity b.length := hrest ▸ ofBigEndian_lt a
      have hb : ofBigEndian b < capacity b.length := ofBigEndian_lt b
      -- The rest is less than the weight of the first digit, so the first digits decide unless
      -- they are equal.
      rw [ofBigEndian_cons, ofBigEndian_cons, hrest, mul_add_lt_mul_add_iff ha hb, ih hrest,
        List.cons_lt_cons_iff, UInt8.lt_iff_toNat_lt, UInt8.toNat_inj]

/-- **Numbers of one width are written in order.** This is what makes the keys of batches stand in
the order of their heights. -/
theorem bigEndian_lt_bigEndian_iff {w m n : Nat} (hm : m < capacity w) (hn : n < capacity w) :
    bigEndian w m < bigEndian w n ↔ m < n := by
  have hwidth : (bigEndian w m).length = (bigEndian w n).length := by simp
  rw [← ofBigEndian_lt_ofBigEndian_iff hwidth, ofBigEndian_bigEndian hm, ofBigEndian_bigEndian hn]

end TxIndex

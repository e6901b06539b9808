/-!
# Byte strings

Keys, values, identifiers and encodings are byte strings. They are lists, so the order of keys is
the lexicographic order that core gives to `List UInt8`, the bytes themselves being compared as
numbers.

Two types carry a width: `FixedBytes n` holds exactly `n` bytes, and `Blob` holds any number of
bytes that a 64-bit length field can announce. `capacity w` is how many numbers `w` bytes can hold.
-/

namespace TxIndex

/-- A byte string. `<` is lexicographic, and a proper beginning comes before the whole. -/
abbrev Bytes := List UInt8

/-- A byte string of exactly `n` bytes. -/
abbrev FixedBytes (n : Nat) := { bytes : Bytes // bytes.length = n }

/-- The bytes as a fixed width string, if their number is right. -/
def FixedBytes.ofBytes? (n : Nat) (bytes : Bytes) : Option (FixedBytes n) :=
  if h : bytes.length = n then some ⟨bytes, h⟩ else none

/-- A string of the right width is found again as itself. -/
@[simp] theorem FixedBytes.ofBytes?_val {n : Nat} (bytes : FixedBytes n) :
    FixedBytes.ofBytes? n bytes.val = some bytes := by
  simp [FixedBytes.ofBytes?, bytes.property]

/-- Only the bytes themselves are taken for a fixed width string: whoever reads one knows all of the
bytes, and not just their number. -/
theorem FixedBytes.ofBytes?_eq_some_iff {n : Nat} {bytes : Bytes} {fixed : FixedBytes n} :
    FixedBytes.ofBytes? n bytes = some fixed ↔ bytes = fixed.val := by
  unfold FixedBytes.ofBytes?
  split
  · rw [Option.some_inj, Subtype.ext_iff]
  · next h =>
    constructor
    · intro hnone
      cases hnone
    · intro heq
      exact absurd (heq ▸ fixed.property) h

/-- Nothing but the number of bytes can stand in the way. -/
theorem FixedBytes.ofBytes?_eq_none_iff {n : Nat} {bytes : Bytes} :
    FixedBytes.ofBytes? n bytes = none ↔ bytes.length ≠ n := by
  unfold FixedBytes.ofBytes?
  split <;> simp_all

/-- How many numbers `w` bytes can hold. -/
def capacity : Nat → Nat
  | 0 => 1
  | w + 1 => 256 * capacity w

/-- The bound of a four byte length field, as a number that `omega` can use. -/
theorem capacity_four : capacity 4 = 4294967296 := rfl

theorem capacity_eight : capacity 8 = 18446744073709551616 := rfl

/-- A 64-bit number is one that eight bytes can hold; this is what every field of eight bytes rests
on. -/
theorem toNat_lt_capacity (n : UInt64) : n.toNat < capacity 8 :=
  capacity_eight ▸ n.toNat_lt

/-- A byte string whose length fits a 64-bit length field. -/
abbrev Blob := { bytes : Bytes // bytes.length < capacity 8 }

/-- The bytes as a blob, if a 64-bit field can hold their number. -/
def Blob.ofBytes? (bytes : Bytes) : Option Blob :=
  if h : bytes.length < capacity 8 then some ⟨bytes, h⟩ else none

/-- The blob without bytes, which stands for a missing signature. -/
def Blob.empty : Blob :=
  ⟨[], Nat.zero_lt_of_lt (toNat_lt_capacity 0)⟩

instance : Inhabited Blob := ⟨Blob.empty⟩

end TxIndex

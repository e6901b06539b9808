import TxIndex.Codec.Wire

/-!
# The wire format is exact

A reader gives a value and a rest just when the bytes are the encoded form of that value followed by
that rest. So the format of a value is told by what is written for it, and no other bytes are read
as that value.

* `Reader.take_eq_some_iff`, `Reader.uint64_eq_some_iff`, `Reader.blob_eq_some_iff`: fields;
* `Reader.times_eq_some_iff`, `Reader.list_eq_some_iff`: elements one after the other;
* `Transaction.read_eq_some_iff`: transactions.
-/

namespace TxIndex

/-! ## Fields -/

/-- A 64-bit number is read back from its eight bytes. -/
theorem ofNat_ofLittleEndian_writeUInt64 (n : UInt64) :
    UInt64.ofNat (ofLittleEndian (writeUInt64 n)) = n := by
  rw [writeUInt64, ofLittleEndian_littleEndian (toNat_lt_capacity n), UInt64.ofNat_toNat]

/-- Eight bytes are what is written for the number they are read as; so every eight bytes denote
one. -/
theorem writeUInt64_ofNat_ofLittleEndian (bytes : FixedBytes 8) :
    writeUInt64 (UInt64.ofNat (ofLittleEndian bytes.val)) = bytes.val := by
  have hlt := ofLittleEndian_lt bytes.val
  have hwrite := littleEndian_ofLittleEndian bytes.val
  rw [bytes.property] at hlt hwrite
  rw [writeUInt64, UInt64.toNat_ofNat', Nat.mod_eq_of_lt (show _ < 2 ^ 64 from hlt), hwrite]

/-- A number takes eight bytes, whatever it is. -/
@[simp] theorem length_writeUInt64 (n : UInt64) : (writeUInt64 n).length = 8 :=
  length_littleEndian 8 _

namespace Reader

/-- Two readers, one after the other: the second starts where the first has stopped. The formats
below are taken apart by this and `pure_eq_some_iff`, field by field. -/
theorem bind_eq_some_iff {first : Reader α} {next : α → Reader β} {bytes rest : Bytes} {b : β} :
    (first >>= next) bytes = some (b, rest) ↔
      ∃ a middle, first bytes = some (a, middle) ∧ next a middle = some (b, rest) := by
  change (first bytes).bind (fun p => next p.1 p.2) = some (b, rest) ↔ _
  rw [Option.bind_eq_some_iff]
  exact ⟨fun ⟨⟨a, middle⟩, h⟩ => ⟨a, middle, h⟩, fun ⟨a, middle, h⟩ => ⟨⟨a, middle⟩, h⟩⟩

theorem pure_eq_some_iff {bytes rest : Bytes} {a b : α} :
    (pure a : Reader α) bytes = some (b, rest) ↔ a = b ∧ bytes = rest := by
  change some (a, bytes) = some (b, rest) ↔ _
  rw [Option.some_inj, Prod.mk.injEq]

/-- A field of fixed width is its bytes. The statements of this section all have this shape: what is
read and what is left make up the bytes, and there is no other way to read them. -/
theorem take_eq_some_iff {n : Nat} {bytes rest : Bytes} {part : FixedBytes n} :
    take n bytes = some (part, rest) ↔ bytes = part.val ++ rest := by
  unfold take
  constructor
  · intro h
    split at h
    · simp only [Option.some.injEq, Prod.mk.injEq] at h
      rw [← h.1, ← h.2, List.take_append_drop]
    · cases h
  · intro h
    subst h
    have hlen : n ≤ (part.val ++ rest).length := by simp [part.property]
    rw [dif_pos hlen]
    simp [List.take_left' part.property, List.drop_left' part.property]

/-- A number is its eight bytes. -/
theorem uint64_eq_some_iff {bytes rest : Bytes} {n : UInt64} :
    uint64 bytes = some (n, rest) ↔ bytes = writeUInt64 n ++ rest := by
  unfold uint64
  simp only [bind_eq_some_iff, take_eq_some_iff, pure_eq_some_iff]
  constructor
  · rintro ⟨part, _, rfl, rfl, rfl⟩
    rw [writeUInt64_ofNat_ofLittleEndian]
  · rintro rfl
    exact ⟨⟨writeUInt64 n, length_writeUInt64 n⟩, rest, rfl,
      ofNat_ofLittleEndian_writeUInt64 n, rfl⟩

/-- A blob is its length and its bytes: a length that more bytes follow than it announces leaves
them behind, one that fewer follow is not read. -/
theorem blob_eq_some_iff {bytes rest : Bytes} {blob : Blob} :
    Reader.blob bytes = some (blob, rest) ↔ bytes = writeBlob blob ++ rest := by
  unfold Reader.blob
  simp only [bind_eq_some_iff, take_eq_some_iff, uint64_eq_some_iff, pure_eq_some_iff]
  constructor
  · rintro ⟨length, _, rfl, part, _, rfl, rfl, rfl⟩
    simp [writeBlob, part.property, writeUInt64]
  · rintro rfl
    -- A blob is short enough for its length to survive in 64 bits.
    have hlen : (UInt64.ofNat blob.val.length).toNat = blob.val.length := by
      rw [UInt64.toNat_ofNat', Nat.mod_eq_of_lt (show _ < 2 ^ 64 from blob.property)]
    exact ⟨UInt64.ofNat blob.val.length, blob.val ++ rest, by simp [writeBlob, writeUInt64, hlen],
      ⟨blob.val, hlen.symm⟩, rest, rfl, rfl, rfl⟩

/-! ## Sequences -/

/-- Elements stand one after the other without anything between them, so `n` of them are read just
where `n` encoded elements stand. Induction on `n`, from the exactness of the reader for one
element. -/
theorem times_eq_some_iff {reader : Reader α} {write : α → Bytes}
    (h : ∀ bytes value rest, reader bytes = some (value, rest) ↔ bytes = write value ++ rest)
    {n : Nat} {bytes rest : Bytes} {values : List α} :
    times n reader bytes = some (values, rest) ↔
      values.length = n ∧ bytes = (values.map write).flatten ++ rest := by
  induction n generalizing bytes rest values with
  | zero =>
    unfold times
    rw [pure_eq_some_iff]
    constructor
    · rintro ⟨rfl, rfl⟩
      exact ⟨rfl, rfl⟩
    · rintro ⟨hlen, rfl⟩
      rw [List.eq_nil_of_length_eq_zero hlen]
      exact ⟨rfl, rfl⟩
  | succ n ih =>
    unfold times
    -- One element is in front, and the induction hypothesis reads the others from what it has
    -- left.
    simp only [bind_eq_some_iff, pure_eq_some_iff, h, ih]
    constructor
    · rintro ⟨value, _, rfl, values, _, ⟨rfl, rfl⟩, rfl, rfl⟩
      simp
    · rintro ⟨hlen, rfl⟩
      cases values with
      | nil => cases hlen
      | cons value values =>
        exact ⟨value, (values.map write).flatten ++ rest, by simp, values, rest,
          ⟨by simpa using hlen, rfl⟩, rfl, rfl⟩

/-- A length and as many elements, followed by anything, are read as those elements. The length is
not trusted: if there are fewer elements, the bytes end before the list does. -/
theorem list_eq_some_iff {reader : Reader α} {write : α → Bytes}
    (h : ∀ bytes value rest, reader bytes = some (value, rest) ↔ bytes = write value ++ rest)
    {bytes rest : Bytes} {values : List α} :
    list reader bytes = some (values, rest) ↔
      values.length < capacity 8 ∧
        bytes = littleEndian 8 values.length ++ (values.map write).flatten ++ rest := by
  unfold list
  simp only [bind_eq_some_iff, uint64_eq_some_iff, times_eq_some_iff h]
  constructor
  · rintro ⟨length, _, rfl, hlen, rfl⟩
    exact ⟨hlen ▸ toNat_lt_capacity length, by simp [hlen, writeUInt64]⟩
  · rintro ⟨hlt, rfl⟩
    -- The length survives in 64 bits, since it is less than the capacity of eight bytes.
    have hlen : (UInt64.ofNat values.length).toNat = values.length := by
      rw [UInt64.toNat_ofNat', Nat.mod_eq_of_lt (show _ < 2 ^ 64 from hlt)]
    exact ⟨UInt64.ofNat values.length, (values.map write).flatten ++ rest,
      by simp [writeUInt64, hlen], hlen.symm, rfl⟩

end Reader

/-! ## Transactions -/

/-- The bytes of a transaction, followed by anything, and nothing else, are read as it. Field by
field, since each field is read from its own bytes and leaves the others. -/
theorem Transaction.read_eq_some_iff {bytes rest : Bytes} {tx : Transaction} :
    Transaction.read bytes = some (tx, rest) ↔ bytes = tx.body ++ rest := by
  unfold Transaction.read
  simp only [Reader.bind_eq_some_iff, Reader.take_eq_some_iff, Reader.uint64_eq_some_iff,
    Reader.blob_eq_some_iff, Reader.pure_eq_some_iff]
  constructor
  · rintro ⟨chain, _, rfl, nonce, _, rfl, amount, _, rfl, payload, _, rfl, signature, _, rfl, rfl,
      rfl⟩
    simp [Transaction.body]
  · rintro rfl
    exact ⟨_, _, by simp only [Transaction.body, List.append_assoc], _, _, rfl, _, _, rfl, _, _,
      rfl, _, _, rfl, rfl, rfl⟩

end TxIndex

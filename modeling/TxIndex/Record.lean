import TxIndex.Height

/-!
# Records of the index by id

A record is what is stored under a transaction's identifier: the height it was accepted at, the
length of its encoded form in four big-endian bytes, and the encoded form.

The length is redundant, and that is its purpose: a value that lost its end is told from a whole
one before its payload is looked at.
-/

namespace TxIndex

/-- A transaction's encoded form with the height it was accepted at. -/
structure Record where
  height : Height
  payload : Bytes
  deriving DecidableEq

namespace Record

/-- How many bytes stand before the payload: the height and the length. -/
def headerWidth : Nat := Height.width + 4

/-- The stored form of a record. A payload whose length needs more than four bytes has none. -/
def encode (r : Record) : Except Defect Bytes :=
  if r.payload.length < capacity 4 then
    .ok (r.height.pack ++ bigEndian 4 r.payload.length ++ r.payload)
  else
    .error (.payloadTooLong r.payload.length)

/-- Reads a stored record. The header must be whole and announce what follows. -/
def decode (bytes : Bytes) : Except Defect Record :=
  if h : bytes.length < headerWidth then
    .error (.recordTooShort bytes.length)
  else
    let declared := ofBigEndian ((bytes.drop 8).take 4)
    let payload := bytes.drop headerWidth
    if declared = payload.length then
      .ok ⟨Height.ofFixed ⟨bytes.take 8, by simp [headerWidth, Height.width] at h ⊢; omega⟩, payload⟩
    else
      .error (.recordLength declared payload.length)

/-! ## Laws -/

/-- A record that has a stored form is read back from it. Together with `encode_of_decode` the two
make the stored form exact: no other bytes are read as this record. -/
theorem decode_of_encode {r : Record} {bytes : Bytes} (h : r.encode = .ok bytes) :
    decode bytes = .ok r := by
  unfold encode at h
  split at h
  · next hlt =>
    cases h
    -- The three fields are found again by their widths.
    have hheader : (r.height.pack ++ bigEndian 4 r.payload.length).length = headerWidth := by
      simp [headerWidth, Height.width]
    have hpayload : (r.height.pack ++ bigEndian 4 r.payload.length ++ r.payload).drop headerWidth =
        r.payload := List.drop_left' hheader
    have hlength : ((r.height.pack ++ bigEndian 4 r.payload.length ++ r.payload).drop 8).take 4 =
        bigEndian 4 r.payload.length := by
      rw [List.append_assoc, List.drop_left' r.height.length_pack]
      exact List.take_left' (length_bigEndian 4 _)
    have hheight : (r.height.pack ++ bigEndian 4 r.payload.length ++ r.payload).take 8 =
        r.height.pack := by
      rw [List.append_assoc, List.take_left' r.height.length_pack]
    unfold decode
    rw [dif_neg (by rw [List.length_append, hheader]; omega)]
    simp only [hpayload, hlength, hheight, ofBigEndian_bigEndian hlt, if_true]
    rw [Height.ofFixed_pack]
  · cases h

/-- What is read has that stored form. -/
theorem encode_of_decode {r : Record} {bytes : Bytes} (h : decode bytes = .ok r) :
    r.encode = .ok bytes := by
  unfold decode at h
  split at h
  · cases h
  · next hlong =>
    have hwidth : headerWidth = 12 := rfl
    by_cases hlen : ofBigEndian ((bytes.drop 8).take 4) = (bytes.drop headerWidth).length
    · simp only [hlen, if_true] at h
      cases h
      have hlength : ((bytes.drop 8).take 4).length = 4 := by
        simp only [List.length_take, List.length_drop]
        omega
      have hlt := ofBigEndian_lt ((bytes.drop 8).take 4)
      have hwrite := bigEndian_ofBigEndian ((bytes.drop 8).take 4)
      rw [hlength, hlen] at hlt hwrite
      -- The fields stand next to each other and fill the bytes.
      have hrest : (bytes.drop 8).take 4 ++ bytes.drop headerWidth = bytes.drop 8 := by
        rw [hwidth, ← List.drop_drop (i := 4) (j := 8), List.take_append_drop]
      unfold encode
      rw [if_pos hlt, Height.pack_ofFixed, hwrite, List.append_assoc, hrest,
        List.take_append_drop]
    · simp only [hlen, if_false] at h
      cases h

end Record

end TxIndex

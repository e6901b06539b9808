import TxIndex.Access.Basic
import TxIndex.Proofs.Bytes.BigEndian

/-!
# The stored form of a record

A record is stored as three fields: eight bytes of a height, four bytes of a length, and a payload
of that length. `Record.StoredAs` says so in terms of the numbers that are read from the fields, and
`Record.Refused` says why other bytes are the stored form of no record: they are too few for a
header, or another number of bytes follows the header than it tells.

What is written is the stored form (`encode_eq_ok_iff_storedAs`). Reading takes the fields by their
positions, and fails just where there is a reason: `decode_eq_error_iff` tells it by the positions,
`decode_eq_error_iff_header` by the fields, `decode_eq_error_iff_refused` by the numbers in them.
Since what is read has been written (`decode_eq_ok_iff`), every byte string is one or the other,
which is `stored_forms_exact`.
-/

namespace TxIndex.Record

variable {r : Record} {bytes : Bytes} {defect : Defect}

/-! ## Why reading fails -/

/-- Why a record cannot be read, by the positions of its bytes: there are too few for a header, or
what the header tells as the length is not the number of the bytes behind it. -/
theorem decode_eq_error_iff :
    decode bytes = .error defect ↔
      bytes.length < 12 ∧ defect = .recordTooShort bytes.length ∨
      12 ≤ bytes.length ∧ ∃ declared, declared = ofBigEndian ((bytes.drop 8).take 4) ∧
        declared ≠ bytes.length - 12 ∧ defect = .recordLength declared (bytes.length - 12) := by
  have hwidth : headerWidth = 12 := rfl
  unfold decode
  by_cases hshort : bytes.length < 12
  · have hnot : ¬ 12 ≤ bytes.length := by omega
    rw [dif_pos (hwidth ▸ hshort)]
    simp only [Except.error.injEq, hshort, hnot, true_and, false_and, or_false]
    exact eq_comm
  · -- Behind a whole header only the length can be wrong.
    have hlong : 12 ≤ bytes.length := by omega
    rw [dif_neg (hwidth ▸ hshort)]
    simp only [List.length_drop, hwidth, hshort, hlong, true_and, false_and, false_or]
    by_cases hlen : ofBigEndian ((bytes.drop 8).take 4) = bytes.length - 12
    · rw [if_pos hlen]
      refine ⟨fun h => (nomatch h), fun h => ?_⟩
      obtain ⟨declared, rfl, hdiffer, -⟩ := h
      exact absurd hlen hdiffer
    · rw [if_neg hlen]
      refine ⟨fun h => ⟨_, rfl, hlen, (Except.error.inj h).symm⟩, fun h => ?_⟩
      obtain ⟨declared, rfl, -, rfl⟩ := h
      rfl

/-- Bytes as long as a header are the height, the announced length and what follows. There is no
byte string of eight bytes that is no height. -/
theorem exists_header (h : 12 ≤ bytes.length) :
    ∃ height : Height, bytes = height.pack ++ bigEndian 4 (ofBigEndian ((bytes.drop 8).take 4)) ++
      bytes.drop 12 := by
  have hfour : ((bytes.drop 8).take 4).length = 4 := by
    rw [List.length_take, List.length_drop]
    omega
  have hwrite := bigEndian_ofBigEndian ((bytes.drop 8).take 4)
  rw [hfour] at hwrite
  refine ⟨Height.ofFixed ⟨bytes.take 8, List.length_take_of_le (by omega)⟩, ?_⟩
  rw [Height.pack_ofFixed, hwrite, List.append_assoc,
    ← List.drop_drop (i := 4) (j := 8), List.take_append_drop, List.take_append_drop]

/-- A header that is put together with the wrong length is read as such. -/
theorem decode_of_mismatch {height : Height} {declared : Nat} {rest : Bytes}
    (hdeclared : declared < capacity 4) (hdiffer : declared ≠ rest.length) :
    decode (height.pack ++ bigEndian 4 declared ++ rest) =
      .error (.recordLength declared rest.length) := by
  have hlength : (height.pack ++ bigEndian 4 declared ++ rest).length = 12 + rest.length := by
    rw [List.length_append, List.length_append, height.length_pack, length_bigEndian]
  -- The length field is found at its position, behind the eight bytes of the height.
  have hfour : ((height.pack ++ bigEndian 4 declared ++ rest).drop 8).take 4 =
      bigEndian 4 declared := by
    rw [List.append_assoc, List.drop_left' height.length_pack]
    exact List.take_left' (length_bigEndian 4 declared)
  refine decode_eq_error_iff.2 (.inr ⟨by omega, declared, ?_, ?_, ?_⟩)
  · rw [hfour, ofBigEndian_bigEndian hdeclared]
  · omega
  · rw [hlength, Nat.add_sub_cancel_left]

/-- Why a record cannot be read, by the fields of its header in place of their positions: a length
is announced that is not that of what follows. -/
theorem decode_eq_error_iff_header :
    decode bytes = .error defect ↔
      bytes.length < 12 ∧ defect = .recordTooShort bytes.length ∨
      ∃ (height : Height) (declared : Nat) (rest : Bytes),
        bytes = height.pack ++ bigEndian 4 declared ++ rest ∧ declared < capacity 4 ∧
          declared ≠ rest.length ∧ defect = .recordLength declared rest.length := by
  constructor
  · -- Bytes that are long enough have a header, and its fields are what is read at its positions.
    intro h
    rcases decode_eq_error_iff.1 h with hshort | ⟨hlong, declared, hdeclared, hdiffer, rfl⟩
    · exact .inl hshort
    · obtain ⟨height, hbytes⟩ := exists_header hlong
      have hrest : bytes.length - 12 = (bytes.drop 12).length := List.length_drop.symm
      have hfour : ((bytes.drop 8).take 4).length = 4 := by
        rw [List.length_take, List.length_drop]
        omega
      have hlt := ofBigEndian_lt ((bytes.drop 8).take 4)
      rw [hfour, ← hdeclared] at hlt
      rw [← hdeclared] at hbytes
      rw [hrest] at hdiffer ⊢
      exact .inr ⟨height, declared, bytes.drop 12, hbytes, hlt, hdiffer, rfl⟩
  · rintro (hshort | ⟨height, declared, rest, rfl, hlt, hdiffer, rfl⟩)
    · exact decode_eq_error_iff.2 (.inl hshort)
    · exact decode_of_mismatch hlt hdiffer

/-! ## The format -/

/-- Height and length are big-endian, and the payload is as long as the length tells. -/
inductive StoredAs (r : Record) : Bytes → Prop where
  | fields {height length : Bytes} (hheight : height.length = 8) (hlength : length.length = 4)
      (height_eq : Bytes.value height = r.height.toNat)
      (length_eq : Bytes.value length = r.payload.length) :
      StoredAs r (height ++ length ++ r.payload)

/-- Why bytes are not read as a record. -/
inductive Refused : Bytes → Defect → Prop where
  | short {bytes : Bytes} (hshort : bytes.length < 12) :
      Refused bytes (.recordTooShort bytes.length)
  /-- More or fewer bytes follow than the length tells. -/
  | length {height length rest : Bytes} (hheight : height.length = 8)
      (hlength : length.length = 4) (hdiffer : Bytes.value length ≠ rest.length) :
      Refused (height ++ length ++ rest) (.recordLength (Bytes.value length) rest.length)

/-- What is written: the three fields, if the length of the payload can be told in four bytes. -/
theorem encode_eq_ok_iff :
    r.encode = .ok bytes ↔ r.payload.length < capacity 4 ∧
      bytes = r.height.pack ++ bigEndian 4 r.payload.length ++ r.payload := by
  unfold encode
  by_cases hlt : r.payload.length < capacity 4
  · rw [if_pos hlt, Except.ok.injEq]
    exact ⟨fun heq => ⟨hlt, heq.symm⟩, fun h => h.2.symm⟩
  · rw [if_neg hlt]
    exact ⟨fun heq => (nomatch heq), fun h => absurd h.1 hlt⟩

/-- What is written is the stored form, told by the numbers in the fields: a number that fits a
width is written in it in one way. -/
theorem encode_eq_ok_iff_storedAs : r.encode = .ok bytes ↔ r.StoredAs bytes := by
  have hpack := toNat_lt_capacity r.height
  rw [encode_eq_ok_iff]
  constructor
  · rintro ⟨hlt, rfl⟩
    obtain ⟨hheight, height_eq⟩ := (eq_bigEndian_iff hpack).1 rfl
    obtain ⟨hlength, length_eq⟩ := (eq_bigEndian_iff hlt).1 rfl
    exact .fields hheight hlength height_eq length_eq
  · rintro ⟨hheight, hlength, height_eq, length_eq⟩
    -- Four bytes tell no longer length, so the payload fits.
    have hlt : r.payload.length < capacity 4 := by
      rw [← length_eq, ← hlength]
      exact Bytes.value_lt _
    refine ⟨hlt, ?_⟩
    rw [(eq_bigEndian_iff hpack).2 ⟨hheight, height_eq⟩,
      (eq_bigEndian_iff hlt).2 ⟨hlength, length_eq⟩]
    rfl

/-- Why a record cannot be read, by the numbers in its fields. In this form nothing is said of how a
record is read. -/
theorem decode_eq_error_iff_refused : decode bytes = .error defect ↔ Refused bytes defect := by
  rw [decode_eq_error_iff_header]
  constructor
  · rintro (⟨hshort, rfl⟩ | ⟨height, declared, rest, rfl, hlt, hdiffer, rfl⟩)
    · exact .short hshort
    · obtain ⟨hlength, length_eq⟩ := (eq_bigEndian_iff hlt).1 rfl
      rw [← length_eq] at hdiffer
      -- The field is told by the number in it, since that fits into its bytes.
      have hrefused := Refused.length height.length_pack hlength hdiffer
      rw [length_eq] at hrefused
      exact hrefused
  · intro h
    cases h with
    | short hshort => exact .inl ⟨hshort, rfl⟩
    | @length height length rest hheight hlength hdiffer =>
      have hlt := Bytes.value_lt length
      rw [hlength] at hlt
      refine .inr ⟨.ofFixed ⟨height, hheight⟩, Bytes.value length, rest, ?_, hlt, hdiffer, rfl⟩
      rw [Height.pack_ofFixed, ← (eq_bigEndian_iff hlt).2 ⟨hlength, rfl⟩]

theorem Refused.subject_eq (h : Refused bytes defect) : defect.subject = "by-id record" := by
  cases h <;> rfl

/-- What is read is what has been written: a record and its stored form determine each other. -/
theorem decode_eq_ok_iff : decode bytes = .ok r ↔ r.encode = .ok bytes :=
  ⟨encode_of_decode, decode_of_encode⟩

/-- **Records and their stored forms correspond.** A byte string is read as a record if and only if
it is what is written for that record. Every record whose payload is shorter than 2^32 bytes is
written, and no other, as its height in eight big-endian bytes, the length of its payload in four,
and the payload. All other byte strings are refused as a corrupted record, because they are shorter
than twelve bytes or because their length field differs from the number of bytes behind it. -/
theorem stored_forms_exact :
    (∀ (bytes : Bytes) (r : Record), decode bytes = .ok r ↔ r.encode = .ok bytes) ∧
    (∀ (r : Record) (bytes : Bytes), r.encode = .ok bytes ↔ r.StoredAs bytes) ∧
    (∀ r : Record, (∃ bytes, r.encode = .ok bytes) ↔ r.payload.length < 0x100000000) ∧
    (∀ bytes defect, decode bytes = .error defect ↔ Refused bytes defect) ∧
    ∀ bytes, (¬ ∃ r : Record, r.encode = .ok bytes) ↔
      ∃ defect, Refused bytes defect ∧ defect.subject = "by-id record" ∧
        ∀ faults b, Access.ofStored (decode bytes) faults b = .error (.corruption defect) b := by
  refine ⟨fun bytes r => decode_eq_ok_iff, fun r bytes => encode_eq_ok_iff_storedAs, fun r => ?_,
    fun bytes defect => decode_eq_error_iff_refused, fun bytes => ?_⟩
  · have hcapacity : capacity 4 = 0x100000000 := capacity_four
    rw [← hcapacity]
    constructor
    · rintro ⟨bytes, hencode⟩
      exact (encode_eq_ok_iff.1 hencode).1
    · intro hlt
      exact ⟨_, encode_eq_ok_iff.2 ⟨hlt, rfl⟩⟩
  · cases hdecode : decode bytes with
    | ok r =>
      -- What is read has been written, and is not refused.
      refine iff_of_false (fun hnone => hnone ⟨r, decode_eq_ok_iff.1 hdecode⟩) ?_
      rintro ⟨defect, hrefused, -⟩
      rw [decode_eq_error_iff_refused.2 hrefused] at hdecode
      cases hdecode
    | error defect =>
      -- What is refused has not been written, for it would be read.
      have hrefused := decode_eq_error_iff_refused.1 hdecode
      refine iff_of_true ?_ ⟨defect, hrefused, hrefused.subject_eq, fun faults b => rfl⟩
      rintro ⟨r, hencode⟩
      rw [decode_eq_ok_iff.2 hencode] at hdecode
      cases hdecode

end TxIndex.Record

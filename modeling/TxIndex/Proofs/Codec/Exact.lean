import TxIndex.Proofs.Codec.RoundTrip

/-!
# What the codec accepts

The format of a transaction is `txFormat` and that of a batch `batchFormat`, both in terms of bytes
alone. An encoded value is two big-endian bytes of a known version and the format of the value.

* `Codec.Verdict` says what reading is to come to: the value whose encoded form the bytes begin
  with, or why there is none, in the order in which it is found out. It looks at the bytes and not
  at how they are read, so no length or count in them is trusted.
* `Codec.Exact`: reading comes to the verdict, writing to the encoded form, and reading undoes
  writing whatever follows.
* `Codec.exact_transactions_and_batches`: the codec is exact for transactions and for batches.
-/

namespace TxIndex

/-! ## Formats -/

/-- The chain as it is, nonce and amount in eight little-endian bytes, and payload and signature
each behind its length in eight little-endian bytes. -/
def txFormat (tx : Transaction) : Bytes :=
  [tx.sourceChain.val, littleEndian 8 tx.nonce.toNat, littleEndian 8 tx.amount.toNat,
    littleEndian 8 tx.payload.val.length, tx.payload.val,
    littleEndian 8 tx.signature.val.length, tx.signature.val].flatten

/-- The number of transactions in eight little-endian bytes, and one after the other. -/
def batchFormat (txs : List Transaction) : Bytes :=
  littleEndian 8 txs.length ++ txs.flatMap txFormat

/-- The format is what is written for a transaction. It is stated again as one list of fields, so
that the verdict can be read without the program. -/
theorem txFormat_eq_body (tx : Transaction) : txFormat tx = tx.body := by
  simp [txFormat, Transaction.body, writeUInt64, writeBlob]

theorem batchFormat_eq_batchBody (txs : List Transaction) : batchFormat txs = batchBody txs := by
  have hbody : txFormat = Transaction.body := funext txFormat_eq_body
  rw [batchFormat, batchBody, hbody, List.flatMap_def]

namespace Codec

variable {α : Type} [Readable α] {codec : Codec} {Fits : α → Prop}
  {format : α → Bytes} {bytes body : Bytes} {v : UInt16}

/-- What reading the bytes is to come to, where values that fit have the format. -/
inductive Verdict (codec : Codec) (Fits : α → Prop) (format : α → Bytes) (bytes : Bytes) :
    Except CodecError α → Prop where
  | value {v : UInt16} {value : α} {rest : Bytes} (hversion : v ∈ codec.supported)
      (hfits : Fits value) (hbytes : bytes = bigEndian 2 v.toNat ++ format value ++ rest) :
      Verdict codec Fits format bytes (.ok value)
  | truncated (hshort : bytes.length < 2) :
      Verdict codec Fits format bytes (.error (.truncated bytes.length))
  | unknownVersion {v : UInt16} {body : Bytes} (hbytes : bytes = bigEndian 2 v.toNat ++ body)
      (hversion : v ∉ codec.supported) :
      Verdict codec Fits format bytes (.error (.unknownVersion v))
  /-- No body of a value is the beginning of what follows the version. -/
  | unexpectedEnd {v : UInt16} {body : Bytes} (hbytes : bytes = bigEndian 2 v.toNat ++ body)
      (hversion : v ∈ codec.supported)
      (hnone : ∀ value rest, Fits value → body ≠ format value ++ rest) :
      Verdict codec Fits format bytes (.error (.decode .unexpectedEnd))

/-- The codec reads and writes the values that fit in the format, and nothing else. -/
structure Exact [Writable α] (codec : Codec) (Fits : α → Prop) (format : α → Bytes) : Prop where
  unmarshal_iff : ∀ bytes outcome,
    codec.unmarshal bytes = outcome ↔ Verdict codec Fits format bytes outcome
  marshal : ∀ (v : UInt16) (value : α), Fits value → codec.marshal v value =
    if v ∈ codec.supported then .ok (bigEndian 2 v.toNat ++ format value)
    else .error (.unknownVersion v)
  unmarshal_marshal : ∀ (v : UInt16) (value : α) (bytes rest : Bytes),
    codec.marshal v value = .ok bytes → codec.unmarshal (bytes ++ rest) = .ok value

/-! ## Why reading fails -/

theorem check_of_unknown (hv : v ∉ codec.supported) :
    codec.check v = .error (.unknownVersion v) :=
  if_neg hv

/-- In less than two bytes there is no version. -/
theorem unmarshal_of_short (h : bytes.length < 2) :
    (codec.unmarshal bytes : Except CodecError α) = .error (.truncated bytes.length) := by
  match bytes, h with
  | [], _ => rfl
  | [_], _ => rfl

/-- Two bytes are some version, and what follows them is the body. -/
theorem exists_version (h : ¬ bytes.length < 2) :
    ∃ v : UInt16, ∃ body, bytes = bigEndian 2 v.toNat ++ body := by
  match bytes, h with
  | [], h => exact absurd (by simp) h
  | [_], h => exact absurd (by simp) h
  | hi :: lo :: body, _ =>
    exact ⟨UInt16.ofNat (ofBigEndian [hi, lo]), body, by rw [bigEndian_version]; rfl⟩

/-- Where the version is told, reading is a check of it and then the reading of the body. This is
the form in which the cases below look at it. -/
theorem unmarshal_of_version (v : UInt16) (body : Bytes) :
    (codec.unmarshal (bigEndian 2 v.toNat ++ body) : Except CodecError α) = (do
      codec.check v
      match Readable.read.run body with
      | some (value, _) => .ok value
      | none => .error (.decode .unexpectedEnd)) := by
  obtain ⟨hi, lo, htwo⟩ := bigEndian_two v.toNat
  have hversion : UInt16.ofNat (ofBigEndian [hi, lo]) = v := by
    rw [← htwo, ofBigEndian_version]
  -- The reader takes two bytes apart, so the version has to be written as two bytes first.
  have hread : (codec.unmarshal (hi :: lo :: body) : Except CodecError α) = (do
      codec.check (UInt16.ofNat (ofBigEndian [hi, lo]))
      match Readable.read.run body with
      | some (value, _) => .ok value
      | none => .error (.decode .unexpectedEnd)) := rfl
  rw [hversion] at hread
  rw [htwo]
  exact hread

/-- The version is checked before the body is looked at. -/
theorem unmarshal_of_unknown (hv : v ∉ codec.supported) (body : Bytes) :
    (codec.unmarshal (bigEndian 2 v.toNat ++ body) : Except CodecError α) =
      .error (.unknownVersion v) := by
  rw [unmarshal_of_version, check_of_unknown hv]
  rfl

/-- A body that is not read has ended too soon. There is no other reason, since no byte is refused
for its value. -/
theorem unmarshal_of_end (hv : v ∈ codec.supported)
    (hread : (Readable.read : Reader α) body = none) :
    (codec.unmarshal (bigEndian 2 v.toNat ++ body) : Except CodecError α) =
      .error (.decode .unexpectedEnd) := by
  rw [unmarshal_of_version, check_eq_ok_iff.2 hv]
  simp only [StateT.run, hread]
  rfl

/-! ## From the format of bodies to that of encoded values -/

variable [Writable α]

/-- Bodies are read and written in the format. -/
structure Formatted (Fits : α → Prop) (format : α → Bytes) : Prop where
  read_iff : ∀ body value rest, (Readable.read : Reader α) body = some (value, rest) ↔
    Fits value ∧ body = format value ++ rest
  write_iff : ∀ value body,
    Writable.write value = .ok body ↔ Fits value ∧ body = format value

/-- Bytes with the encoded form of a value in front are read as this value. -/
theorem Formatted.unmarshal_of_fits (h : Formatted Fits format) {value : α} {rest : Bytes}
    (hv : v ∈ codec.supported) (hfits : Fits value) :
    codec.unmarshal (bigEndian 2 v.toNat ++ format value ++ rest) = .ok value := by
  rw [List.append_assoc]
  exact unmarshal_eq_ok_iff.2
    ⟨v, hv, format value ++ rest, rest, rfl, (h.read_iff _ _ _).2 ⟨hfits, rfl⟩⟩

/-- **Reading comes to the verdict.** The cases are those of the program: too short, unknown
version, no body in front, a body in front. -/
theorem Formatted.verdict (h : Formatted Fits format) (codec : Codec) (bytes : Bytes) :
    Verdict codec Fits format bytes (codec.unmarshal bytes) := by
  by_cases hshort : bytes.length < 2
  · rw [unmarshal_of_short hshort]
    exact .truncated hshort
  · obtain ⟨v, body, rfl⟩ := exists_version hshort
    by_cases hv : v ∈ codec.supported
    · cases hread : (Readable.read : Reader α) body with
      | none =>
        rw [unmarshal_of_end hv hread]
        -- If the bytes began with an encoded value, it would have been read.
        refine .unexpectedEnd rfl hv fun value rest hfits hbody => ?_
        rw [(h.read_iff body value rest).2 ⟨hfits, hbody⟩] at hread
        cases hread
      | some pair =>
        obtain ⟨value, rest⟩ := pair
        obtain ⟨hfits, rfl⟩ := (h.read_iff body value rest).1 hread
        rw [← List.append_assoc, h.unmarshal_of_fits hv hfits]
        exact .value hv hfits rfl
    · rw [unmarshal_of_unknown hv]
      exact .unknownVersion rfl hv

/-- Reading comes to no other verdict: what the bytes are decides which one it is. -/
theorem Formatted.unmarshal_of_verdict (h : Formatted Fits format) {outcome : Except CodecError α}
    (hverdict : Verdict codec Fits format bytes outcome) : codec.unmarshal bytes = outcome := by
  cases hverdict with
  | value hv hfits hbytes =>
    rw [hbytes]
    exact h.unmarshal_of_fits hv hfits
  | truncated hshort => exact unmarshal_of_short hshort
  | unknownVersion hbytes hv =>
    rw [hbytes]
    exact unmarshal_of_unknown hv _
  | @unexpectedEnd v body hbytes hv hnone =>
    rw [hbytes]
    refine unmarshal_of_end hv ?_
    cases hread : (Readable.read : Reader α) body with
    | none => rfl
    | some pair =>
      -- What is read is an encoded value, and the verdict says that there is none.
      obtain ⟨hfits, hbody⟩ := (h.read_iff body pair.1 pair.2).1 hread
      exact absurd hbody (hnone _ _ hfits)

/-- Whatever is formatted is read and written exactly. Of the three parts the first is
`Formatted.verdict` and its converse, and the other two are about writing, which is direct. -/
theorem Formatted.exact (h : Formatted Fits format) (codec : Codec) : Exact codec Fits format where
  unmarshal_iff bytes outcome := by
    refine ⟨fun heq => ?_, h.unmarshal_of_verdict⟩
    rw [← heq]
    exact h.verdict codec bytes
  marshal v value hfits := by
    by_cases hv : v ∈ codec.supported
    · rw [if_pos hv]
      exact marshal_eq_ok_iff.2 ⟨hv, _, (h.write_iff _ _).2 ⟨hfits, rfl⟩, rfl⟩
    · rw [if_neg hv, Codec.marshal, check_of_unknown hv]
      rfl
  unmarshal_marshal v value bytes rest hok := by
    obtain ⟨hv, body, hbody, rfl⟩ := marshal_eq_ok_iff.1 hok
    obtain ⟨hfits, rfl⟩ := (h.write_iff _ _).1 hbody
    exact h.unmarshal_of_fits hv hfits

/-! ## Transactions and batches -/

theorem formatted_transactions : Formatted (fun _ => True) txFormat where
  read_iff body tx rest := by
    rw [txFormat_eq_body, true_and]
    exact Transaction.read_eq_some_iff
  write_iff tx body := by
    rw [txFormat_eq_body, true_and]
    exact ⟨fun h => (Except.ok.inj h).symm, fun h => congrArg Except.ok h.symm⟩

/-- A batch fits if its length can be told in eight bytes. -/
theorem formatted_batches : Formatted (fun txs => txs.length < capacity 8) batchFormat where
  read_iff body txs rest := by
    rw [batchFormat_eq_batchBody]
    exact read_batch_eq_some_iff
  write_iff txs body := by
    rw [batchFormat_eq_batchBody]
    exact write_batch_eq_ok_iff

/-- **The codec accepts its format and nothing else.** Whatever versions it knows: transactions and
batches are read from the bytes that begin with their encoded form, all other bytes are refused for
the reason that the verdict names, and what is written is read back whatever follows it. A batch is
to have fewer than 2^64 transactions, so that its length can be told. -/
theorem exact_transactions_and_batches (codec : Codec) :
    Exact codec (fun _ => True) txFormat ∧
      Exact codec (fun txs : List Transaction => txs.length < capacity 8) batchFormat :=
  ⟨formatted_transactions.exact codec, formatted_batches.exact codec⟩

end Codec

end TxIndex

import TxIndex.Codec.Basic
import TxIndex.Codec.Lemmas
import TxIndex.Proofs.Outcome

/-!
# Encoded values are read back

An encoded value is its version and its body. `marshal_batch_iff` and `marshal_tx_iff` tell which
values a codec encodes and as what, `unmarshal_batch_iff` and `unmarshal_tx_iff` which bytes it
reads and as what; reading undoes writing. Codecs differ in the versions they know and in nothing
else (`unmarshal_of_knows`).
-/

namespace TxIndex

/-! ## Versions -/

/-- A version that is written in two bytes is read from them. -/
theorem ofBigEndian_version (v : UInt16) :
    UInt16.ofNat (ofBigEndian (bigEndian 2 v.toNat)) = v := by
  have hlt : v.toNat < capacity 2 := v.toNat_lt
  rw [ofBigEndian_bigEndian hlt, UInt16.ofNat_toNat]

theorem bigEndian_version (hi lo : UInt8) :
    bigEndian 2 (UInt16.ofNat (ofBigEndian [hi, lo])).toNat = [hi, lo] := by
  have hlt : ofBigEndian [hi, lo] < 2 ^ 16 := ofBigEndian_lt [hi, lo]
  rw [UInt16.toNat_ofNat', Nat.mod_eq_of_lt hlt]
  exact bigEndian_ofBigEndian [hi, lo]

theorem bigEndian_two (n : Nat) : ∃ hi lo, bigEndian 2 n = [hi, lo] :=
  ⟨_, _, rfl⟩

namespace Codec

theorem check_eq_ok_iff {codec : Codec} {v : UInt16} :
    codec.check v = .ok () ↔ v ∈ codec.supported := by
  unfold check
  split <;> simp_all

/-! ## Reading and writing in general -/

/-- What is read: a supported version, and a body with which the rest begins. What stands behind the
body is not looked at. -/
theorem unmarshal_eq_ok_iff [Readable α] {codec : Codec} {bytes : Bytes} {value : α} :
    codec.unmarshal bytes = .ok value ↔
      ∃ v ∈ codec.supported, ∃ body rest, bytes = bigEndian 2 v.toNat ++ body ∧
        Readable.read body = some (value, rest) := by
  refine ⟨fun h => ?_, fun h => ?_⟩
  · unfold unmarshal at h
    split at h
    · next hi lo body =>
      obtain ⟨_, hcheck, h⟩ := Except.bind_eq_ok_iff.1 h
      refine ⟨UInt16.ofNat (ofBigEndian [hi, lo]), check_eq_ok_iff.1 hcheck, body, ?_⟩
      -- The version is known, so the body alone decides.
      cases hread : (Readable.read : Reader α) body with
      | none =>
        simp only [StateT.run, hread] at h
        cases h
      | some pair =>
        simp only [StateT.run, hread] at h
        cases h
        exact ⟨pair.2, by rw [bigEndian_version]; rfl, rfl⟩
    · cases h
  · obtain ⟨v, hv, body, rest, rfl, hread⟩ := h
    -- The two bytes in front are the version once more.
    obtain ⟨hi, lo, htwo⟩ := bigEndian_two v.toNat
    have hversion : UInt16.ofNat (ofBigEndian [hi, lo]) = v := by
      rw [← htwo, ofBigEndian_version]
    rw [htwo, List.cons_append, List.cons_append, List.nil_append]
    refine Except.bind_eq_ok_iff.2 ⟨(), ?_, ?_⟩
    · rw [hversion]
      exact check_eq_ok_iff.2 hv
    · simp only [StateT.run, hread]

/-- What is written: a supported version, and behind it the body. The version is checked before the
body is encoded. -/
theorem marshal_eq_ok_iff [Writable α] {codec : Codec} {v : UInt16} {value : α} {bytes : Bytes} :
    codec.marshal v value = .ok bytes ↔
      v ∈ codec.supported ∧ ∃ body, Writable.write value = .ok body ∧
        bytes = bigEndian 2 v.toNat ++ body := by
  unfold marshal
  rw [Except.bind_eq_ok_iff]
  refine ⟨fun h => ?_, fun h => ?_⟩
  · obtain ⟨_, hcheck, h⟩ := h
    obtain ⟨body, hbody, h⟩ := Except.bind_eq_ok_iff.1 h
    cases h
    exact ⟨check_eq_ok_iff.1 hcheck, body, Except.mapError_eq_ok_iff.1 hbody, rfl⟩
  · obtain ⟨hv, body, hbody, rfl⟩ := h
    refine ⟨(), check_eq_ok_iff.2 hv, Except.bind_eq_ok_iff.2 ⟨body, ?_, rfl⟩⟩
    exact Except.mapError_eq_ok_iff.2 hbody

/-! ## Two codecs

The body tells the value, and the codec no more than whether the version is known. -/

/-- The version in front of the bytes is one that the codec knows. -/
def Knows (codec : Codec) (bytes : Bytes) : Prop :=
  ∃ v ∈ codec.supported, bigEndian 2 v.toNat <+: bytes

theorem knows_of_unmarshal [Readable α] {codec : Codec} {bytes : Bytes} {value : α}
    (h : codec.unmarshal bytes = .ok value) : codec.Knows bytes := by
  obtain ⟨v, hv, body, -, rfl, -⟩ := unmarshal_eq_ok_iff.1 h
  exact ⟨v, hv, List.prefix_append ..⟩

/-- What one codec reads, any codec that knows the version reads as the same value. The version has
two bytes in both, so it is the same one. -/
theorem unmarshal_of_knows [Readable α] {codec codec' : Codec} {bytes : Bytes} {value : α}
    (h : codec.unmarshal bytes = .ok value) (hknows : codec'.Knows bytes) :
    codec'.unmarshal bytes = .ok value := by
  obtain ⟨v, -, body, rest, rfl, hread⟩ := unmarshal_eq_ok_iff.1 h
  obtain ⟨v', hv', tail, htail⟩ := hknows
  have hwidth : (bigEndian 2 v'.toNat).length = (bigEndian 2 v.toNat).length := by
    rw [length_bigEndian, length_bigEndian]
  obtain ⟨hversion, -⟩ := List.append_inj htail hwidth
  exact unmarshal_eq_ok_iff.2 ⟨v', hv', body, rest, by rw [hversion], hread⟩

/-- Two codecs that read the same bytes read the same value. -/
theorem unmarshal_inj [Readable α] {codec codec' : Codec} {bytes : Bytes} {value value' : α}
    (h : codec.unmarshal bytes = .ok value) (h' : codec'.unmarshal bytes = .ok value') :
    value = value' := by
  rw [unmarshal_of_knows h (knows_of_unmarshal h')] at h'
  exact Except.ok.inj h'

end Codec

/-! ## Transactions and batches -/

/-- The body of an encoded batch: how many transactions, and one after the other. -/
def batchBody (txs : List Transaction) : Bytes :=
  littleEndian 8 txs.length ++ (txs.map Transaction.body).flatten

theorem mapM_write_transaction (txs : List Transaction) :
    txs.mapM (Writable.write : Transaction → Except EncodeFault Bytes) =
      .ok (txs.map Transaction.body) := by
  induction txs with
  | nil => rfl
  | cons tx txs ih =>
    rw [List.mapM_cons, ih]
    rfl

/-- The body of a batch is written if its length can be told, which is the one thing that can
fail. -/
theorem write_batch_eq_ok_iff {txs : List Transaction} {body : Bytes} :
    Writable.write txs = .ok body ↔ txs.length < capacity 8 ∧ body = batchBody txs := by
  show (do
    unless txs.length < capacity 8 do throw (EncodeFault.sequenceTooLong txs.length)
    let parts ← txs.mapM Writable.write
    return littleEndian 8 txs.length ++ parts.flatten : Except EncodeFault Bytes) = .ok body ↔ _
  rw [mapM_write_transaction]
  -- Transactions cannot fail to be written, so the length in front is all that can.
  by_cases hlen : txs.length < capacity 8
  · rw [if_pos hlen]
    refine ⟨fun h => ?_, fun h => ?_⟩
    · cases h
      exact ⟨hlen, rfl⟩
    · rw [h.2]
      rfl
  · rw [if_neg hlen]
    refine ⟨fun h => ?_, fun h => ?_⟩
    · cases h
    · exact absurd h.1 hlen

namespace Codec

variable {codec : Codec} {v : UInt16} {bytes : Bytes}

/-- A transaction is encoded under every supported version; its body does not depend on which. -/
theorem marshal_tx_iff {tx : Transaction} :
    codec.marshal v tx = .ok bytes ↔
      v ∈ codec.supported ∧ bytes = bigEndian 2 v.toNat ++ tx.body := by
  rw [marshal_eq_ok_iff]
  refine and_congr_right fun _ => ⟨fun h => ?_, fun h => ⟨tx.body, rfl, h⟩⟩
  obtain ⟨body, hbody, rfl⟩ := h
  cases hbody
  rfl

/-- A batch is encoded under every supported version, if its length can be told in eight bytes. -/
theorem marshal_batch_iff {txs : List Transaction} :
    codec.marshal v txs = .ok bytes ↔
      v ∈ codec.supported ∧ txs.length < capacity 8 ∧
        bytes = bigEndian 2 v.toNat ++ batchBody txs := by
  rw [marshal_eq_ok_iff]
  refine and_congr_right fun _ => ⟨fun h => ?_, fun h => ?_⟩
  · obtain ⟨body, hbody, rfl⟩ := h
    obtain ⟨hlen, rfl⟩ := write_batch_eq_ok_iff.1 hbody
    exact ⟨hlen, rfl⟩
  · exact ⟨batchBody txs, write_batch_eq_ok_iff.2 ⟨h.1, rfl⟩, h.2⟩

/-- What is read as a transaction: its encoded form under a supported version, and anything behind
it. -/
theorem unmarshal_tx_iff {tx : Transaction} :
    codec.unmarshal bytes = .ok tx ↔
      ∃ v ∈ codec.supported, ∃ rest, bytes = bigEndian 2 v.toNat ++ (tx.body ++ rest) := by
  rw [unmarshal_eq_ok_iff]
  refine ⟨fun h => ?_, fun h => ?_⟩
  · obtain ⟨v, hv, body, rest, rfl, hread⟩ := h
    exact ⟨v, hv, rest, by rw [Transaction.read_eq_some_iff.1 hread]⟩
  · obtain ⟨v, hv, rest, rfl⟩ := h
    exact ⟨v, hv, tx.body ++ rest, rest, rfl, Transaction.read_eq_some_iff.2 rfl⟩

/-- A list of transactions is read from its body, because each of them is read from its own. -/
theorem read_batch_eq_some_iff {body rest : Bytes} {txs : List Transaction} :
    (Readable.read : Reader (List Transaction)) body = some (txs, rest) ↔
      txs.length < capacity 8 ∧ body = batchBody txs ++ rest :=
  Reader.list_eq_some_iff fun _ _ _ => Transaction.read_eq_some_iff

/-- What is read as a batch: its encoded form under a supported version, and anything behind it. -/
theorem unmarshal_batch_iff {txs : List Transaction} :
    codec.unmarshal bytes = .ok txs ↔
      txs.length < capacity 8 ∧ ∃ v ∈ codec.supported, ∃ rest,
        bytes = bigEndian 2 v.toNat ++ (batchBody txs ++ rest) := by
  rw [unmarshal_eq_ok_iff]
  refine ⟨fun h => ?_, fun h => ?_⟩
  · obtain ⟨v, hv, body, rest, rfl, hread⟩ := h
    obtain ⟨hlen, rfl⟩ := read_batch_eq_some_iff.1 hread
    exact ⟨hlen, v, hv, rest, rfl⟩
  · obtain ⟨hlen, v, hv, rest, rfl⟩ := h
    exact ⟨v, hv, _, rest, rfl, read_batch_eq_some_iff.2 ⟨hlen, rfl⟩⟩

theorem unmarshal_of_marshal_tx {tx : Transaction} (h : codec.marshal v tx = .ok bytes) :
    codec.unmarshal bytes = .ok tx := by
  obtain ⟨hv, rfl⟩ := marshal_tx_iff.1 h
  exact unmarshal_tx_iff.2 ⟨v, hv, [], by rw [List.append_nil]⟩

/-- An encoded batch is read back as the same transactions. So a batch that has been stored can be
extended later on. -/
theorem unmarshal_of_marshal_batch {txs : List Transaction} (h : codec.marshal v txs = .ok bytes) :
    codec.unmarshal bytes = .ok txs := by
  obtain ⟨hv, hlen, rfl⟩ := marshal_batch_iff.1 h
  exact unmarshal_batch_iff.2 ⟨hlen, v, hv, [], by rw [List.append_nil]⟩

/-- A codec that knows the version encodes every batch short enough for its length to be told. -/
theorem exists_marshal_batch {txs : List Transaction} (hv : v ∈ codec.supported)
    (hlen : txs.length < capacity 8) : ∃ bytes, codec.marshal v txs = .ok bytes :=
  ⟨_, marshal_batch_iff.2 ⟨hv, hlen, rfl⟩⟩

end Codec

end TxIndex

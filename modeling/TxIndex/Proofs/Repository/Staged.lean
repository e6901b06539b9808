import TxIndex.Proofs.Record
import TxIndex.Proofs.Repository.Indexes

/-!
# What a write stages

A write stages one record for each of its transactions, the batch of the height, and the marker, in
this order (`stagedEntries`). Here is what these entries are and when they can be encoded at all
(`Accepts`), what they are read back as (`readItem_recordEntry`, `unmarshal_batchEntry`), and what
is found under each key once all of them are staged (`get?_tx_insertAll`, `get?_height_insertAll`).
-/

namespace TxIndex.Repository

variable {r : Repository} {height : Height} {txs : List Transaction}

/-! ## What is staged -/

/-- The encoded form of a transaction under the version in use. -/
def payload (r : Repository) (tx : Transaction) : Bytes :=
  bigEndian 2 r.config.codecVersion.toNat ++ tx.body

/-- The entry of the index by id for a transaction. -/
def recordEntry (r : Repository) (height : Height) (tx : Transaction) : Entry where
  key := Key.tx tx.id
  value := height.pack ++ bigEndian 4 (r.payload tx).length ++ r.payload tx

/-- What is read back from the entry of a record. -/
def recordItem (r : Repository) (height : Height) (tx : Transaction) : Backfill.Item where
  cursor := tx.id
  record := { height, payload := r.payload tx }
  tx

/-- The entry of the index by height for a list of transactions. -/
def batchEntry (r : Repository) (height : Height) (txs : List Transaction) : Entry where
  key := Key.height height
  value := bigEndian 2 r.config.codecVersion.toNat ++ batchBody txs

/-- The entry that tells how far the index by height reaches. -/
def markerEntry (height : Height) : Entry where
  key := Key.marker
  value := (Marker.complete height).encode

/-- All entries of a write, in the order in which they are staged. -/
def stagedEntries (r : Repository) (height : Height) (txs : List Transaction) : List Entry :=
  txs.map (r.recordEntry height) ++ [r.batchEntry height txs, markerEntry height]

theorem mem_stagedEntries_iff {e : Entry} :
    e ∈ r.stagedEntries height txs ↔
      (∃ tx ∈ txs, e = r.recordEntry height tx) ∨ e = r.batchEntry height txs ∨
        e = markerEntry height := by
  unfold stagedEntries
  simp only [List.mem_append, List.mem_map, List.mem_cons, List.not_mem_nil, or_false, eq_comm]

/-- Nothing stands in the way of a write of these transactions. -/
structure Accepts (r : Repository) (txs : List Transaction) : Prop where
  bound : ∀ max, r.config.maxTxsPerHeight = some max → txs.length ≤ max
  version : r.config.codecVersion ∈ r.codec.supported
  /-- A record tells the length of its payload in four bytes. -/
  payloads : ∀ tx ∈ txs, (r.payload tx).length < capacity 4
  /-- A batch tells its length in eight bytes. -/
  length : txs.length < capacity 8

/-- With the default settings only lengths stand in the way. -/
theorem accepts_of_lengths {report : Backfill.Report} (hlength : txs.length < capacity 8)
    (hpayloads : ∀ tx ∈ txs, (bigEndian 2 0 ++ tx.body).length < capacity 4) :
    Accepts { codec := {}, config := {}, lastBackfill := report } txs where
  bound max := fun (heq : none = some max) => nomatch heq
  version := List.mem_singleton_self 0
  payloads := hpayloads
  length := hlength

/-! ## What is staged can be read -/

/-- The entry of a record is read back, by a backfill, as the record and the transaction in it. -/
theorem readItem_recordEntry {tx : Transaction}
    (hversion : r.config.codecVersion ∈ r.codec.supported)
    (hlen : (r.payload tx).length < capacity 4) :
    Backfill.readItem r.codec (r.recordEntry height tx) = .ok (r.recordItem height tx) := by
  refine Backfill.readItem_eq_ok_iff.2 ⟨Key.txId_eq_ok_iff.2 rfl, ?_, ?_⟩
  · exact Record.decode_of_encode (if_pos hlen)
  · exact Codec.unmarshal_of_marshal_tx (Codec.marshal_tx_iff.2 ⟨hversion, rfl⟩)

theorem readStored_recordEntry {tx : Transaction}
    (hversion : r.config.codecVersion ∈ r.codec.supported)
    (hlen : (r.payload tx).length < capacity 4) :
    readStored r.codec (r.recordEntry height tx).value = .ok (tx, height) := by
  have hitem : Backfill.readItem r.codec (r.recordEntry height tx) = .ok _ :=
    readItem_recordEntry hversion hlen
  obtain ⟨-, hrecord, htx⟩ := Backfill.readItem_eq_ok_iff.1 hitem
  exact readStored_eq_ok_iff.2 ⟨_, hrecord, htx, rfl⟩

theorem unmarshal_batchEntry (h : r.Accepts txs) :
    r.codec.unmarshal (r.batchEntry height txs).value = .ok txs :=
  Codec.unmarshal_of_marshal_batch (Codec.marshal_batch_iff.2 ⟨h.version, h.length, rfl⟩)

/-- A beginning of the entries of a write is a beginning of its records, or all of them and the
batch, or the whole. -/
theorem take_stagedEntries (r : Repository) (height : Height) (txs : List Transaction) (k : Nat) :
    (r.stagedEntries height txs).take k = (txs.take k).map (r.recordEntry height) ∨
      (r.stagedEntries height txs).take k =
        txs.map (r.recordEntry height) ++ [r.batchEntry height txs] ∨
      (r.stagedEntries height txs).take k = r.stagedEntries height txs := by
  unfold stagedEntries
  rw [List.take_append, List.length_map]
  have hall (h : txs.length < k) :
      (txs.map (r.recordEntry height)).take k = txs.map (r.recordEntry height) :=
    List.take_of_length_le (by simp; omega)
  -- Behind the records there are just two entries, so how far `k` goes beyond them decides.
  match hk : k - txs.length with
  | 0 => exact .inl (by rw [List.take_zero, List.append_nil, List.map_take])
  | 1 => exact .inr (.inl (by rw [hall (by omega)]; rfl))
  | n + 2 => exact .inr (.inr (by rw [hall (by omega), List.take_of_length_le (by simp)]))

/-! ## What is found after all has been staged -/

/-- A record that is found is one of the write, or was there before. -/
theorem record_or_get?_of_insertAll {t : Table} {e : Entry}
    (hget : (t.insertAll (r.stagedEntries height txs)).get? e.key = some e.value)
    (htag : Space.txById.tag <+: e.key) :
    (∃ tx ∈ txs, e = r.recordEntry height tx) ∨ t.get? e.key = some e.value := by
  refine (Table.mem_or_get?_of_get?_insertAll hget).imp_left fun hmem => ?_
  change e ∈ r.stagedEntries height txs at hmem
  rcases mem_stagedEntries_iff.1 hmem with hrecord | rfl | rfl
  · exact hrecord
  · exact nomatch Space.tag_prefix_key_iff.1 htag
  · exact nomatch Space.tag_prefix_key_iff.1 htag

/-- Where no id occurs twice, all records are found: the entries behind them, the batch and the
marker, lie under other keys. -/
theorem get?_tx_insertAll {tx : Transaction} (hnodup : (txs.map Transaction.id).Nodup)
    (htx : tx ∈ txs) (t : Table) :
    (t.insertAll (r.stagedEntries height txs)).get? (Key.tx tx.id) =
      some (r.recordEntry height tx).value := by
  -- The ids differ, so no later record is put over this one.
  have hkeys : ((txs.map (r.recordEntry height)).map Entry.key).Nodup := by
    have hmap : (txs.map (r.recordEntry height)).map Entry.key =
        (txs.map Transaction.id).map Key.tx := by
      rw [List.map_map, List.map_map]
      rfl
    rw [hmap]
    exact hnodup.map fun _ _ => Key.tx_inj.1
  have hrecords := Table.get?_insertAll_of_mem (t := t) hkeys (List.mem_map_of_mem htx)
  unfold stagedEntries
  rw [Table.insertAll_append]
  show ((Table.insert _ (Key.height height) _).insert Key.marker _).get? (Key.tx tx.id) = _
  rw [Table.get?_insert, if_neg (Key.tx_ne_marker _).symm, Table.get?_insert,
    if_neg (Key.tx_ne_height _ _).symm]
  exact hrecords

theorem get?_tx_insertAll_of_ne {id : TxId} (hne : ∀ tx ∈ txs, tx.id ≠ id) (t : Table) :
    (t.insertAll (r.stagedEntries height txs)).get? (Key.tx id) = t.get? (Key.tx id) := by
  refine Table.get?_insertAll_of_ne fun e he => ?_
  rcases mem_stagedEntries_iff.1 he with ⟨tx, htx, rfl⟩ | rfl | rfl
  · exact fun heq => hne tx htx (Key.tx_inj.1 heq)
  · exact (Key.tx_ne_height id height).symm
  · exact (Key.tx_ne_marker id).symm

/-- The batch of the height is the one that has been written. -/
theorem get?_height_insertAll (t : Table) :
    (t.insertAll (r.stagedEntries height txs)).get? (Key.height height) =
      some (r.batchEntry height txs).value := by
  unfold stagedEntries
  rw [Table.insertAll_append]
  show ((Table.insert _ (Key.height height) _).insert Key.marker _).get? (Key.height height) = _
  rw [Table.get?_insert, if_neg (Key.height_ne_marker height).symm, Table.get?_insert_self]

/-- The batches of other heights stay. -/
theorem get?_height_insertAll_of_ne {t : Table} {other : Height} (hne : other ≠ height) :
    (t.insertAll (r.stagedEntries height txs)).get? (Key.height other) =
      t.get? (Key.height other) := by
  refine Table.get?_insertAll_of_ne fun e he => ?_
  rcases mem_stagedEntries_iff.1 he with ⟨tx, -, rfl⟩ | rfl | rfl
  · exact Key.tx_ne_height tx.id other
  · exact fun heq => hne (Key.height_inj.1 heq).symm
  · exact (Key.height_ne_marker other).symm

end TxIndex.Repository

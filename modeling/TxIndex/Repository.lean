import TxIndex.Backfill.Run
import TxIndex.Cursor

/-!
# The repository

A repository keeps accepted transactions under two indexes, by id and by height, together with the
marker that tells how far the index by height reaches. It is opened on a store, which may run a
backfill, and then written to once per accepted height and read from at any time.

Writes are staged, and become durable when the caller commits. Nothing is staged before everything
has been encoded, and the marker is staged last.
-/

namespace TxIndex

/-- A repository on some store: how it encodes, its settings, and what opening it did. -/
structure Repository where
  codec : Codec
  config : Config
  lastBackfill : Backfill.Report
  deriving DecidableEq

namespace Repository

/-- Opens the repository of a store. `lastAccepted` is the height up to which transactions have been
accepted; a backfill that completes marks the index with it. -/
def openStore (codec : Codec) (config : Config) (lastAccepted : Height) : Access Repository := do
  let lastBackfill ← Backfill.run codec config lastAccepted
  return { codec, config, lastBackfill }

/-! ## Writing -/

/-- The entry of the index by id for a transaction accepted at a height. -/
def txEntry (r : Repository) (height : Height) (tx : Transaction) : Access Entry := do
  let payload ← Access.marshalTx r.codec r.config.codecVersion tx
  let value ← Access.ofStored (Record.encode { height, payload })
  return ⟨Key.tx tx.id, value⟩

/-- All entries that writing a height stages, in the order in which they are staged. -/
def writeEntries (r : Repository) (height : Height) (txs : List Transaction) :
    Access (List Entry) := do
  let records ← txs.mapM (r.txEntry height)
  let batch ← Access.marshalBatch r.codec r.config.codecVersion txs
  return records ++
    [⟨Key.height height, batch⟩, ⟨Key.marker, (Marker.complete height).encode⟩]

/-- Refuses more transactions than the configured bound. -/
def checkBound (r : Repository) (height : Height) (count : Nat) : Except Error Unit :=
  match r.config.maxTxsPerHeight with
  | some max => if max < count then .error (.batchTooLarge height count max) else .ok ()
  | none => .ok ()

/-- Stages the transactions accepted at a height: one record for each, the batch, and the marker. -/
def write (r : Repository) (height : Height) (txs : List Transaction) : Access Unit := do
  MonadExcept.ofExcept (r.checkBound height txs.length)
  let entries ← r.writeEntries height txs
  entries.forM fun e => Access.put e.key e.value

/-! ## Reading -/

/-- The transaction with the given id and the height it was accepted at. -/
def getByTxId (r : Repository) (id : TxId) : Access (Transaction × Height) := do
  match ← Access.get (Key.tx id) with
  | some stored =>
    let (tx, record) ← Access.readRecord r.codec stored
    return (tx, record.height)
  | none => throw (.txNotFound id)

/-- The transactions accepted at a height, in the order in which they were written. -/
def getByHeight (r : Repository) (height : Height) : Access (List Transaction) := do
  match ← Access.readBatch r.codec height with
  | some txs => return txs
  | none => throw (.heightNotFound height)

/-- The entries of the index by id, from the smallest id on. -/
def iterateByTxId (r : Repository) : Cursor :=
  .start .txById [] r.config.scanPageSize

/-- The entries of the index by height, from the packed height `start` on. -/
def iterateByHeight (r : Repository) (start : Bytes) : Cursor :=
  .start .txsByHeight start r.config.scanPageSize

/-- The height that the progress marker tells. -/
def indexHeight : Access (Option Height) := do
  match ← Access.readMarker with
  | none => return none
  | some (.complete height) => return some height
  | some (.inProgress cursor) => throw (.corruption (.markerUnfinished cursor))

end Repository

end TxIndex

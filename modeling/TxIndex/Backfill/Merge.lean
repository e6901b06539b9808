import TxIndex.Access.Basic
import TxIndex.Backfill.Report
import TxIndex.Config

/-!
# Merging one record into the index by height

A backfill takes the records of the index by id one after the other. Each is appended to the batch
of its height, unless that batch has a transaction of the same id; this is what makes it harmless
to merge a record twice. As soon as the payloads since the last checkpoint exceed the cap, the
position is written to the progress marker and everything staged is committed.
-/

namespace TxIndex.Backfill

/-- How far a backfill has come. -/
structure Progress where
  report : Report
  /-- Bytes of the payloads merged since the last checkpoint. -/
  pendingBytes : Nat := 0
  deriving DecidableEq

namespace Progress

/-- One more record with a payload of so many bytes, appended or found to be a duplicate. -/
def merged (p : Progress) (appended : Bool) (bytes : Nat) : Progress where
  pendingBytes := p.pendingBytes + bytes
  report :=
    { p.report with
      indexed := p.report.indexed + if appended then 1 else 0
      duplicates := p.report.duplicates + if appended then 0 else 1
      bytesProcessed := p.report.bytesProcessed + bytes }

/-- The payloads are counted anew from a checkpoint on. -/
def checkpointed (p : Progress) : Progress where
  pendingBytes := 0
  report := { p.report with checkpoints := p.report.checkpoints + 1 }

end Progress

/-- Appends a transaction to the batch of a height, unless the batch has one of the same id. Tells
whether it was appended. -/
def append (codec : Codec) (version : UInt16) (height : Height) (tx : Transaction) :
    Access Bool := do
  let batch := (← Access.readBatch codec height).getD []
  let id := tx.id
  if batch.any fun other => other.id == id then
    return false
  else
    let bytes ← Access.marshalBatch codec version (batch ++ [tx])
    Access.put (Key.height height) bytes
    return true

/-- Writes the position down and commits everything staged. -/
def checkpoint (cursor : TxId) : Access Unit := do
  Access.putMarker (.inProgress cursor)
  Access.commit

/-- Merges one entry of the index by id. The position of a checkpoint is the stored key, for that
is where a later scan takes up. -/
def mergeEntry (codec : Codec) (config : Config) (p : Progress) (entry : Entry) :
    Access Progress := do
  let cursor ← Access.ofStored (Key.txId entry.key)
  let (tx, record) ← Access.readRecord codec entry.value
  let appended ← append codec config.codecVersion record.height tx
  let p := p.merged appended record.payload.length
  if config.commitSizeCap < p.pendingBytes then
    checkpoint cursor
    return p.checkpointed
  else
    return p

/-- Merges the entries of one page from `start` on. Gives the start of the next page, or `none`
when the page is short: then it was the last one. -/
def mergePage (codec : Codec) (config : Config) (start : Bytes) (p : Progress) :
    Access (Progress × Option Bytes) := do
  let page ← Access.scan start Space.txById.tag config.pageSize
  let p ← page.foldlM (mergeEntry codec config) p
  let next :=
    if page.length < config.pageSize then none
    else page.getLast?.map fun e => Key.successor e.key
  return (p, next)

end TxIndex.Backfill
